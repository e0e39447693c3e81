import SysProg.Lib.Tokens
import SysProg.Kvs.Protocol

/-!
# `SysProg.Kvs.Reference`: what a request means

The reference interpreter of the protocol. It works on the text of a request, the bytes
before its line feed, and on a finite map.

* `message` is the grammar: the words of the text and the length of the key decide.
* `answer` is the reply to an operation, by the value that is stored under its key.
* `refServe` runs one request.
-/

set_option autoImplicit false

namespace SysProg.Kvs

open SysProg.Lib

/-- The separator of the words. -/
def isSpace (c : UInt8) : Bool := c = space

/-- A message that follows the grammar. -/
structure Message where
  cmd : Cmd
  key : List UInt8
  value : Option (List UInt8)
deriving DecidableEq, Repr

/-- The commands with a key. -/
def keyCommand (x : List UInt8) : Option Cmd :=
  if x = ascii ['R', 'E', 'A', 'D'] then some .read
  else if x = ascii ['Q', 'R', 'E', 'A', 'D'] then some .qread
  else if x = ascii ['D', 'E', 'L', 'E', 'T', 'E'] then some .delete
  else none

/-- The commands with a key and a value. -/
def valueCommand (x : List UInt8) : Option Cmd :=
  if x = ascii ['C', 'R', 'E', 'A', 'T', 'E'] then some .create
  else if x = ascii ['U', 'P', 'D', 'A', 'T', 'E'] then some .update
  else none

/-- The grammar of the messages. Upper and lower case letters are the same in a command. -/
def message (w : List UInt8) : Option Message :=
  match tokens isSpace w with
  | [x, key] =>
      if key.length ≤ maxKeyLen then
        (keyCommand (x.map toupper)).map fun cmd => ⟨cmd, key, none⟩
      else none
  | [x, key, value] =>
      if key.length ≤ maxKeyLen then
        (valueCommand (x.map toupper)).map fun cmd => ⟨cmd, key, some value⟩
      else none
  | _ => none

/-- The operation a request asks for. -/
def Message.op (r : Message) : Option (MapOp CString CString) :=
  match r.cmd, r.value with
  | .create, some value => some (.insert (.ofBytes r.key) (.ofBytes value))
  | .update, some value => some (.update (.ofBytes r.key) (.ofBytes value))
  | .read, _ | .qread, _ => some (.read (.ofBytes r.key))
  | .delete, _ => some (.delete (.ofBytes r.key))
  | _, _ => none

/-- The reply to an operation. `stored` is the value under its key, and `allocated` tells
whether there was memory for it. -/
def answer (stored : Option CString) (allocated : Bool) : MapOp CString CString → List UInt8
  | .insert _ _ =>
      match stored with
      | some _ => msgCollision
      | none => if allocated then msgCreateOk else msgInternalErr
  | .read _ =>
      match stored with
      | some value => value.bytes
      | none => msgNotFound
  | .update _ _ =>
      match stored with
      | some _ => if allocated then msgUpdateOk else msgInternalErr
      | none => msgNotFound
  | .delete _ =>
      match stored with
      | some _ => msgDeleteOk
      | none => msgNotFound

/-- One request on the map `m`: the map after it and the reply. -/
def refServe (m : CString → Option CString) (mem : Alloc) (w : List UInt8) :
    (CString → Option CString) × List UInt8 :=
  match (message w).bind Message.op with
  | none => (m, msgInvalid ++ [lf])
  | some op =>
      ((op.apply m (mem.succeeds op)).1, answer (m op.key) (mem.succeeds op) op ++ [lf])

end SysProg.Kvs
