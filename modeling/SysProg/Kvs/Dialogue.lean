import SysProg.Kvs.Main
import SysProg.Kvs.Reference

/-!
# `SysProg.Kvs.Dialogue`: what a client sees of the server

The protocol as a client knows it. A client sends one request at a time: a text without NUL and
line feed, and then a line feed, at most `BUF_SIZE` bytes in all. It waits for the reply before it
sends again. The server answers with one line, the reply to the operation that the text asks for.

`Dialogue` is where a connection is in the protocol, and `Dialogue.next` says what may come next.
It knows nothing about buffers, threads and locks. A client that breaks the rules is `rude`, and
nothing is promised to it until it connects again.
-/

set_option autoImplicit false

namespace SysProg.Kvs

open SysProg.Lib

/-- The operation that a text asks for, and whether it is a quick one. -/
def requestOf (w : List UInt8) : Option Request :=
  (message w).bind fun r => r.op.map fun op => ⟨op, decide (r.cmd = .qread)⟩

/-- Where a worker is with its client.

* `closed`: before the first connection.
* `ready text`: `text` has come of the next request.
* `called r`: a text that asks for `r` is complete.
* `serving r`: the table function for `r` runs.
* `replying rest`: `rest` has still to be sent of the reply.
* `rude`: the client has broken the rules. -/
inductive Dialogue where
  | closed
  | ready (text : List UInt8)
  | called (r : Request)
  | serving (r : Request)
  | replying (rest : List UInt8)
  | rude
deriving DecidableEq

namespace Dialogue

/-- The bytes are a request with its line feed. -/
def IsRequest (bytes : List UInt8) : Prop :=
  0 ∉ bytes ∧ lf ∉ bytes.dropLast ∧ bytes.getLast? = some lf ∧ bytes.length ≤ bufSize

instance (bytes : List UInt8) : Decidable (IsRequest bytes) :=
  inferInstanceAs (Decidable (_ ∧ _ ∧ _ ∧ _))

/-- What the bytes since the last reply mean. A text that asks for nothing is answered at once. -/
def read (bytes : List UInt8) : Dialogue :=
  if 0 ∉ bytes ∧ lf ∉ bytes ∧ bytes.length < bufSize then .ready bytes
  else if IsRequest bytes then
    match requestOf bytes.dropLast with
    | none => .replying (msgInvalid ++ [lf])
    | some r => .called r
  else .rude

/-- What may come next between a worker and its client. -/
def next {n : Nat} (d : Dialogue) : Event n → Option Dialogue
  | .accepted _ =>
      match d with
      | .called _ | .serving _ => none
      | _ => some (.ready [])
  | .received _ bytes =>
      match d with
      | .ready text => some (read (text ++ bytes))
      | .replying [] => some (read bytes)
      | .rude => some .rude
      | _ => none
  | .table (.invoked _ r) =>
      match d with
      | .called r' => if r = r' then some (.serving r) else none
      | .rude => some .rude
      | _ => none
  | .table (.returned _ o) =>
      match d with
      | .serving r => some (.replying (replyText r.op o.reply ++ [lf]))
      | .rude => some .rude
      | _ => none
  | .sent _ chunk =>
      match d with
      | .replying rest =>
          if chunk <+: rest then some (.replying (rest.drop chunk.length)) else none
      | .rude => some .rude
      | _ => none
  | .dumped _ => some d

end Dialogue

/-- The worker of an event. -/
def Event.tid {n : Nat} : Event n → Option (Fin n)
  | .table (.invoked t _) | .table (.returned t _) | .accepted t | .received t _ | .sent t _ =>
      some t
  | .dumped _ => none

/-- The dialogue of a worker with its clients. It is `none` when something came that may not. -/
def dialogue {n : Nat} (t : Fin n) (log : List (Event n)) : Option Dialogue :=
  (log.filter fun e => e.tid = some t).foldlM Dialogue.next .closed

end SysProg.Kvs
