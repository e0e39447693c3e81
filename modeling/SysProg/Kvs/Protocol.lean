import SysProg.Kvs.HashTable

/-!
# `SysProg.Kvs.Protocol`: the request parser and `skvs_serve`

The model of `skvslib.c`. A buffer is the list of its bytes, and a `char *` into it is an
offset. The C library functions are `cstr` (the string at an offset), `strspn`, `strcspn` and
`strtokR`, with the meaning they have in the C library: `strtok_r` overwrites the separator
behind a token and keeps its place in `saveptr`.

* `skvsParse` cuts the line feed off and finds the command with its key and value.
* `skvsServe` runs the command on the table and writes the reply.

`wbuf` holds a string, so it is given by its bytes up to the terminator.
-/

set_option autoImplicit false

namespace SysProg.Kvs

/-- `BUF_SIZE`. The buffers have one byte more. -/
def bufSize : Nat := 4096

/-- `MAX_KEY_LEN`. -/
def maxKeyLen : Nat := 32

/-- The bytes of an ASCII text. -/
def ascii (s : List Char) : List UInt8 := s.map fun c => UInt8.ofNat c.toNat

/-- `g_lf`, the line feed. -/
def lf : UInt8 := 10

/-- The separator `" "` of the tokens. -/
def space : UInt8 := 32

/-- `enum CMD`. -/
inductive Cmd where
  | incomplete
  | invalid
  | create
  | read
  | qread
  | update
  | delete
deriving DecidableEq, Repr

/-- `g_cmds`, with the command each name stands for. -/
def gCmds : List (List UInt8 × Cmd) :=
  [(ascii ['C', 'R', 'E', 'A', 'T', 'E'], .create), (ascii ['R', 'E', 'A', 'D'], .read),
    (ascii ['Q', 'R', 'E', 'A', 'D'], .qread), (ascii ['U', 'P', 'D', 'A', 'T', 'E'], .update),
    (ascii ['D', 'E', 'L', 'E', 'T', 'E'], .delete)]

/-! ### The replies, `g_msgs` -/

def msgInvalid : List UInt8 := ascii ['I', 'N', 'V', 'A', 'L', 'I', 'D', ' ', 'C', 'M', 'D']
def msgCreateOk : List UInt8 := ascii ['C', 'R', 'E', 'A', 'T', 'E', ' ', 'O', 'K']
def msgCollision : List UInt8 := ascii ['C', 'O', 'L', 'L', 'I', 'S', 'I', 'O', 'N']
def msgNotFound : List UInt8 := ascii ['N', 'O', 'T', ' ', 'F', 'O', 'U', 'N', 'D']
def msgUpdateOk : List UInt8 := ascii ['U', 'P', 'D', 'A', 'T', 'E', ' ', 'O', 'K']
def msgDeleteOk : List UInt8 := ascii ['D', 'E', 'L', 'E', 'T', 'E', ' ', 'O', 'K']
def msgInternalErr : List UInt8 :=
  ascii ['I', 'N', 'T', 'E', 'R', 'N', 'A', 'L', ' ', 'E', 'R', 'R']

/-! ### Strings in a buffer -/

/-- The string at the offset `p`: the bytes up to the terminator. -/
def cstr (buf : List UInt8) (p : Nat) : List UInt8 := (buf.drop p).takeWhile fun c => c ≠ 0

/-- `strspn(buf + p, " ")`. -/
def strspn (buf : List UInt8) (p : Nat) : Nat :=
  ((buf.drop p).takeWhile fun c => c = space).length

/-- `strcspn(buf + p, " ")`. -/
def strcspn (buf : List UInt8) (p : Nat) : Nat :=
  ((buf.drop p).takeWhile fun c => c ≠ space ∧ c ≠ 0).length

/-- What `strtok_r` leaves: the buffer, the token it returns, and `saveptr`. -/
structure Strtok where
  buffer : List UInt8
  token : Option Nat
  save : Nat
deriving DecidableEq

/-- `strtok_r(s, " ", &saveptr)` with the text at `s`, which is `saveptr` when the argument is
`NULL`. -/
def strtokR (buf : List UInt8) (s : Nat) : Strtok :=
  let s := s + strspn buf s
  if buf.getD s 0 = 0 then ⟨buf, none, s⟩
  else
    let stop := s + strcspn buf s
    if buf.getD stop 0 = 0 then ⟨buf, some s, stop⟩ else ⟨buf.set stop 0, some s, stop + 1⟩

/-- `toupper` in the C locale. -/
def toupper (c : UInt8) : UInt8 := if 97 ≤ c ∧ c ≤ 122 then c - 32 else c

/-- The loop that converts the string at `p` to upper case. -/
def upperCase (buf : List UInt8) (p : Nat) : List UInt8 :=
  buf.take p ++ (cstr buf p).map toupper ++ buf.drop (p + (cstr buf p).length)

/-- A string of the C program from bytes. It ends at the first NUL byte. -/
def CString.ofBytes (bs : List UInt8) : CString where
  bytes := bs.takeWhile fun c => c ≠ 0
  nul_free h := by
    have hp := List.all_takeWhile (p := fun c : UInt8 => decide (c ≠ 0)) (l := bs)
    rw [List.all_eq_true] at hp
    simpa using hp 0 h

/-! ### `skvs_parse` -/

/-- What `skvs_parse` leaves: the buffer, the command, and the pointers `*key` and `*value`. -/
structure Parsed where
  buffer : List UInt8
  cmd : Cmd
  key : Option Nat
  value : Option Nat
deriving DecidableEq

/-- `CREATE` and `UPDATE` take a value, the other commands do not. -/
def Cmd.takesValue : Cmd → Bool
  | .create | .update => true
  | _ => false

/-- The rest of `skvs_parse` once a command was recognized, from `saveptr` on. -/
def skvsParseArgs (buf : List UInt8) (cmd : Cmd) (save : Nat) : Parsed :=
  let k := strtokR buf save
  match k.token with
  | none => ⟨k.buffer, .invalid, none, none⟩
  | some key =>
      if maxKeyLen < (cstr k.buffer key).length then ⟨k.buffer, .invalid, some key, none⟩
      else
        let v := strtokR k.buffer k.save
        if !cmd.takesValue && v.token.isSome then ⟨v.buffer, .invalid, some key, v.token⟩
        else if cmd.takesValue && v.token.isNone then ⟨v.buffer, .invalid, some key, v.token⟩
        else
          let e := strtokR v.buffer v.save
          if e.token.isSome then ⟨e.buffer, .invalid, some key, v.token⟩
          else ⟨e.buffer, cmd, some key, v.token⟩

/-- `skvs_parse` once the line feed is gone. -/
def skvsParseLine (buf : List UInt8) : Parsed :=
  let c := strtokR buf 0
  match c.token with
  | none => ⟨c.buffer, .invalid, none, none⟩
  | some cmd =>
      let buf := upperCase c.buffer cmd
      match gCmds.find? fun g => g.1 = cstr buf cmd with
      | none => ⟨buf, .invalid, none, none⟩
      | some g => skvsParseArgs buf g.2 c.save

/-- `skvs_parse`. -/
def skvsParse (buf : List UInt8) (len : Nat) : Parsed :=
  if bufSize < len then ⟨buf, .invalid, none, none⟩
  else if len = bufSize then
    if buf.getD (bufSize - 1) 0 ≠ lf then ⟨buf, .invalid, none, none⟩
    else skvsParseLine (buf.set (bufSize - 1) 0)
  else
    let buf := buf.set len 0
    -- `strstr` for the line feed.
    match (cstr buf 0).findIdx? fun c => c = lf with
    | none => ⟨buf, .incomplete, none, none⟩
    | some stop => skvsParseLine (buf.set stop 0)

/-! ### Where `skvs_parse` writes

The indices of the buffer that each function writes to, in the order of the writes. -/

/-- `strtok_r` writes the terminator behind a token, unless the text ends there. -/
def strtokRWrites (buf : List UInt8) (s : Nat) : List Nat :=
  let s := s + strspn buf s
  if buf.getD s 0 = 0 then []
  else
    let stop := s + strcspn buf s
    if buf.getD stop 0 = 0 then [] else [stop]

/-- The loop that converts to upper case writes each byte of the string. -/
def upperCaseWrites (buf : List UInt8) (p : Nat) : List Nat := List.range' p (cstr buf p).length

/-- The writes of `skvsParseArgs`. -/
def skvsParseArgsWrites (buf : List UInt8) (cmd : Cmd) (save : Nat) : List Nat :=
  let k := strtokR buf save
  strtokRWrites buf save ++
    match k.token with
    | none => []
    | some key =>
        if maxKeyLen < (cstr k.buffer key).length then []
        else
          let v := strtokR k.buffer k.save
          strtokRWrites k.buffer k.save ++
            if !cmd.takesValue && v.token.isSome then []
            else if cmd.takesValue && v.token.isNone then []
            else strtokRWrites v.buffer v.save

/-- The writes of `skvsParseLine`. -/
def skvsParseLineWrites (buf : List UInt8) : List Nat :=
  let c := strtokR buf 0
  strtokRWrites buf 0 ++
    match c.token with
    | none => []
    | some cmd =>
        let upper := upperCase c.buffer cmd
        upperCaseWrites c.buffer cmd ++
          match gCmds.find? fun g => g.1 = cstr upper cmd with
          | none => []
          | some g => skvsParseArgsWrites upper g.2 c.save

/-- The writes of `skvs_parse`. -/
def skvsParseWrites (buf : List UInt8) (len : Nat) : List Nat :=
  if bufSize < len then []
  else if len = bufSize then
    if buf.getD (bufSize - 1) 0 ≠ lf then []
    else (bufSize - 1) :: skvsParseLineWrites (buf.set (bufSize - 1) 0)
  else
    let buf := buf.set len 0
    len ::
      match (cstr buf 0).findIdx? fun c => c = lf with
      | none => []
      | some stop => stop :: skvsParseLineWrites (buf.set stop 0)

/-! ### `skvs_serve` -/

/-- What `skvs_serve` returns: an error, `0` for an incomplete request, or `1` with the
string in `wbuf`, whose length is `*wlen`. -/
inductive Served where
  | error
  | incomplete
  | reply (wbuf : List UInt8)
deriving DecidableEq, Repr

/-- The text for the value `ret` of a table function. -/
def msgFor (ret : Int) (positive zero : List UInt8) : List UInt8 :=
  if 0 < ret then positive else if ret = 0 then zero else msgInternalErr

/-- The text of the reply to a command, without the line feed. -/
def replyText : MapOp CString CString → Reply CString → List UInt8
  | .insert _ _, r => msgFor r.code msgCreateOk msgCollision
  | .read _, r => msgFor r.code ((r.value.map CString.bytes).getD []) msgNotFound
  | .update _ _, r => msgFor r.code msgUpdateOk msgNotFound
  | .delete _, r => msgFor r.code msgDeleteOk msgNotFound

/-- The table function a parsed request calls. The quick flag of a read is the only
difference between `READ` and `QREAD`, and one thread alone does not see it. A `NULL` key or
value would be rejected by the table function. -/
def Parsed.op (p : Parsed) : Option (MapOp CString CString) :=
  let str := fun q => CString.ofBytes (cstr p.buffer q)
  match p.cmd, p.key, p.value with
  | .create, some key, some value => some (.insert (str key) (str value))
  | .read, some key, _ | .qread, some key, _ => some (.read (str key))
  | .update, some key, some value => some (.update (str key) (str value))
  | .delete, some key, _ => some (.delete (str key))
  | _, _, _ => none

/-- `skvs_serve`: the table and the receive buffer after it, and its result. -/
def skvsServe (t : Table) (mem : Alloc) (rbuf : List UInt8) (rlen : Nat) :
    Option (Table × List UInt8 × Served) :=
  if rlen = 0 then some (t, rbuf, .error)
  else
    let p := skvsParse rbuf rlen
    match p.cmd with
    | .incomplete => some (t, p.buffer, .incomplete)
    | .invalid => some (t, p.buffer, .reply (msgInvalid ++ [lf]))
    | _ =>
        match p.op with
        | none => some (t, p.buffer, .reply (msgInternalErr ++ [lf]))
        | some op =>
            (t.call mem op).map fun r => (r.1, p.buffer, .reply (replyText op r.2 ++ [lf]))

end SysProg.Kvs
