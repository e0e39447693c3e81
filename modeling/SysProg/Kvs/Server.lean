import SysProg.Kvs.Session
import SysProg.Kvs.SharedTable

/-!
# `SysProg.Kvs.Server`: the worker threads of the server

Every worker of `server.c` runs `handle_client`: it accepts a connection, receives bytes,
parses them, calls a function of the hash table, and sends the reply. The workers share the
table, and a table function of one worker runs interleaved with the steps of all the others, as
in `SysProg.Kvs.SharedTable`.

`Stage` says where a worker is. Each worker has a receive buffer of its own, which it keeps
from one connection to the next. The flag `g_shutdown` only ends a run early, so it is left out.
-/

set_option autoImplicit false

namespace SysProg.Kvs

open SysProg.Lib

/-- Where a worker is in `handle_client`.

* `accepting`: before or in `accept`.
* `receiving`: at `recv`.
* `serving`: in the table function of the operation `op`.
* `sending`: at `send_all`, with the string in `wbuf`. -/
inductive Stage where
  | accepting
  | receiving
  | serving (op : MapOp CString CString)
  | sending (wbuf : List UInt8)

/-- The variables of a worker. -/
structure Worker where
  rbuf : List UInt8
  off : Nat
  stage : Stage

/-- The shared table and the workers. -/
structure Server (Tid : Type) where
  shared : Shared Tid
  workers : Tid → Worker

/-- One action of a worker. The table function takes the steps `lock`, `work` and `release` of
`SharedAction`. -/
inductive ServerAction (Tid : Type) where
  | accept (t : Tid)
  | recv (t : Tid) (recv : Recv)
  | lock (t : Tid) (move : LockMove)
  | work (t : Tid) (mem : Alloc)
  | release (t : Tid)
  | send (t : Tid) (sends : List Send)

namespace Server

variable {Tid : Type}

/-- The server before the first connection, with what the stack has in the buffers. -/
def init (hashSize : UInt64) (rbufs : Tid → List UInt8) : Server Tid :=
  ⟨Shared.init Tid hashSize, fun t => ⟨rbufs t, 0, .accepting⟩⟩

variable [DecidableEq Tid]

/-- Changes one worker. -/
def setWorker (s : Server Tid) (t : Tid) (w : Worker) : Server Tid :=
  { s with workers := Function.update s.workers t w }

/-- A step of the table. -/
def table (s : Server Tid) (a : SharedAction Tid) : Option (Server Tid) :=
  (s.shared.step a).map fun r => { s with shared := r.1 }

/-- `skvs_serve` up to the call of a table function, and the rest of the loop body when there is
no such call. `off` is the number of bytes in the buffer. -/
def serve (s : Server Tid) (t : Tid) (rbuf : List UInt8) (off : Nat) : Option (Server Tid) :=
  let p := skvsParse rbuf off
  match p.cmd with
  | .incomplete =>
      some (s.setWorker t ⟨p.buffer, if bufSize ≤ off then 0 else off, .receiving⟩)
  | .invalid => some (s.setWorker t ⟨p.buffer, off, .sending (msgInvalid ++ [lf])⟩)
  | _ =>
      match p.op with
      | none => some (s.setWorker t ⟨p.buffer, off, .sending (msgInternalErr ++ [lf])⟩)
      | some op =>
          (s.setWorker t ⟨p.buffer, off, .serving op⟩).table
            (.call t ⟨op, decide (p.cmd = .qread)⟩)

/-- What a worker does with the result of `recv`. It gets at most `BUF_SIZE - off` bytes. -/
def recv (s : Server Tid) (t : Tid) : Recv → Option (Server Tid)
  | .retry => some s
  | .failed | .closed => some (s.setWorker t { s.workers t with stage := .accepting })
  | .data bytes =>
      let w := s.workers t
      if bytes = [] ∨ bufSize - w.off < bytes.length then none
      else s.serve t (receive w.rbuf w.off bytes) (w.off + bytes.length)

/-- The return of the table function, with the text that `skvs_serve` makes of it. -/
def finish (s : Server Tid) (t : Tid) (op : MapOp CString CString) : Option (Server Tid) :=
  match s.shared.pc t with
  | .unlocking _ o =>
      (s.setWorker t { s.workers t with stage := .sending (replyText op o.reply ++ [lf]) }).table
        (.release t)
  | _ => none

/-- One step. It emits what `send` takes, with the worker that sends it. -/
def step (s : Server Tid) : ServerAction Tid → Option (Server Tid × List (Tid × List UInt8))
  | .accept t =>
      match (s.workers t).stage with
      | .accepting => some (s.setWorker t ⟨(s.workers t).rbuf, 0, .receiving⟩, [])
      | _ => none
  | .recv t r =>
      match (s.workers t).stage with
      | .receiving => (s.recv t r).map fun s' => (s', [])
      | _ => none
  | .lock t move =>
      match (s.workers t).stage with
      | .serving _ => (s.table (.lock t move)).map fun s' => (s', [])
      | _ => none
  | .work t mem =>
      match (s.workers t).stage with
      | .serving _ => (s.table (.work t mem)).map fun s' => (s', [])
      | _ => none
  | .release t =>
      match (s.workers t).stage with
      | .serving op => (s.finish t op).map fun s' => (s', [])
      | _ => none
  | .send t sends =>
      match (s.workers t).stage with
      | .sending wbuf =>
          (sendAll sends wbuf).map fun r =>
            (s.setWorker t ⟨(s.workers t).rbuf, if r.2 then 0 else (s.workers t).off,
              if r.2 then .receiving else .accepting⟩, r.1.map fun chunk => (t, chunk))
      | _ => none

end Server

end SysProg.Kvs
