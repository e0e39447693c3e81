import SysProg.Lib.Run
import SysProg.Kvs.Protocol

/-!
# `SysProg.Kvs.Session`: the session loop of the server

The model of `send_all` and of the inner loop of `handle_client` in `server.c`. One step is
one iteration of the loop. What the network and the allocator do during it is its input:

* `Recv` is the result of `recv`,
* `Send` is the result of one call of `send`,
* `Alloc` has the answers of the allocator.

A step emits what `send` has taken, one chunk a call. The flag `g_shutdown` only ends a run
early, and every prefix of a run is a run, so it is left out.
-/

set_option autoImplicit false

namespace SysProg.Kvs

/-- What `recv` returns. `retry` stands for `EINTR`, `EAGAIN` and `EWOULDBLOCK`, and `failed`
for every other error. -/
inductive Recv where
  | data (bytes : List UInt8)
  | retry
  | closed
  | failed
deriving DecidableEq, Repr

/-- What one call of `send` returns. It may take less than it was given. -/
inductive Send where
  | sent (n : Nat)
  | retry
  | failed
deriving DecidableEq, Repr

/-- `send_all`, with the results of its calls of `send`. The answer is what each call took,
and whether all of the buffer was sent. It is `none` while the loop needs more calls, and
when a call takes more than it was given. -/
def sendAll : List Send → List UInt8 → Option (List (List UInt8) × Bool)
  | _, [] => some ([], true)
  | [], _ :: _ => none
  | .sent n :: sends, buf =>
      if n ≤ buf.length then
        (sendAll sends (buf.drop n)).map fun r => (buf.take n :: r.1, r.2)
      else none
  | .retry :: sends, buf => sendAll sends buf
  | .failed :: _, _ => some ([], false)

/-- What the environment does during one iteration of the loop. -/
structure Input where
  recv : Recv
  mem : Alloc
  sends : List Send

/-- A connection: the receive buffer, `off`, and whether the loop still runs. -/
structure Session where
  rbuf : List UInt8
  off : Nat
  isOpen : Bool

/-- A connection that was just accepted. The buffer holds what the last one left there. -/
def Session.accept (rbuf : List UInt8) : Session := ⟨rbuf, 0, true⟩

/-- `recv` writes into the buffer at `off`. -/
def receive (rbuf : List UInt8) (off : Nat) (bytes : List UInt8) : List UInt8 :=
  rbuf.take off ++ bytes ++ rbuf.drop (off + bytes.length)

/-- The loop body behind `skvs_serve`, by its result. A full buffer without a complete
request is dropped. -/
def respond (sends : List Send) (off : Nat) :
    Table × List UInt8 × Served → Option (Table × Session × List (List UInt8))
  | (t, rbuf, .error) => some (t, ⟨rbuf, off, false⟩, [])
  | (t, rbuf, .incomplete) => some (t, ⟨rbuf, if bufSize ≤ off then 0 else off, true⟩, [])
  | (t, rbuf, .reply wbuf) =>
      (sendAll sends wbuf).map fun r =>
        if r.2 then (t, ⟨rbuf, 0, true⟩, r.1) else (t, ⟨rbuf, off, false⟩, r.1)

/-- One iteration of the session loop. `recv` returns at most what it was asked for, and
`calloc` does not hand out the address of a live node. -/
def handleClient (t : Table) (s : Session) (i : Input) :
    Option (Table × Session × List (List UInt8)) :=
  if !s.isOpen then none
  else
    match i.recv with
    | .retry => some (t, s, [])
    | .failed => some (t, { s with isOpen := false }, [])
    | .closed => some (t, { s with isOpen := false }, [])
    | .data bytes =>
        if bytes = [] ∨ bufSize - s.off < bytes.length ∨ (t.nodes i.mem.node).isSome then none
        else
          let off := s.off + bytes.length
          (skvsServe t i.mem (receive s.rbuf s.off bytes) off).bind (respond i.sends off)

/-- The session loop of one client on the table it is served from. -/
def sessionStep (st : Table × Session) (i : Input) :
    Option ((Table × Session) × List (List UInt8)) :=
  (handleClient st.1 st.2 i).map fun r => ((r.1, r.2.1), r.2.2)

end SysProg.Kvs
