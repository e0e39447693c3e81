import SysProg.Kvs.Server
import SysProg.Kvs.Teardown

/-!
# `SysProg.Kvs.Main`: the server from its first worker to its end

The model of `main` in `server.c` from the loop that creates the workers on, of the two loops of
`handle_client` with their tests of `g_shutdown`, and of the handler of `SIGINT`. A session is
that of `SysProg.Kvs.Server`, so the table functions of the workers run interleaved, and the
signal comes between any two steps.

* `MainPc` says where `main` is, and `Place` where a worker is in its loops.
* `Process.step` is one step of `main`, of a worker, or the signal.
* `Event` is what is seen: calls and returns of the table functions, accepted connections, what is
  received and sent, and the dump.

`fault` is set when a worker is still in a session after `skvs_destroy`, and when `skvs_destroy`
does something undefined. The steps before the first worker, which only set things up, are left out.
-/

set_option autoImplicit false

namespace SysProg.Kvs

open SysProg.Lib

/-- Where a worker is in `handle_client`.

* `absent`: the thread was not created.
* `outer`, `inner`: at the test of `g_shutdown` of the outer and of the inner loop.
* `accepting`: in `accept`.
* `session`: in the body of the inner loop. The stage of the worker says where.
* `exited`: the thread has returned. -/
inductive Place where
  | absent
  | outer
  | accepting
  | inner
  | session
  | exited
deriving DecidableEq

/-- Where `main` is.

* `creating i`: at the head of the loop that creates the workers.
* `joining i created`: at the head of the loop that joins them.
* `closing`: before `close(listenfd)`.
* `destroying`: before `skvs_destroy`.
* `finished`: `main` has returned. -/
inductive MainPc where
  | creating (i : Nat)
  | joining (i created : Nat)
  | closing
  | destroying
  | finished
deriving DecidableEq

/-- The server with `n` threads asked for. `connected` says for which workers `connfd` is open. -/
structure Process (n : Nat) where
  shutdown : Bool
  main : MainPc
  listening : Bool
  place : Fin n → Place
  connected : Fin n → Bool
  server : Server (Fin n)
  fault : Bool

/-- What is seen of the server. -/
inductive Event (n : Nat) where
  | table (e : HistoryEvent (Fin n) Request Outcome)
  | accepted (t : Fin n)
  | received (t : Fin n) (bytes : List UInt8)
  | sent (t : Fin n) (chunk : List UInt8)
  | dumped (text : List UInt8)

/-- One action. `ok` says whether the thread was created, and whether `accept` has returned a
connection. -/
inductive ProcessAction (n : Nat) where
  | sigint
  | main (ok : Bool)
  | check (t : Fin n)
  | accept (t : Fin n) (ok : Bool)
  | serve (a : ServerAction (Fin n))

/-- The worker of an action. -/
def ServerAction.tid {Tid : Type} : ServerAction Tid → Tid
  | .accept t | .recv t _ | .lock t _ | .work t _ | .release t | .send t _ => t

/-- What a worker receives in a step. -/
def ServerAction.received {Tid : Type} : ServerAction Tid → List (Tid × List UInt8)
  | .recv t (.data bytes) => [(t, bytes)]
  | _ => []

/-- The calls and the returns of table functions in a step of a worker. -/
def Server.events {Tid : Type} (s : Server Tid) :
    ServerAction Tid → List (HistoryEvent Tid Request Outcome)
  | .recv t (.data bytes) =>
      let w := s.workers t
      let p := skvsParse (receive w.rbuf w.off bytes) (w.off + bytes.length)
      if p.cmd = .incomplete ∨ p.cmd = .invalid then []
      else
        match p.op with
        | none => []
        | some op => [.invoked t ⟨op, decide (p.cmd = .qread)⟩]
  | .release t =>
      match s.shared.pc t with
      | .unlocking _ o => [.returned t o]
      | _ => []
  | _ => []

/-- Where a worker goes on after a step in the body of the inner loop. Without a connection it has
left the loop and closed `connfd`. -/
def Stage.place : Stage → Place
  | .accepting => .outer
  | .receiving => .inner
  | .serving _ | .sending _ => .session

namespace Process

variable {n : Nat}

/-- The server behind `listen`. -/
def init (n : Nat) (hashSize : UInt64) (rbufs : Fin n → List UInt8) : Process n where
  shutdown := false
  main := .creating 0
  listening := true
  place := fun _ => .absent
  connected := fun _ => false
  server := Server.init hashSize rbufs
  fault := false

/-- Moves a worker, and opens or closes its connection. -/
def move (p : Process n) (t : Fin n) (place : Place) (connected : Bool) : Process n :=
  { p with
    place := Function.update p.place t place
    connected := Function.update p.connected t connected }

/-- A step of `main`. The loop that creates the workers ends early when a thread cannot be
created, and `pthread_join` waits for its thread. -/
def mainStep (p : Process n) (ok : Bool) : Option (Process n × List (Event n)) :=
  match p.main with
  | .creating i =>
      if h : i < n then
        if ok then some ({ p.move ⟨i, h⟩ .outer false with main := .creating (i + 1) }, [])
        else some ({ p with main := .joining 0 i }, [])
      else some ({ p with main := .joining 0 i }, [])
  | .joining i created =>
      if h : i < created ∧ i < n then
        if p.place ⟨i, h.2⟩ = .exited then some ({ p with main := .joining (i + 1) created }, [])
        else none
      else some ({ p with main := .closing }, [])
  | .closing => some ({ p with listening := false, main := .destroying }, [])
  | .destroying =>
      match skvsDestroy p.server.shared true with
      | none => some ({ p with main := .finished, fault := true }, [])
      | some (table, text) =>
          some ({ p with
            main := .finished
            server := { p.server with shared := { p.server.shared with table := table } } },
            [.dumped text])
  | .finished => none

/-- `while (!g_shutdown)`, in both loops. Behind the inner loop the worker closes `connfd`. -/
def check (p : Process n) (t : Fin n) : Option (Process n × List (Event n)) :=
  match p.place t with
  | .outer => some (p.move t (if p.shutdown then .exited else .accepting) false, [])
  | .inner =>
      if p.shutdown then
        some ({ p.move t .outer false with
          server := p.server.setWorker t { p.server.workers t with stage := .accepting } }, [])
      else some (p.move t .session true, [])
  | _ => none

/-- `accept`. Without a connection the outer loop goes around. -/
def accept (p : Process n) (t : Fin n) (ok : Bool) : Option (Process n × List (Event n)) :=
  match p.place t with
  | .accepting =>
      if ok ∧ p.listening then
        (p.server.step (.accept t)).map fun r =>
          ({ p.move t .inner true with server := r.1 }, [.accepted t])
      else some (p.move t .outer false, [])
  | _ => none

/-- A step in the body of the inner loop. -/
def serve (p : Process n) (a : ServerAction (Fin n)) : Option (Process n × List (Event n)) :=
  match p.place a.tid with
  | .session =>
      (p.server.step a).map fun r =>
        let place := (r.1.workers a.tid).stage.place
        ({ p.move a.tid place (place ≠ .outer) with
          server := r.1
          fault := p.fault || decide (p.main = .finished) },
          (a.received.map fun m => .received m.1 m.2) ++
            ((p.server.events a).map .table ++ r.2.map fun m => .sent m.1 m.2))
  | _ => none

/-- One step. -/
def step (p : Process n) : ProcessAction n → Option (Process n × List (Event n))
  | .sigint => some ({ p with shutdown := true }, [])
  | .main ok => p.mainStep ok
  | .check t => p.check t
  | .accept t ok => p.accept t ok
  | .serve a => p.serve a

end Process

/-- The calls and returns of the table functions among the events. -/
def history {n : Nat} (events : List (Event n)) : List (HistoryEvent (Fin n) Request Outcome) :=
  events.filterMap fun
    | .table e => some e
    | _ => none

/-- The dumps among the events. -/
def dumps {n : Nat} (events : List (Event n)) : List (List UInt8) :=
  events.filterMap fun
    | .dumped text => some text
    | _ => none

end SysProg.Kvs
