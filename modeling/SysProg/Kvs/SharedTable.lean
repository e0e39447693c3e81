import SysProg.Lib.History
import SysProg.Kvs.HashTable
import SysProg.Kvs.RwLock

/-!
# `SysProg.Kvs.SharedTable`: the hash table under its bucket locks

The threads of the server share one table. Each bucket has its own `rwlock_t`, and a thread
accesses a chain only between the lock and the unlock function of the bucket. `Pc` says
where a thread is in `hash_insert`, `hash_read`, `hash_update` or `hash_delete`, and
`Shared.step` interleaves

* the steps of the lock functions (`SysProg.Kvs.RwLock`),
* one step of the loop over the chain, or one access that changes the table (`work`),
* the release of the lock with the return of the operation.

The accesses use the operations on `Table` that the sequential functions are made of. An
access to a dead node leads to `Pc.fault`.
-/

set_option autoImplicit false

namespace SysProg.Kvs

open SysProg.Lib

/-- An operation a client asks for. `quick` is the argument of `hash_read`. -/
structure Request where
  op : MapOp CString CString
  quick : Bool
deriving DecidableEq

namespace Request

/-- The lock function that a request calls. -/
def access (r : Request) : Access :=
  match r.op with
  | .read _ => .read r.quick
  | _ => .write

/-- The unlock function that a request calls. -/
def unlock {Tid : Type} (r : Request) (t : Tid) : LockAction Tid :=
  match r.op with
  | .read _ => .readUnlock t
  | _ => .writeUnlock t

end Request

/-- What an operation returns, and whether the allocations it made have succeeded. -/
structure Outcome where
  reply : Reply CString
  allocated : Bool
deriving DecidableEq

/-- Where a thread is in one of the four functions.

* `locking`: in the lock function, or just behind it.
* `walk`: in the loop over the chain, with the variables `prev` and `node`.
* `found`: at a node whose key matched.
* `build`: `hash_insert` after the loop.
* `publish`: `hash_insert` with the node that it built.
* `unlinked`: `hash_delete` with the node that it took out of the chain.
* `unlocking`: about to release the lock and to return. -/
inductive Pc where
  | idle
  | locking (r : Request)
  | walk (r : Request) (prev node : Ptr)
  | found (r : Request) (prev node : Ptr)
  | build (r : Request)
  | publish (r : Request) (p : Ptr)
  | unlinked (r : Request) (p : Ptr)
  | unlocking (r : Request) (o : Outcome)
  | fault
deriving DecidableEq

/-- The table, the lock of each bucket, and the place of each thread. -/
structure Shared (Tid : Type) where
  table : Table
  locks : Int → LockState Tid
  pc : Tid → Pc

/-- The three moves of a thread inside a lock function. -/
inductive LockMove where
  | enter
  | wake
  | resume
deriving DecidableEq

/-- The action of the lock for such a move. -/
def LockMove.action {Tid : Type} (t : Tid) : LockMove → LockAction Tid
  | .enter => .enter t
  | .wake => .wake t
  | .resume => .resume t

/-- One action of a thread. `mem` holds the allocator's answers, for the steps that
allocate. -/
inductive SharedAction (Tid : Type) where
  | call (t : Tid) (r : Request)
  | lock (t : Tid) (move : LockMove)
  | work (t : Tid) (mem : Alloc)
  | release (t : Tid)

namespace Shared

variable {Tid : Type}

/-- The table after `hash_init`, with no operation in progress. -/
def init (Tid : Type) (hashSize : UInt64) : Shared Tid :=
  ⟨hashInit hashSize, fun _ => LockState.init Tid, fun _ => .idle⟩

/-- The bucket of a request. -/
def index (s : Shared Tid) (r : Request) : Int := s.table.index r.op.key

variable [DecidableEq Tid]

/-- The thread holds the lock of bucket `i`, for reading or for writing. -/
def Holding (s : Shared Tid) (i : Int) (t : Tid) : Prop :=
  (s.locks i).phase t = .reading ∨ (s.locks i).Writing t

instance (s : Shared Tid) (i : Int) (t : Tid) : Decidable (s.Holding i t) :=
  inferInstanceAs (Decidable (_ ∨ _))

/-- The next access of a thread to the table: the table after it, and where the thread is
then. The bucket is `idx`. -/
def access (table : Table) (idx : Int) (mem : Alloc) : Pc → Option (Table × Pc)
  | .walk r prev node =>
      if node = 0 then
        match r.op with
        | .insert _ _ => some (table, .build r)
        | _ => some (table, .unlocking r ⟨⟨0, none⟩, true⟩)
      else
        match table.nodes node with
        | none => some (table, .fault)
        | some n =>
            if n.key = r.op.key then some (table, .found r prev node)
            else some (table, .walk r node n.next)
  | .found r prev node =>
      match table.nodes node with
      | none => some (table, .fault)
      | some n =>
          match r.op with
          | .insert _ _ => some (table, .unlocking r ⟨⟨0, none⟩, true⟩)
          | .read _ => some (table, .unlocking r ⟨⟨1, some n.value⟩, true⟩)
          | .update _ value =>
              if mem.value then
                some (table.setNode node { n with value := value },
                  .unlocking r ⟨⟨1, none⟩, true⟩)
              else some (table, .unlocking r ⟨⟨-1, none⟩, false⟩)
          | .delete _ =>
              match table.unlink idx ⟨prev, node, n⟩ with
              | none => some (table, .fault)
              | some table' => some (table', .unlinked r node)
  | .build r =>
      match r.op with
      | .insert key value =>
          if mem.succeeds r.op then
            some (table.setNode mem.node ⟨key, value, table.buckets idx⟩, .publish r mem.node)
          else some (table, .unlocking r ⟨⟨-1, none⟩, false⟩)
      | _ => none
  | .publish r p => some (table.publish idx p, .unlocking r ⟨⟨1, none⟩, true⟩)
  | .unlinked r p => some (table.freeNode p, .unlocking r ⟨⟨1, none⟩, true⟩)
  | _ => none

/-- A step of the lock of the bucket of `r`. -/
def lockStep (s : Shared Tid) (r : Request) (a : LockAction Tid) : Option (Shared Tid) :=
  ((s.locks (s.index r)).step a).map fun l =>
    { s with locks := Function.update s.locks (s.index r) l.1 }

/-- Moves one thread. -/
def setPc (s : Shared Tid) (t : Tid) (pc : Pc) : Shared Tid :=
  { s with pc := Function.update s.pc t pc }

/-- The thread `t` enters the loop when its lock function has returned, and otherwise does
its next access. -/
def work (s : Shared Tid) (t : Tid) (mem : Alloc) : Option (Shared Tid) :=
  match s.pc t with
  | .locking r =>
      if s.Holding (s.index r) t then
        some (s.setPc t (.walk r 0 (s.table.buckets (s.index r))))
      else none
  | .walk r _ _ | .found r _ _ | .build r | .publish r _ | .unlinked r _ =>
      (access s.table (s.index r) mem (s.pc t)).map fun a =>
        { s.setPc t a.2 with table := a.1 }
  | _ => none

/-- One step. A `work` step is not enabled when the allocator would hand out the address of a
live node. -/
def step (s : Shared Tid) :
    SharedAction Tid → Option (Shared Tid × List (HistoryEvent Tid Request Outcome))
  | .call t r =>
      match s.pc t with
      | .idle =>
          (s.lockStep r (.call t r.access)).map fun s' =>
            (s'.setPc t (.locking r), [.invoked t r])
      | _ => none
  | .lock t move =>
      match s.pc t with
      | .locking r => (s.lockStep r (move.action t)).map fun s' => (s', [])
      | _ => none
  | .work t mem =>
      if (s.table.nodes mem.node).isSome then none
      else (s.work t mem).map fun s' => (s', [])
  | .release t =>
      match s.pc t with
      | .unlocking r o =>
          (s.lockStep r (r.unlock t)).map fun s' => (s'.setPc t .idle, [.returned t o])
      | _ => none

end Shared

/-- The request a thread is working on. -/
def Pc.request : Pc → Option Request
  | .idle | .fault => none
  | .locking r | .walk r _ _ | .found r _ _ | .build r | .publish r _ | .unlinked r _
  | .unlocking r _ => some r

/-- The sequential meaning of a request: one operation on the map, with memory available or
not. -/
def Request.Spec (m : CString → Option CString) (r : Request) (m' : CString → Option CString)
    (o : Outcome) : Prop :=
  r.op.apply m o.allocated = (m', o.reply)

end SysProg.Kvs
