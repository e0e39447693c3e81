import Mathlib.Data.Fintype.Card
import SysProg.Lib.Run

/-!
# `SysProg.Kvs.RwLock`: the FIFO lock with quick reads

The model of `rwlock.c`. Every function body between `pthread_mutex_lock` and the next
`pthread_cond_wait` or `pthread_mutex_unlock` is one atomic step, because the mutex
protects it. `RwLock` holds the counters of `rwlock_t` and of its `struct uctx`, and
`Phase` says where a thread is in the lock functions.

* `Wait.blocked` is the condition of each of the three `while` loops around
  `pthread_cond_wait`, and `waitLoop` is one pass through such a loop.
* `rwlockReadLock`, `rwlockWriteLock`, `rwlockReadUnlock` and `rwlockWriteUnlock` are the
  critical sections of the four functions.
* `step` interleaves the threads. A sleeping thread may wake up without a broadcast, and a
  thread that holds the lock only releases what it holds.

`sleep(rw->delay)` in the unlock functions changes no shared state: a thread that sleeps
there still holds the lock. The `NULL` checks return before the mutex is taken.
-/

set_option autoImplicit false

namespace SysProg.Kvs

/-- The counters of `rwlock_t` and of `struct uctx`. -/
structure RwLock where
  currentReaders : UInt32
  currentWriters : UInt32
  nextTicket : UInt64
  nowServing : UInt64
deriving DecidableEq, Repr

/-- `rwlock_init`: nobody holds the lock and no ticket is out. -/
def rwlockInit : RwLock := ⟨0, 0, 0, 0⟩

namespace RwLock

/-- `u->next_ticket++`. -/
def takeTicket (rw : RwLock) : RwLock := { rw with nextTicket := rw.nextTicket + 1 }

/-- A quick read is admitted. -/
def admitQuick (rw : RwLock) : RwLock := { rw with currentReaders := rw.currentReaders + 1 }

/-- A ticket read is admitted and hands the turn to the next access. -/
def admitRead (rw : RwLock) : RwLock :=
  { rw with currentReaders := rw.currentReaders + 1, nowServing := rw.nowServing + 1 }

/-- A writer is admitted. It keeps `now_serving` on its own ticket. -/
def admitWrite (rw : RwLock) : RwLock := { rw with currentWriters := rw.currentWriters + 1 }

/-- The counters after `rwlock_read_unlock`. -/
def readUnlock (rw : RwLock) : RwLock :=
  { rw with
    currentReaders :=
      if 0 < rw.currentReaders then rw.currentReaders - 1 else rw.currentReaders }

/-- The counters after `rwlock_write_unlock`, which releases the turn as well. -/
def writeUnlock (rw : RwLock) : RwLock :=
  { rw with
    currentWriters :=
      if 0 < rw.currentWriters then rw.currentWriters - 1 else rw.currentWriters
    nowServing := rw.nowServing + 1 }

end RwLock

/-- The lock functions a thread can call: `rwlock_read_lock` with its `quick` argument,
and `rwlock_write_lock`. -/
inductive Access where
  | read (quick : Bool)
  | write
deriving DecidableEq, Repr

/-- Which of the three wait loops a thread is in, with the ticket it took before. -/
inductive Wait where
  | quick
  | read (ticket : UInt64)
  | write (ticket : UInt64)
deriving DecidableEq, Repr

/-- The loop condition: the thread waits while it is `true`. -/
def Wait.blocked (rw : RwLock) : Wait → Bool
  | .quick => decide (0 < rw.currentWriters)
  | .read ticket => decide (rw.nowServing ≠ ticket)
  | .write ticket =>
      decide (rw.nowServing ≠ ticket) || decide (0 < rw.currentReaders)
        || decide (0 < rw.currentWriters)

/-- Where a thread is. `called` is inside a lock function before the mutex is taken.
`asleep` is in `pthread_cond_wait`, and `woken` has left it and must take the mutex again.
`reading` and `writing` hold the lock until the unlock function has taken the mutex. -/
inductive Phase where
  | idle
  | called (a : Access)
  | asleep (w : Wait)
  | woken (w : Wait)
  | reading
  | writing (ticket : UInt64)
deriving DecidableEq, Repr

/-- What a broadcast does to one thread. -/
def Phase.wake : Phase → Phase
  | .asleep w => .woken w
  | p => p

/-- The phase of an active writer. -/
def Phase.isWriting : Phase → Bool
  | .writing _ => true
  | _ => false

/-- What a critical section did: it took a ticket, it granted the lock, or it moved
`now_serving` past a ticket. -/
inductive LockEvent (Tid : Type) where
  | took (t : Tid) (w : Wait)
  | admitted (t : Tid) (w : Wait)
  | advanced (t : Tid) (w : Wait)
deriving DecidableEq, Repr

/-- The lock and the place of every thread. -/
structure LockState (Tid : Type) where
  rw : RwLock
  phase : Tid → Phase

/-- One action: which thread moves, and what it does. `call` enters a lock function,
`enter` takes the mutex for the first time, `wake` is a spurious wake-up, and `resume`
takes the mutex again after a wait. -/
inductive LockAction (Tid : Type) where
  | call (t : Tid) (a : Access)
  | enter (t : Tid)
  | wake (t : Tid)
  | resume (t : Tid)
  | readUnlock (t : Tid)
  | writeUnlock (t : Tid)
deriving DecidableEq, Repr

namespace LockState

variable {Tid : Type}

/-- The state after `rwlock_init`. -/
def init (Tid : Type) : LockState Tid := ⟨rwlockInit, fun _ => .idle⟩

/-- `pthread_cond_broadcast`: every sleeping thread wakes up. -/
def broadcast (s : LockState Tid) : LockState Tid :=
  { s with phase := fun t => (s.phase t).wake }

variable [DecidableEq Tid]

/-- New counters, and a new place of one thread. -/
def move (s : LockState Tid) (rw : RwLock) (t : Tid) (p : Phase) : LockState Tid :=
  ⟨rw, Function.update s.phase t p⟩

/-- One pass through a wait loop. Either the thread goes to sleep, or it leaves the loop
and the rest of the lock function runs. A read wakes the others, a writer wakes nobody. -/
def waitLoop (s : LockState Tid) (t : Tid) (w : Wait) : LockState Tid × List (LockEvent Tid) :=
  if w.blocked s.rw then (s.move s.rw t (.asleep w), [])
  else
    match w with
    | .quick => ((s.move s.rw.admitQuick t .reading).broadcast, [.admitted t w])
    | .read _ =>
        ((s.move s.rw.admitRead t .reading).broadcast, [.admitted t w, .advanced t w])
    | .write ticket => (s.move s.rw.admitWrite t (.writing ticket), [.admitted t w])

/-- A non-quick access takes the ticket `next_ticket` and enters its wait loop `w`. -/
def takeTicket (s : LockState Tid) (t : Tid) (w : Wait) :
    LockState Tid × List (LockEvent Tid) :=
  let r := waitLoop { s with rw := s.rw.takeTicket } t w
  (r.1, .took t w :: r.2)

/-- `rwlock_read_lock` from the mutex on. A quick read takes no ticket. -/
def rwlockReadLock (s : LockState Tid) (t : Tid) (quick : Bool) :
    LockState Tid × List (LockEvent Tid) :=
  if quick then s.waitLoop t .quick else s.takeTicket t (.read s.rw.nextTicket)

/-- `rwlock_write_lock` from the mutex on. -/
def rwlockWriteLock (s : LockState Tid) (t : Tid) : LockState Tid × List (LockEvent Tid) :=
  s.takeTicket t (.write s.rw.nextTicket)

/-- `rwlock_read_unlock`. Only the last reader to leave wakes the others. -/
def rwlockReadUnlock (s : LockState Tid) (t : Tid) : LockState Tid × List (LockEvent Tid) :=
  let s' := s.move s.rw.readUnlock t .idle
  (if s'.rw.currentReaders = 0 then s'.broadcast else s', [])

/-- `rwlock_write_unlock` by the writer that was admitted with `ticket`. -/
def rwlockWriteUnlock (s : LockState Tid) (t : Tid) (ticket : UInt64) :
    LockState Tid × List (LockEvent Tid) :=
  ((s.move s.rw.writeUnlock t .idle).broadcast, [.advanced t (.write ticket)])

/-- One step of one thread, when the thread is at the right place for it. -/
def step (s : LockState Tid) : LockAction Tid → Option (LockState Tid × List (LockEvent Tid))
  | .call t a =>
      match s.phase t with
      | .idle => some (s.move s.rw t (.called a), [])
      | _ => none
  | .enter t =>
      match s.phase t with
      | .called (.read quick) => some (s.rwlockReadLock t quick)
      | .called .write => some (s.rwlockWriteLock t)
      | _ => none
  | .wake t =>
      match s.phase t with
      | .asleep w => some (s.move s.rw t (.woken w), [])
      | _ => none
  | .resume t =>
      match s.phase t with
      | .woken w => some (s.waitLoop t w)
      | _ => none
  | .readUnlock t =>
      match s.phase t with
      | .reading => some (s.rwlockReadUnlock t)
      | _ => none
  | .writeUnlock t =>
      match s.phase t with
      | .writing ticket => some (s.rwlockWriteUnlock t ticket)
      | _ => none

/-! ### Observations -/

/-- How many threads hold the read lock. -/
def readers [Fintype Tid] (s : LockState Tid) : Nat :=
  (Finset.univ.filter fun t => s.phase t = .reading).card

/-- The thread holds the write lock. -/
def Writing (s : LockState Tid) (t : Tid) : Prop := ∃ ticket, s.phase t = .writing ticket

omit [DecidableEq Tid] in
/-- The phases of the threads that hold the write lock. -/
theorem isWriting_iff (s : LockState Tid) (t : Tid) :
    (s.phase t).isWriting = true ↔ s.Writing t := by
  unfold Writing
  cases s.phase t <;> simp [Phase.isWriting]

instance (s : LockState Tid) (t : Tid) : Decidable (s.Writing t) :=
  decidable_of_iff _ (s.isWriting_iff t)

end LockState

/-- The ticket access a thread stands for in the FIFO queue: a non-quick access that waits,
or the active writer, whose ticket stays the one being served. -/
def Phase.owned : Phase → Option Wait
  | .asleep (.read k) | .woken (.read k) => some (.read k)
  | .asleep (.write k) | .woken (.write k) | .writing k => some (.write k)
  | _ => none

/-- The wait loop a thread is in, asleep or woken. -/
def Phase.waiting : Phase → Option Wait
  | .asleep w | .woken w => some w
  | _ => none

/-- The ticket of a ticket access. -/
def Wait.ticket : Wait → UInt64
  | .quick => 0
  | .read k | .write k => k

/-- The ticket accesses that took a ticket, in the order of their tickets. -/
def ticketsTaken {Tid : Type} (log : List (LockEvent Tid)) : List (Tid × Wait) :=
  log.filterMap fun
    | .took t w => some (t, w)
    | _ => none

/-- The ticket accesses that were granted the lock, in the order of the grants. -/
def ticketsAdmitted {Tid : Type} (log : List (LockEvent Tid)) : List (Tid × Wait) :=
  log.filterMap fun
    | .admitted _ .quick => none
    | .admitted t w => some (t, w)
    | _ => none

/-- The ticket accesses that moved `now_serving` on, in the order in which they did. -/
def ticketsPassed {Tid : Type} (log : List (LockEvent Tid)) : List (Tid × Wait) :=
  log.filterMap fun
    | .advanced t w => some (t, w)
    | _ => none

/-- How many tickets are out: handed out and not yet passed by `now_serving`. -/
def LockState.outstanding {Tid : Type} [Fintype Tid] (s : LockState Tid) : Nat :=
  (Finset.univ.filter fun t => (s.phase t).owned.isSome).card

end SysProg.Kvs
