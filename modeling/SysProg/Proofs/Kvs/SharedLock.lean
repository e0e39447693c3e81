import SysProg.Kvs.SharedTable
import SysProg.Proofs.Kvs.RwLockExclusion

/-!
# `SysProg.Proofs.Kvs.SharedLock`: one step of a bucket lock, seen by the table

What the table needs to know about a step of a lock. A step of one thread leaves the others
where they are, or wakes them (`Others`). A thread that has called a lock function for an
access `a` stays in this access until it holds the lock (`Phase.For`), and what it then holds
is what `a` asked for (`Phase.Holds`).
-/

set_option autoImplicit false

namespace SysProg.Kvs

open SysProg.Lib

/-- The wait loop is one of the access. -/
def Wait.For (a : Access) : Wait → Prop
  | .quick => a = .read true
  | .read _ => a = .read false
  | .write _ => a = .write

/-- The thread is in the lock function of the access `a`, or holds what it asked for. -/
def Phase.For (a : Access) : Phase → Prop
  | .idle => False
  | .called b => b = a
  | .asleep w | .woken w => w.For a
  | .reading => ∃ quick, a = .read quick
  | .writing _ => a = .write

/-- The thread holds the lock in the mode the access asked for. -/
def Phase.Holds (a : Access) (p : Phase) : Prop :=
  match a with
  | .read _ => p = .reading
  | .write => ∃ k, p = .writing k

/-- The thread of an action. -/
def LockAction.tid {Tid : Type} : LockAction Tid → Tid
  | .call t _ | .enter t | .wake t | .resume t | .readUnlock t | .writeUnlock t => t

/-- A thread in a lock function that holds the lock holds what it asked for. -/
theorem Phase.For.holds {a : Access} {p : Phase} (h : p.For a)
    (hp : p = .reading ∨ ∃ k, p = .writing k) : p.Holds a := by
  cases hp with
  | inl hr =>
      subst hr
      obtain ⟨quick, rfl⟩ := h
      rfl
  | inr hw =>
      obtain ⟨k, rfl⟩ := hw
      have ha : a = .write := h
      subst ha
      exact ⟨k, rfl⟩

namespace LockState

variable {Tid : Type}

/-- Every thread but `t` is where it was, or was woken. -/
def Others (l l' : LockState Tid) (t : Tid) : Prop :=
  ∀ u, u ≠ t → l'.phase u = l.phase u ∨ l'.phase u = (l.phase u).wake

namespace Others

variable {l l' : LockState Tid} {t u : Tid}

/-- A thread without the lock is not moved by the step of another one. -/
theorem idle (h : l.Others l' t) (hu : u ≠ t) (hp : l.phase u = .idle) : l'.phase u = .idle := by
  cases h u hu with
  | inl heq => rw [heq, hp]
  | inr heq => rw [heq, hp]; rfl

/-- A thread in its access stays in it when another one takes a step. To be woken is not to leave
the access. -/
theorem phaseFor {a : Access} (h : l.Others l' t) (hu : u ≠ t) (hp : (l.phase u).For a) :
    (l'.phase u).For a := by
  cases h u hu with
  | inl heq => rwa [heq]
  | inr heq =>
      rw [heq]
      cases hq : l.phase u <;> rw [hq] at hp <;> exact hp

/-- A thread that holds the lock still holds it behind the step of another one. -/
theorem holds {a : Access} (h : l.Others l' t) (hu : u ≠ t) (hp : (l.phase u).Holds a) :
    (l'.phase u).Holds a := by
  cases h u hu with
  | inl heq => rwa [heq]
  | inr heq =>
      rw [heq]
      cases a with
      | read quick =>
          have hr : l.phase u = .reading := hp
          rw [hr]
          rfl
      | write =>
          obtain ⟨k, hk⟩ := hp
          rw [hk]
          exact ⟨k, rfl⟩

/-- Whether another thread writes does not change. Only its own steps take or release the lock. -/
theorem writing_iff (h : l.Others l' t) (hu : u ≠ t) : l'.Writing u ↔ l.Writing u := by
  unfold Writing
  cases h u hu with
  | inl heq => rw [heq]
  | inr heq => rw [heq]; simp

end Others

variable [DecidableEq Tid] {l l' : LockState Tid}

/-- The test of a wait loop moves its own thread only. -/
theorem others_waitLoop (l : LockState Tid) (t : Tid) (w : Wait) :
    l.Others (l.waitLoop t w).1 t := by
  -- A blocked thread sleeps and wakes nobody. An admitted one may broadcast.
  intro u hu
  unfold waitLoop
  split
  · simp [hu]
  · cases w <;> simp [hu]

/-- A step moves its own thread, and wakes others at most. Each function of the lock is one case. -/
theorem others_of_step {a : LockAction Tid} {es : List (LockEvent Tid)}
    (hstep : l.step a = some (l', es)) : l.Others l' a.tid := by
  -- One case for each action. Only a pass through a wait loop and an unlock can broadcast.
  cases shape_of_step hstep with
  | call hp => exact fun u hu => Or.inl (move_phase_ne _ _ _ hu)
  | enterQuick hp => exact others_waitLoop l _ _
  | enterRead hp => exact others_waitLoop { l with rw := l.rw.takeTicket } _ _
  | enterWrite hp => exact others_waitLoop { l with rw := l.rw.takeTicket } _ _
  | wake hp => exact fun u hu => Or.inl (move_phase_ne _ _ _ hu)
  | resume hp => exact others_waitLoop l _ _
  | @readUnlock t hp =>
      intro u hu
      have hne : u ≠ t := hu
      unfold rwlockReadUnlock
      simp only
      split
      · exact Or.inr (by simp [hne])
      · exact Or.inl (move_phase_ne _ _ _ hne)
  | @writeUnlock t k hp =>
      intro u hu
      have hne : u ≠ t := hu
      exact Or.inr (by simp [rwlockWriteUnlock, hne])

/-- The test of a wait loop stays in the access. The thread sleeps in the same loop, or it has the
lock in the mode it asked for. -/
theorem for_waitLoop {a : Access} {w : Wait} (l : LockState Tid) (t : Tid) (hw : w.For a) :
    ((l.waitLoop t w).1.phase t).For a := by
  unfold waitLoop
  split
  · rw [move_phase_self]
    exact hw
  · cases w with
    | quick =>
        simp only [broadcast_phase, move_phase_self]
        exact ⟨true, hw⟩
    | read k =>
        simp only [broadcast_phase, move_phase_self]
        exact ⟨false, hw⟩
    | write k =>
        simp only [move_phase_self]
        exact hw

/-- A move inside a lock function stays in the access. Before it, the thread did not hold the lock.
So the lock is taken once for each access. -/
theorem for_of_lockMove {a : Access} {t : Tid} {move : LockMove} {es : List (LockEvent Tid)}
    (hstep : l.step (move.action t) = some (l', es)) (hfor : (l.phase t).For a) :
    (l'.phase t).For a ∧ l.phase t ≠ .reading ∧ ¬ l.Writing t := by
  have hshape := shape_of_step hstep
  have hnot : ∀ {p : Phase}, l.phase t = p → p ≠ .reading → (∀ k, p ≠ .writing k) →
      l.phase t ≠ .reading ∧ ¬ l.Writing t := by
    intro p hp hr hw
    exact ⟨by rwa [hp], fun ⟨k, hk⟩ => hw k (hp ▸ hk)⟩
  -- `enter` comes from `called`, `wake` from `asleep` and `resume` from `woken`.
  cases move with
  | enter =>
      cases hshape with
      | enterQuick hp =>
          rw [hp] at hfor
          exact ⟨for_waitLoop l t (show Access.read true = a from hfor).symm,
            hnot hp (by simp) (by simp)⟩
      | enterRead hp =>
          rw [hp] at hfor
          exact ⟨for_waitLoop { l with rw := l.rw.takeTicket } t
            (show Access.read false = a from hfor).symm, hnot hp (by simp) (by simp)⟩
      | enterWrite hp =>
          rw [hp] at hfor
          exact ⟨for_waitLoop { l with rw := l.rw.takeTicket } t
            (show Access.write = a from hfor).symm, hnot hp (by simp) (by simp)⟩
  | wake =>
      cases hshape with
      | wake hp =>
          rw [hp] at hfor
          exact ⟨by rw [move_phase_self]; exact hfor, hnot hp (by simp) (by simp)⟩
  | resume =>
      cases hshape with
      | resume hp =>
          rw [hp] at hfor
          exact ⟨for_waitLoop l t hfor, hnot hp (by simp) (by simp)⟩

/-- The unlock function of an access can run when the access holds the lock, and the thread is out
of the lock afterwards. -/
theorem exists_unlock {r : Request} {t : Tid} (h : (l.phase t).Holds r.access) :
    ∃ l' es, l.step (r.unlock t) = some (l', es) ∧ l'.phase t = .idle := by
  obtain ⟨op, quick⟩ := r
  -- `r.unlock` is the read unlock for a read and the write unlock for the others.
  have hread : ∀ (_ : l.phase t = .reading),
      ∃ l' es, l.step (.readUnlock t) = some (l', es) ∧ l'.phase t = .idle := by
    intro hp
    refine ⟨(l.rwlockReadUnlock t).1, [], ?_, ?_⟩
    · simp only [step, hp]
      rfl
    · unfold rwlockReadUnlock
      simp only
      split <;> simp [Phase.wake]
  have hwrite : ∀ (_ : ∃ k, l.phase t = .writing k),
      ∃ l' es, l.step (.writeUnlock t) = some (l', es) ∧ l'.phase t = .idle := by
    intro hp
    obtain ⟨k, hk⟩ := hp
    refine ⟨(l.rwlockWriteUnlock t k).1, (l.rwlockWriteUnlock t k).2, ?_, ?_⟩
    · simp only [step, hk]
    · simp [rwlockWriteUnlock, Phase.wake]
  cases op with
  | read key => exact hread h
  | insert key value | update key value | delete key => exact hwrite h

end LockState

end SysProg.Kvs
