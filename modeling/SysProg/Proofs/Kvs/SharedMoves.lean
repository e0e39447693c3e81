import SysProg.Proofs.Kvs.RwLockWake
import SysProg.Proofs.Kvs.SharedStep

/-!
# `SysProg.Proofs.Kvs.SharedMoves`: what one step of the table is

The inversion lemmas of `Shared.step`, guards included. `Shared.step_call`, `step_lock`,
`step_work` and `step_release` are the four kinds of steps. Two facts about all of them follow: the
number of buckets stays, and a lock moves by its own steps only. So what holds along the steps of
one lock holds of all of them.
-/

set_option autoImplicit false

namespace SysProg.Kvs

open SysProg.Lib

/-- An access keeps the number of buckets. -/
theorem hashSize_of_access {t t' : Table} {idx : Int} {mem : Alloc} {pc pc' : Pc}
    (hacc : Shared.access t idx mem pc = some (t', pc')) : t'.hashSize = t.hashSize := by
  have hunlink : ∀ {f : Found} {t' : Table}, t.unlink idx f = some t' →
      t'.hashSize = t.hashSize := by
    intro f t' hcut
    unfold Table.unlink at hcut
    repeat' split at hcut
    all_goals first
      | (cases hcut; done)
      | (cases hcut; rfl)
  unfold Shared.access at hacc
  repeat' split at hacc
  all_goals first
    | (cases hacc; done)
    | (cases hacc; rfl)
    | (cases hacc; exact hunlink (by assumption))

namespace Shared

variable {Tid : Type} [DecidableEq Tid] {s s' : Shared Tid} {t : Tid} {r : Request}
  {es : List (HistoryEvent Tid Request Outcome)}

/-- The lock of one bucket has moved. -/
def setLock (s : Shared Tid) (i : Int) (l : LockState Tid) : Shared Tid :=
  { s with locks := Function.update s.locks i l }

/-- A step of the lock of a request changes this lock and nothing else. -/
theorem lockStep_eq_some {a : LockAction Tid} :
    s.lockStep r a = some s' ↔
      ∃ l les, (s.locks (s.index r)).step a = some (l, les) ∧ s' = s.setLock (s.index r) l := by
  unfold lockStep
  rw [Option.map_eq_some_iff]
  constructor
  · rintro ⟨⟨l, les⟩, hstep, rfl⟩
    exact ⟨l, les, hstep, rfl⟩
  · rintro ⟨l, les, hstep, rfl⟩
    exact ⟨(l, les), hstep, rfl⟩

/-- A call starts with the lock function. The thread was idle, and the call is logged. -/
theorem step_call (hstep : s.step (.call t r) = some (s', es)) :
    s.pc t = .idle ∧ es = [.invoked t r] ∧
      ∃ l les, (s.locks (s.index r)).step (.call t r.access) = some (l, les) ∧
        s' = (s.setLock (s.index r) l).setPc t (.locking r) := by
  simp only [step] at hstep
  split at hstep
  · rename_i hpc
    obtain ⟨s₁, hlock, heq⟩ := Option.map_eq_some_iff.mp hstep
    obtain ⟨l, les, hl, rfl⟩ := lockStep_eq_some.mp hlock
    cases heq
    exact ⟨hpc, rfl, l, les, hl, rfl⟩
  · cases hstep

/-- A move inside of the lock function logs nothing, and the thread stays in front of its access. -/
theorem step_lock {move : LockMove} (hstep : s.step (.lock t move) = some (s', es)) :
    es = [] ∧ ∃ r l les, s.pc t = .locking r ∧
      (s.locks (s.index r)).step (move.action t) = some (l, les) ∧
      s' = s.setLock (s.index r) l := by
  simp only [step] at hstep
  split at hstep
  · rename_i r hpc
    obtain ⟨hlock, rfl⟩ := silent_eq_some hstep
    obtain ⟨l, les, hl, rfl⟩ := lockStep_eq_some.mp hlock
    exact ⟨rfl, r, l, les, hpc, hl, rfl⟩
  · cases hstep

/-- A return unlocks and logs the outcome. The thread is idle behind it. -/
theorem step_release (hstep : s.step (.release t) = some (s', es)) :
    ∃ r o l les, s.pc t = .unlocking r o ∧ es = [.returned t o] ∧
      (s.locks (s.index r)).step (r.unlock t) = some (l, les) ∧
      s' = (s.setLock (s.index r) l).setPc t .idle := by
  simp only [step] at hstep
  split at hstep
  · rename_i r o hpc
    obtain ⟨s₁, hlock, heq⟩ := Option.map_eq_some_iff.mp hstep
    obtain ⟨l, les, hl, rfl⟩ := lockStep_eq_some.mp hlock
    cases heq
    exact ⟨r, o, l, les, hpc, rfl, hl, rfl⟩
  · cases hstep

/-- A step of a thread in the chain enters the loop, or is one access. -/
theorem step_work {mem : Alloc} (hstep : s.step (.work t mem) = some (s', es)) :
    es = [] ∧ mem.Fits s.table ∧
      ((∃ r, s.pc t = .locking r ∧ s.Holding (s.index r) t ∧
          s' = s.setPc t (.walk r 0 (s.table.buckets (s.index r)))) ∨
        ∃ r table pc, (s.pc t).working = some r ∧
          access s.table (s.index r) mem (s.pc t) = some (table, pc) ∧
          s' = { s.setPc t pc with table := table }) := by
  simp only [step] at hstep
  split at hstep
  · cases hstep
  · rename_i hfit
    obtain ⟨hwork, rfl⟩ := silent_eq_some hstep
    have hfits : mem.Fits s.table := by
      rw [Bool.not_eq_true, Option.isSome_eq_false_iff, Option.isNone_iff_eq_none] at hfit
      exact hfit
    refine ⟨rfl, hfits, ?_⟩
    have haccess : ∀ r, (s.pc t).working = some r →
        ((access s.table (s.index r) mem (s.pc t)).map fun a =>
          { s.setPc t a.2 with table := a.1 }) = some s' →
        ∃ r table pc, (s.pc t).working = some r ∧
          access s.table (s.index r) mem (s.pc t) = some (table, pc) ∧
          s' = { s.setPc t pc with table := table } := by
      intro r hr hmap
      obtain ⟨⟨table, pc⟩, hacc, rfl⟩ := Option.map_eq_some_iff.mp hmap
      exact ⟨r, table, pc, hr, hacc, rfl⟩
    unfold Shared.work at hwork
    split at hwork
    case h_1 r hpc =>
      split at hwork
      case isTrue hheld =>
        cases hwork
        exact Or.inl ⟨r, hpc, hheld, rfl⟩
      case isFalse => cases hwork
    case h_2 r _ _ hpc => exact Or.inr (haccess r (by rw [hpc]; rfl) hwork)
    case h_3 r _ _ hpc => exact Or.inr (haccess r (by rw [hpc]; rfl) hwork)
    case h_4 r hpc => exact Or.inr (haccess r (by rw [hpc]; rfl) hwork)
    case h_5 r _ hpc => exact Or.inr (haccess r (by rw [hpc]; rfl) hwork)
    case h_6 r _ hpc => exact Or.inr (haccess r (by rw [hpc]; rfl) hwork)
    case h_7 => cases hwork

/-- A thread in the chain keeps its request. -/
theorem request_of_work {mem : Alloc} (hstep : s.step (.work t mem) = some (s', es))
    (hfault : s'.pc t ≠ .fault) : (s'.pc t).request = (s.pc t).request := by
  obtain ⟨-, -, ⟨r, hpc, -, rfl⟩ | ⟨r, table, pc, -, hacc, rfl⟩⟩ := step_work hstep
  · rw [setPc_pc_self, hpc]
    rfl
  · have hself : ({ s.setPc t pc with table := table } : Shared Tid).pc t = pc :=
      setPc_pc_self _ _ _
    rw [hself] at hfault ⊢
    exact (SharedInv.request_of_access hacc).resolve_right hfault

/-- No step changes the number of buckets. -/
theorem hashSize_of_step {a : SharedAction Tid} (hstep : s.step a = some (s', es)) :
    s'.table.hashSize = s.table.hashSize := by
  cases a with
  | call t r =>
      obtain ⟨-, -, l, les, -, rfl⟩ := step_call hstep
      rfl
  | lock t move =>
      obtain ⟨-, r, l, les, -, -, rfl⟩ := step_lock hstep
      rfl
  | release t =>
      obtain ⟨r, o, l, les, -, -, -, rfl⟩ := step_release hstep
      rfl
  | work t mem =>
      obtain ⟨-, -, ⟨r, -, -, rfl⟩ | ⟨r, table, pc, -, hacc, rfl⟩⟩ := step_work hstep
      · rfl
      · exact hashSize_of_access hacc

/-- A lock moves by its own steps. A step of a thread at another lock, and an access to the table,
leave it as it is. -/
theorem lock_of_step {a : SharedAction Tid} (hstep : s.step a = some (s', es)) (i : Int) :
    s'.locks i = s.locks i ∨ ∃ la les, (s.locks i).step la = some (s'.locks i, les) := by
  have hset : ∀ {j : Int} {la : LockAction Tid} {l : LockState Tid} {les : List (LockEvent Tid)},
      (s.locks j).step la = some (l, les) →
      (s.setLock j l).locks i = s.locks i ∨
        ∃ la les, (s.locks i).step la = some ((s.setLock j l).locks i, les) := by
    intro j la l les hl
    by_cases hij : i = j
    · subst hij
      have hself : (s.setLock i l).locks i = l := Function.update_self _ _ _
      exact Or.inr ⟨la, les, by rw [hself]; exact hl⟩
    · exact Or.inl (Function.update_of_ne hij _ _)
  cases a with
  | call t r =>
      obtain ⟨-, -, l, les, hl, rfl⟩ := step_call hstep
      exact hset hl
  | lock t move =>
      obtain ⟨-, r, l, les, -, hl, rfl⟩ := step_lock hstep
      exact hset hl
  | release t =>
      obtain ⟨r, o, l, les, -, -, hl, rfl⟩ := step_release hstep
      exact hset hl
  | work t mem =>
      obtain ⟨-, -, ⟨r, -, -, rfl⟩ | ⟨r, table, pc, -, -, rfl⟩⟩ := step_work hstep
      · exact Or.inl rfl
      · exact Or.inl rfl

/-- No sleeping thread is forgotten, in any bucket. -/
theorem asleepBlocked_step {a : SharedAction Tid} (h : ∀ i, AsleepBlocked (s.locks i))
    (hstep : s.step a = some (s', es)) (i : Int) : AsleepBlocked (s'.locks i) := by
  rcases lock_of_step hstep i with hsame | ⟨la, les, hl⟩
  · rw [hsame]
    exact h i
  · exact (h i).step hl

end Shared

end SysProg.Kvs
