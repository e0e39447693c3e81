import Mathlib.Data.Prod.Lex
import SysProg.Lib.Progress
import SysProg.Proofs.Kvs.SharedLinear
import SysProg.Proofs.Kvs.SharedMoves

/-!
# `SysProg.Proofs.Kvs.SharedProgress`: the operations of the table come to their returns

When no thread calls anything any more, the operations that are open come to an end, in every
order of the steps. This takes two things.

* `SharedInv.exists_onward`: the table is never stuck. A thread sleeps in a lock only while another
  thread is awake in it (`LockInv.exists_awake`).
* `Shared.Rank`: every step lowers a rank. Most steps bring a thread closer to its return
  (`Shared.remaining`). A step of the loop over a chain leaves fewer nodes ahead, and a thread that
  goes back to sleep leaves fewer woken ones.

A wake-up without a broadcast raises the rank. So the result is about runs without them, from any
state that is reached with them.
-/

set_option autoImplicit false

namespace SysProg.Kvs

open SysProg.Lib

/-- A step on the way to the return: no call, and no wake-up without a broadcast. -/
def SharedAction.Onward {Tid : Type} : SharedAction Tid → Prop
  | .call _ _ | .lock _ .wake => False
  | _ => True

/-- The thread of an action. -/
def SharedAction.tid {Tid : Type} : SharedAction Tid → Tid
  | .call t _ | .lock t _ | .work t _ | .release t => t

/-! ### The table is never stuck -/

section
variable {Tid : Type} [Fintype Tid]

/-- While a thread sleeps in a lock, another one is awake in it. If all of them slept, the one whose
turn it is would sleep without a reason to. -/
theorem LockInv.exists_awake {l : LockState Tid} {q : List (Tid × Wait)} (h : LockInv l q)
    (hasleep : AsleepBlocked l) {t : Tid} {w : Wait} (ht : l.phase t = .asleep w) :
    ∃ u, l.phase u ≠ .idle ∧ ∀ v, l.phase u ≠ .asleep v := by
  by_contra hnone
  have hall : ∀ u p, l.phase u = p → p ≠ .idle → ∃ v, p = .asleep v := by
    intro u p hp hidle
    by_contra hawake
    subst hp
    exact hnone ⟨u, hidle, fun v hv => hawake ⟨v, hv⟩⟩
  -- Nobody holds the lock.
  have hwriters : l.rw.currentWriters = 0 := by
    refine h.queue.inactive fun u hu => ?_
    obtain ⟨k, hk⟩ := hu
    obtain ⟨v, hv⟩ := hall u _ hk Phase.noConfusion
    cases hv
  have hreaders : l.rw.currentReaders = 0 := by
    have hzero : l.readers = 0 := by
      rw [LockState.readers, Finset.card_eq_zero, Finset.filter_eq_empty_iff]
      intro u _ hu
      obtain ⟨v, hv⟩ := hall u _ hu Phase.noConfusion
      cases hv
    rw [← UInt32.toNat_inj, h.exact, hzero]
    rfl
  cases w with
  | quick =>
      have hb := hasleep t .quick ht
      simp [Wait.blocked, hwriters] at hb
  | read k | write k =>
      -- The thread has a ticket, so there is an oldest one, and it has its turn.
      have hmem := (h.queue.owns t _).mpr (by rw [ht]; rfl)
      cases q with
      | nil => cases hmem
      | cons e rest =>
          obtain ⟨u, v⟩ := e
          have howned : (l.phase u).owned = some v := (h.queue.owns u v).mp List.mem_cons_self
          have hturn : v.ticket = l.rw.nowServing := h.queue.tickets.1
          obtain ⟨v', hv'⟩ := hall u _ rfl fun hidle => by rw [hidle] at howned; cases howned
          have hb := hasleep u v' hv'
          rw [hv'] at howned
          cases v' with
          | quick => cases howned
          | read j =>
              cases howned
              have hj : j = l.rw.nowServing := hturn
              simp [Wait.blocked, hj] at hb
          | write j =>
              cases howned
              have hj : j = l.rw.nowServing := hturn
              simp [Wait.blocked, hj, hreaders, hwriters] at hb

variable [DecidableEq Tid] {s : Shared Tid} {ps : Int → List Ptr} {m : CString → Option CString}

/-- A thread behind the lock has a step, when `malloc` fails if need be. The chain is intact, so
every access finds its node. -/
theorem SharedInv.work_isSome (h : SharedInv s ps m) {t : Tid} {r : Request}
    (hr : (s.pc t).working = some r) (hopen : ∀ o, s.pc t ≠ .unlocking r o) :
    (s.step (.work t ⟨0, true, true⟩)).isSome := by
  have hloc := h.locals t r (Pc.request_of_working hr)
  have haccess : (Shared.access s.table (s.index r) ⟨0, true, true⟩ (s.pc t)).isSome →
      (s.step (.work t ⟨0, true, true⟩)).isSome := by
    intro hacc
    simp only [Shared.step, h.null, Option.isSome_none, Bool.false_eq_true, if_false,
      Option.isSome_map]
    unfold Shared.work
    cases hpc : s.pc t with
    | walk r' prev node | found r' prev node | build r' | publish r' p | unlinked r' p =>
        rw [hpc] at hr hacc
        cases hr
        simp only [Option.isSome_map]
        exact hacc
    | unlocking r' o =>
        rw [hpc] at hr
        cases hr
        exact absurd hpc (hopen o)
    | idle | locking r' | fault => rw [hpc] at hr; cases hr
  refine haccess ?_
  cases hpc : s.pc t with
  | walk r' prev node =>
      simp only [Shared.access]
      repeat' split
      all_goals rfl
  | found r' prev node =>
      simp only [Shared.access]
      repeat' split
      all_goals rfl
  | build r' =>
      rw [hpc] at hr hloc
      cases hr
      obtain ⟨key, value, hop, -⟩ := hloc
      simp only [Shared.access, hop]
      split
      · rfl
      · rfl
  | publish r' p | unlinked r' p => rfl
  | unlocking r' o =>
      rw [hpc] at hr
      cases hr
      exact absurd hpc (hopen o)
  | idle | locking r' | fault => rw [hpc] at hr; cases hr

/-- A thread that does not sleep has a step. It is in the lock function, at an access, or at its
unlock. -/
theorem SharedInv.exists_onward_of_awake (h : SharedInv s ps m) {t : Tid} {r : Request}
    (hr : (s.pc t).request = some r)
    (hawake : ∀ w, (s.locks (s.index r)).phase t ≠ .asleep w) :
    ∃ a : SharedAction Tid, a.Onward ∧ (s.step a).isSome := by
  have hlock : ∀ {r move}, s.pc t = .locking r →
      ((s.locks (s.index r)).step (LockMove.action t move)).isSome →
      (s.step (.lock t move)).isSome := by
    intro r move hpc hsome
    simp only [Shared.step, hpc, Shared.lockStep, Option.isSome_map]
    exact hsome
  have hwork : ∀ {r}, s.pc t = .locking r → s.Holding (s.index r) t →
      (s.step (.work t ⟨0, true, true⟩)).isSome := by
    intro r hpc hheld
    simp only [Shared.step, h.null, Option.isSome_none, Bool.false_eq_true, if_false,
      Option.isSome_map, Shared.work, hpc, if_pos hheld]
    rfl
  cases hpc : s.pc t with
  | idle | fault => rw [hpc] at hr; cases hr
  | locking r' =>
      rw [hpc] at hr
      cases hr
      have hfor := h.locking t r hpc
      cases hphase : (s.locks (s.index r)).phase t with
      | idle => rw [hphase] at hfor; exact hfor.elim
      | called a =>
          refine ⟨.lock t .enter, trivial, hlock hpc ?_⟩
          simp only [LockMove.action, LockState.step, hphase]
          cases a with
          | read quick => rfl
          | write => rfl
      | asleep w => exact absurd hphase (hawake w)
      | woken w =>
          refine ⟨.lock t .resume, trivial, hlock hpc ?_⟩
          simp only [LockMove.action, LockState.step, hphase]
          rfl
      | reading => exact ⟨.work t ⟨0, true, true⟩, trivial, hwork hpc (Or.inl hphase)⟩
      | writing k => exact ⟨.work t ⟨0, true, true⟩, trivial, hwork hpc (Or.inr ⟨k, hphase⟩)⟩
  | unlocking r' o =>
      obtain ⟨l, es, hunlock, -⟩ := LockState.exists_unlock (h.holds t r' (by rw [hpc]; rfl))
      refine ⟨.release t, trivial, ?_⟩
      simp only [Shared.step, hpc, Shared.lockStep, hunlock]
      rfl
  | walk r' prev node | found r' prev node | build r' | publish r' p | unlinked r' p =>
      refine ⟨.work t ⟨0, true, true⟩, trivial, h.work_isSome (r := r') (by rw [hpc]; rfl) ?_⟩
      intro o
      rw [hpc]
      exact Pc.noConfusion

/-- While an operation is open, some thread has a step. It is the thread of the operation, or one
that is awake in the same lock. -/
theorem SharedInv.exists_onward (h : SharedInv s ps m)
    (hasleep : ∀ i, AsleepBlocked (s.locks i)) {t : Tid} (ht : s.pc t ≠ .idle) :
    ∃ a : SharedAction Tid, a.Onward ∧ (s.step a).isSome := by
  have hreq : ∃ r, (s.pc t).request = some r := by
    cases hpc : s.pc t with
    | idle => exact absurd hpc ht
    | fault => exact absurd hpc (h.noFault t)
    | locking r | walk r prev node | found r prev node | build r | publish r p | unlinked r p
    | unlocking r o => exact ⟨r, rfl⟩
  obtain ⟨r, hr⟩ := hreq
  by_cases hsleeps : ∃ w, (s.locks (s.index r)).phase t = .asleep w
  · -- Another thread is awake in the same lock, and it has a step.
    obtain ⟨w, hw⟩ := hsleeps
    obtain ⟨q, hq⟩ := h.lock (s.index r)
    obtain ⟨u, hu, hawake⟩ := hq.exists_awake (hasleep (s.index r)) hw
    have hbusy : ∃ r', (s.pc u).request = some r' ∧ s.index r' = s.index r := by
      by_contra hnone
      exact hu (h.away u _ fun r' hr' heq => hnone ⟨r', hr', heq.symm⟩)
    obtain ⟨r', hr', hidx⟩ := hbusy
    refine h.exists_onward_of_awake hr' fun v => ?_
    rw [hidx]
    exact hawake v
  · exact h.exists_onward_of_awake hr fun w hw => hsleeps ⟨w, hw⟩

end

/-! ### Every step lowers the rank -/

/-- How far a thread in a lock function is from its place behind the lock. A sleeping thread is as
far as a woken one. -/
def Phase.distance : Phase → Nat
  | .idle => 0
  | .called _ => 3
  | .asleep _ | .woken _ => 2
  | .reading | .writing _ => 1

/-- A thread that is woken is as far from its end as before. -/
theorem Phase.distance_wake (p : Phase) : p.wake.distance = p.distance := by
  cases p <;> rfl

/-- How many stages there are up to the return. The loop over the chain is one stage, and
`distance` says how far it is to the lock. -/
def Pc.stages (distance : Request → Nat) : Pc → Nat
  | .idle | .fault => 0
  | .unlocking _ _ => 1
  | .publish _ _ | .unlinked _ _ => 2
  | .found _ _ _ | .build _ => 3
  | .walk _ _ _ => 4
  | .locking r => 4 + distance r

namespace Shared

variable {Tid : Type}

/-- How many stages a thread has left. -/
def remaining (s : Shared Tid) (t : Tid) : Nat :=
  (s.pc t).stages fun r => ((s.locks (s.index r)).phase t).distance

/-- `1` for a thread that must take the mutex again, and else `0`. -/
def woken (s : Shared Tid) (t : Tid) : Nat :=
  match s.pc t with
  | .locking r =>
      match (s.locks (s.index r)).phase t with
      | .woken _ => 1
      | _ => 0
  | _ => 0

/-- A thread in the loop has `len t` nodes ahead. -/
def Ahead (s : Shared Tid) (len : Tid → Nat) : Prop :=
  ∀ t r prev node, s.pc t = .walk r prev node →
    ∃ suf, suf.length = len t ∧ Seg s.table.next node suf 0

variable [Fintype Tid]

/-- `x` is the rank of a state, with `k` stages outside of the table. -/
def Rank (s : Shared Tid) (k : Nat) (x : ℕ ×ₗ ℕ ×ₗ ℕ) : Prop :=
  ∃ len, s.Ahead len ∧
    x = toLex (k + ∑ t, s.remaining t, toLex (∑ t, len t, ∑ t, s.woken t))

variable {s s' : Shared Tid} {ps : Int → List Ptr} {m : CString → Option CString} {k k' : Nat}
  {x : ℕ ×ₗ ℕ ×ₗ ℕ}

/-- Every state has a rank. -/
theorem Rank.exists (h : SharedInv s ps m) (k : Nat) : ∃ x, s.Rank k x := by
  have hahead : ∀ t, ∃ len, ∀ r prev node, s.pc t = .walk r prev node →
      ∃ suf, suf.length = len ∧ Seg s.table.next node suf 0 := by
    intro t
    cases hpc : s.pc t with
    | walk r prev node =>
        have hloc := h.locals t r (by rw [hpc]; rfl)
        rw [hpc] at hloc
        obtain ⟨pre, suf, -, hwalk⟩ := hloc
        refine ⟨suf.length, fun r' prev' node' heq => ?_⟩
        cases heq
        exact ⟨suf, rfl, hwalk.rest⟩
    | idle | locking r | found r prev node | build r | publish r p | unlinked r p
    | unlocking r o | fault => exact ⟨0, fun r' prev' node' heq => by cases heq⟩
  choose len hlen using hahead
  exact ⟨_, len, hlen, rfl⟩

/-- Fewer stages are a lower rank, whatever is ahead then. -/
theorem Rank.lower (hx : s.Rank k x) (h : SharedInv s' ps m)
    (hlt : k' + ∑ t, s'.remaining t < k + ∑ t, s.remaining t) : ∃ y, y < x ∧ s'.Rank k' y := by
  obtain ⟨len, -, rfl⟩ := hx
  obtain ⟨y, len', hahead, rfl⟩ := Rank.exists h k'
  exact ⟨_, Prod.Lex.toLex_lt_toLex.mpr (Or.inl hlt), len', hahead, rfl⟩

end Shared

/-! ### What a step of one thread lowers -/

namespace LockState

variable {Tid : Type} [DecidableEq Tid] {l : LockState Tid} {t : Tid} {w : Wait}

/-- A pass through a wait loop ends behind the lock or asleep. -/
theorem distance_waitLoop :
    ((l.waitLoop t w).1.phase t).distance ≤ 2 ∧
      (w.blocked l.rw = false → ((l.waitLoop t w).1.phase t).distance = 1) := by
  cases hb : w.blocked l.rw with
  | true =>
      rw [waitLoop_blocked hb, move_phase_self]
      exact ⟨Nat.le_refl 2, fun heq => by cases heq⟩
  | false =>
      have hone : ((l.waitLoop t w).1.phase t).distance = 1 := by
        cases w with
        | quick => rw [waitLoop_quick hb, broadcast_phase, move_phase_self]; rfl
        | read k => rw [waitLoop_read hb, broadcast_phase, move_phase_self]; rfl
        | write k => rw [waitLoop_write hb, move_phase_self]; rfl
      exact ⟨by omega, fun _ => hone⟩

end LockState

namespace Shared

variable {Tid : Type} [DecidableEq Tid] {s s' : Shared Tid}
  {es : List (HistoryEvent Tid Request Outcome)}

omit [DecidableEq Tid] in
/-- An access brings the thread to a later stage, or to the next node of the chain. -/
theorem stages_of_access (distance : Request → Nat) {t t' : Table} {idx : Int} {mem : Alloc}
    {pc pc' : Pc} (hacc : access t idx mem pc = some (t', pc')) :
    pc'.stages distance < pc.stages distance ∨
      ∃ r prev node n, pc = .walk r prev node ∧ node ≠ 0 ∧ t.nodes node = some n ∧ t' = t ∧
        pc' = .walk r node n.next := by
  cases pc with
  | walk r prev node =>
      simp only [access] at hacc
      split at hacc
      case isTrue =>
        left
        split at hacc
        · cases hacc
          exact (by decide : 3 < 4)
        · cases hacc
          exact (by decide : 1 < 4)
      case isFalse hnode =>
        split at hacc
        · cases hacc
          exact Or.inl (by decide : 0 < 4)
        · rename_i n hn
          split at hacc
          · cases hacc
            exact Or.inl (by decide : 3 < 4)
          · cases hacc
            exact Or.inr ⟨r, prev, node, n, rfl, hnode, hn, rfl, rfl⟩
  | found r prev node =>
      left
      simp only [access] at hacc
      repeat' split at hacc
      all_goals
        cases hacc
        simp only [Pc.stages]
        decide
  | build r =>
      left
      simp only [access] at hacc
      split at hacc
      case h_2 => cases hacc
      case h_1 =>
        split at hacc
        · cases hacc
          exact (by decide : 2 < 3)
        · cases hacc
          exact (by decide : 1 < 3)
  | publish r p | unlinked r p =>
      cases hacc
      exact Or.inl (by decide : 1 < 2)
  | idle | locking r | unlocking r o | fault => cases hacc

/-- What a step of a thread leaves the others. -/
structure Beside (s s' : Shared Tid) (t : Tid) : Prop where
  size : s'.table.hashSize = s.table.hashSize
  pc : ∀ u, u ≠ t → s'.pc u = s.pc u
  phase : ∀ i, (s.locks i).Others (s'.locks i) t

/-- A step leaves the others where they are, or wakes them. To be woken brings a thread no closer to
its end and no further from it. -/
theorem beside_of_step {a : SharedAction Tid} (hstep : s.step a = some (s', es)) :
    Beside s s' a.tid := by
  have hset : ∀ {t : Tid} {i : Int} {la : LockAction Tid} {l : LockState Tid}
      {les : List (LockEvent Tid)}, (s.locks i).step la = some (l, les) → la.tid = t →
      ∀ j, (s.locks j).Others ((s.setLock i l).locks j) t := by
    intro t i la l les hl htid j
    by_cases hji : j = i
    · subst hji
      have hself : (s.setLock j l).locks j = l := Function.update_self _ _ _
      rw [hself, ← htid]
      exact LockState.others_of_step hl
    · have hne : (s.setLock i l).locks j = s.locks j := Function.update_of_ne hji _ _
      rw [hne]
      exact fun u _ => Or.inl rfl
  refine ⟨hashSize_of_step hstep, ?_, ?_⟩
  · cases a with
    | call t r =>
        obtain ⟨-, -, l, les, -, rfl⟩ := step_call hstep
        exact fun u hu => setPc_pc_ne _ _ _ hu
    | lock t move =>
        obtain ⟨-, r, l, les, -, -, rfl⟩ := step_lock hstep
        exact fun u _ => rfl
    | release t =>
        obtain ⟨r, o, l, les, -, -, -, rfl⟩ := step_release hstep
        exact fun u hu => setPc_pc_ne _ _ _ hu
    | work t mem =>
        obtain ⟨-, -, ⟨r, -, -, rfl⟩ | ⟨r, table, pc, -, -, rfl⟩⟩ := step_work hstep
        · exact fun u hu => setPc_pc_ne _ _ _ hu
        · exact fun u hu => setPc_pc_ne _ _ _ hu
  · cases a with
    | call t r =>
        obtain ⟨-, -, l, les, hl, rfl⟩ := step_call hstep
        exact hset hl rfl
    | lock t move =>
        obtain ⟨-, r, l, les, -, hl, rfl⟩ := step_lock hstep
        refine hset hl ?_
        cases move with
        | enter | wake | resume => rfl
    | release t =>
        obtain ⟨r, o, l, les, -, -, hl, rfl⟩ := step_release hstep
        refine hset hl ?_
        unfold Request.unlock
        split
        · rfl
        · rfl
    | work t mem =>
        obtain ⟨-, -, ⟨r, -, -, rfl⟩ | ⟨r, table, pc, -, -, rfl⟩⟩ := step_work hstep
        · exact fun i u _ => Or.inl rfl
        · exact fun i u _ => Or.inl rfl

omit [DecidableEq Tid] in
/-- The others have as many stages left as before. -/
theorem Beside.remaining {t u : Tid} (h : Beside s s' t) (hu : u ≠ t) :
    s'.remaining u = s.remaining u := by
  unfold Shared.remaining
  rw [h.pc u hu]
  congr 1
  funext r
  have hidx : s'.index r = s.index r := by
    unfold index Table.index
    rw [h.size]
  rw [hidx]
  rcases h.phase (s.index r) u hu with hsame | hwoken
  · rw [hsame]
  · rw [hwoken, Phase.distance_wake]

/-- A call opens an operation with all of its stages ahead. -/
theorem remaining_of_call {t : Tid} {r : Request} (hstep : s.step (.call t r) = some (s', es)) :
    s.remaining t = 0 ∧ s'.remaining t = 7 := by
  obtain ⟨hpc, -, l, les, hl, rfl⟩ := step_call hstep
  have hself : (s.setLock (s.index r) l).locks (s.index r) = l := Function.update_self _ _ _
  have hcalled : l.phase t = .called r.access := by
    cases LockState.shape_of_step hl with
    | call hp => exact LockState.move_phase_self _ _ _ _
  constructor
  · show (s.pc t).stages _ = 0
    rw [hpc]
    rfl
  · show ((setPc _ t (.locking r)).pc t).stages _ = 7
    rw [setPc_pc_self]
    show 4 + (((s.setLock (s.index r) l).locks (s.index r)).phase t).distance = 7
    rw [hself, hcalled]
    rfl

/-- A step on the way to the return leaves its thread with fewer stages, unless the thread looks at
the next node of the chain or goes back to sleep. -/
theorem remaining_of_step {a : SharedAction Tid} (honward : a.Onward)
    (hstep : s.step a = some (s', es)) :
    s'.remaining a.tid < s.remaining a.tid ∨
      (∃ r prev node n, s.pc a.tid = .walk r prev node ∧ node ≠ 0 ∧
        s.table.nodes node = some n ∧ s' = s.setPc a.tid (.walk r node n.next)) ∨
      ∃ r w, s.pc a.tid = .locking r ∧ (s.locks (s.index r)).phase a.tid = .woken w ∧
        s' = s.setLock (s.index r)
          ((s.locks (s.index r)).move (s.locks (s.index r)).rw a.tid (.asleep w)) := by
  cases a with
  | call t r => exact honward.elim
  | lock t move =>
      obtain ⟨-, r, l, les, hpc, hl, rfl⟩ := step_lock hstep
      show (s.setLock (s.index r) l).remaining t < s.remaining t ∨ _
      have hbefore : s.remaining t = 4 + ((s.locks (s.index r)).phase t).distance := by
        unfold Shared.remaining
        rw [hpc]
        rfl
      have hafter : (s.setLock (s.index r) l).remaining t = 4 + (l.phase t).distance := by
        unfold Shared.remaining
        show (s.pc t).stages _ = _
        rw [hpc]
        show 4 + ((Function.update s.locks (s.index r) l (s.index r)).phase t).distance = _
        rw [Function.update_self]
      cases move with
      | wake => exact honward.elim
      | enter =>
          left
          rw [hbefore, hafter]
          cases LockState.shape_of_step hl with
          | enterQuick hp =>
              have hle := (LockState.distance_waitLoop (l := s.locks (s.index r)) (t := t)
                (w := .quick)).1
              rw [hp]
              exact Nat.add_lt_add_left (Nat.lt_succ_of_le hle) 4
          | enterRead hp | enterWrite hp =>
              rw [hp]
              exact Nat.add_lt_add_left (Nat.lt_succ_of_le LockState.distance_waitLoop.1) 4
      | resume =>
          cases LockState.shape_of_step hl with
          | @resume t w hp =>
              cases hb : w.blocked (s.locks (s.index r)).rw with
              | true =>
                  refine Or.inr (Or.inr ⟨r, w, hpc, hp, ?_⟩)
                  rw [LockState.waitLoop_blocked hb]
                  rfl
              | false =>
                  left
                  rw [hbefore, hafter, hp, LockState.distance_waitLoop.2 hb]
                  exact Nat.lt_succ_self 5
  | release t =>
      left
      obtain ⟨r, o, l, les, hpc, -, -, rfl⟩ := step_release hstep
      show ((setPc _ t .idle).pc t).stages _ < (s.pc t).stages _
      rw [setPc_pc_self, hpc]
      exact Nat.zero_lt_one
  | work t mem =>
      obtain ⟨-, -, ⟨r, hpc, hheld, rfl⟩ | ⟨r, table, pc, -, hacc, rfl⟩⟩ := step_work hstep
      · left
        show ((setPc _ t _).pc t).stages _ < (s.pc t).stages _
        rw [setPc_pc_self, hpc]
        show 4 < 4 + ((s.locks (s.index r)).phase t).distance
        rcases hheld with hreading | ⟨k, hwriting⟩
        · rw [hreading]
          exact Nat.lt_succ_self 4
        · rw [hwriting]
          exact Nat.lt_succ_self 4
      · have hsize : table.hashSize = s.table.hashSize := hashSize_of_access hacc
        rcases stages_of_access (fun r => ((s.locks (s.index r)).phase t).distance) hacc with
          hlt | ⟨r', prev, node, n, hpc, hnode, hn, rfl, rfl⟩
        · left
          show ((s.setPc t pc).pc t).stages
            (fun r => ((s.locks (table.index r.op.key)).phase t).distance) < (s.pc t).stages _
          rw [setPc_pc_self]
          have hidx : ∀ key, table.index key = s.table.index key := by
            intro key
            unfold Table.index
            rw [hsize]
          simp only [hidx]
          exact hlt
        · exact Or.inr (Or.inl ⟨r', prev, node, n, hpc, hnode, hn, rfl⟩)

section
variable [Fintype Tid] {ps : Int → List Ptr} {m : CString → Option CString} {k : Nat}
  {x : ℕ ×ₗ ℕ ×ₗ ℕ}

/-- The next node of the chain leaves one node less ahead. The chain is finite and has no node
twice, so this cannot go on. -/
theorem Rank.walk (hx : s.Rank k x) {t : Tid} {r : Request} {prev node : Ptr} {n : Node}
    (hpc : s.pc t = .walk r prev node) (hnode : node ≠ 0) (hn : s.table.nodes node = some n) :
    ∃ y, y < x ∧ (s.setPc t (.walk r node n.next)).Rank k y := by
  obtain ⟨len, hahead, rfl⟩ := hx
  obtain ⟨suf, hlen, hseg⟩ := hahead t r prev node hpc
  obtain ⟨rest, y, rfl, hnext, hrest⟩ := hseg.exists_cons hnode
  obtain ⟨n', hn', rfl⟩ := next_eq_some.mp hnext
  rw [hn, Option.some.injEq] at hn'
  subst hn'
  have hsame : ∑ u, (s.setPc t (.walk r node n.next)).remaining u = ∑ u, s.remaining u := by
    refine sum_eq_of_one (t := t) (fun u hu => ?_) ?_
    · show ((s.setPc t _).pc u).stages _ = (s.pc u).stages _
      rw [setPc_pc_ne _ _ _ hu]
      rfl
    · show ((s.setPc t _).pc t).stages _ = (s.pc t).stages _
      rw [setPc_pc_self, hpc]
      rfl
  refine ⟨_, ?_, Function.update len t rest.length, fun u r' prev' node' hu => ?_, rfl⟩
  · refine Prod.Lex.toLex_lt_toLex.mpr (Or.inr ⟨by rw [hsame], ?_⟩)
    refine Prod.Lex.toLex_lt_toLex.mpr (Or.inl (sum_lt_of_one (t := t) (fun u hu => ?_) ?_))
    · exact Function.update_of_ne hu _ _
    · rw [Function.update_self, ← hlen]
      exact Nat.lt_succ_self rest.length
  · by_cases hut : u = t
    · subst hut
      rw [setPc_pc_self] at hu
      cases hu
      rw [Function.update_self]
      exact ⟨rest, rfl, hrest⟩
    · rw [setPc_pc_ne _ _ _ hut] at hu
      rw [Function.update_of_ne hut]
      exact hahead u r' prev' node' hu

/-- A thread that goes back to sleep leaves one woken thread less. It wakes no other one by that. -/
theorem Rank.sleep (hx : s.Rank k x) {t : Tid} {r : Request} {w : Wait}
    (hpc : s.pc t = .locking r) (hwoken : (s.locks (s.index r)).phase t = .woken w) :
    ∃ y, y < x ∧ (s.setLock (s.index r)
      ((s.locks (s.index r)).move (s.locks (s.index r)).rw t (.asleep w))).Rank k y := by
  obtain ⟨len, hahead, rfl⟩ := hx
  let l := (s.locks (s.index r)).move (s.locks (s.index r)).rw t (.asleep w)
  have hself : (s.setLock (s.index r) l).locks (s.index r) = l := Function.update_self _ _ _
  have hphase : ∀ i u, u ≠ t → ((s.setLock (s.index r) l).locks i).phase u
      = (s.locks i).phase u := by
    intro i u hu
    by_cases hi : i = s.index r
    · subst hi
      rw [hself]
      exact LockState.move_phase_ne _ _ _ hu
    · show (Function.update s.locks (s.index r) l i).phase u = _
      rw [Function.update_of_ne hi]
  have hsleeps : ((s.setLock (s.index r) l).locks (s.index r)).phase t = .asleep w := by
    rw [hself]
    exact LockState.move_phase_self _ _ _ _
  have hsame : ∑ u, (s.setLock (s.index r) l).remaining u = ∑ u, s.remaining u := by
    refine sum_eq_of_one (t := t) (fun u hu => ?_) ?_
    · show (s.pc u).stages (fun r' =>
        (((s.setLock (s.index r) l).locks (s.index r')).phase u).distance) = (s.pc u).stages _
      simp only [hphase _ u hu]
    · show (s.pc t).stages _ = (s.pc t).stages _
      rw [hpc]
      show 4 + (((s.setLock (s.index r) l).locks (s.index r)).phase t).distance
        = 4 + ((s.locks (s.index r)).phase t).distance
      rw [hsleeps, hwoken]
      rfl
  refine ⟨_, ?_, len, hahead, rfl⟩
  refine Prod.Lex.toLex_lt_toLex.mpr (Or.inr ⟨by rw [hsame], ?_⟩)
  refine Prod.Lex.toLex_lt_toLex.mpr (Or.inr ⟨rfl, sum_lt_of_one (t := t) (fun u hu => ?_) ?_⟩)
  · unfold Shared.woken
    show (match s.pc u with
      | .locking r' => match ((s.setLock (s.index r) l).locks (s.index r')).phase u with
        | .woken _ => 1
        | _ => 0
      | _ => 0) = _
    simp only [hphase _ u hu]
  · have hafter : (s.setLock (s.index r) l).woken t = 0 := by
      unfold Shared.woken
      show (match s.pc t with
        | .locking r' => match ((s.setLock (s.index r) l).locks (s.index r')).phase t with
          | .woken _ => 1
          | _ => 0
        | _ => 0) = 0
      rw [hpc]
      simp only [hsleeps]
    have hbefore : s.woken t = 1 := by
      unfold Shared.woken
      simp only [hpc, hwoken]
    rw [hafter, hbefore]
    exact Nat.zero_lt_one

/-- Every step on the way to the return lowers the rank. -/
theorem Rank.step (hx : s.Rank k x) (h : SharedInv s' ps m) {a : SharedAction Tid}
    (honward : a.Onward) (hstep : s.step a = some (s', es)) : ∃ y, y < x ∧ s'.Rank k y := by
  rcases remaining_of_step honward hstep with
    hlt | ⟨r, prev, node, n, hpc, hnode, hn, rfl⟩ | ⟨r, w, hpc, hwoken, rfl⟩
  · refine hx.lower h (Nat.add_lt_add_left (sum_lt_of_one (fun u hu => ?_) hlt) k)
    exact (beside_of_step hstep).remaining hu
  · exact hx.walk hpc hnode hn
  · exact hx.sleep hpc hwoken

end

end Shared

section
variable {Tid : Type} [Fintype Tid] [DecidableEq Tid]

/-- The open operations of the table come to their returns. From every state that any number of
threads reaches, with wake-ups of any kind, every run goes on until no operation is open, as long as
no new one is called and nobody wakes up without a broadcast. No order of the steps, and no failed
allocation, keeps the table from it. -/
theorem shared_table_drains (hcard : Fintype.card Tid < 2 ^ 32) (n : UInt64) (hpos : 0 < n)
    (hle : n ≤ 2147483647) (acts : List (SharedAction Tid)) (s : Shared Tid)
    (log : List (HistoryEvent Tid Request Outcome))
    (hrun : run Shared.step (Shared.init Tid n) acts = some (s, log)) :
    Inevitable Shared.step SharedAction.Onward (fun s => ∀ t, s.pc t = .idle) s := by
  have hlin : LinInv s log ∧ ∀ i, AsleepBlocked (s.locks i) :=
    run_induction (I := fun s log => LinInv s log ∧ ∀ i, AsleepBlocked (s.locks i))
      (P := fun _ => True) ⟨LinInv.init hpos hle, fun i t w hp => by cases hp⟩
      (fun _ _ _ _ _ hI _ _ hstep => ⟨hI.1.step hcard hstep, Shared.asleepBlocked_step hI.2 hstep⟩)
      acts (fun _ _ => trivial) s log hrun
  obtain ⟨ps, m, hs, -⟩ := hlin.1.inv
  obtain ⟨x, hx⟩ := Shared.Rank.exists hs 0
  refine inevitable_of_rank (I := fun x s => s.Rank 0 x ∧ (∃ log, LinInv s log) ∧
    ∀ i, AsleepBlocked (s.locks i)) wellFounded_lt ?_ ⟨hx, ⟨log, hlin.1⟩, hlin.2⟩
  intro x s ⟨hx, ⟨log, hlin⟩, hasleep⟩
  obtain ⟨ps, m, hs, -⟩ := hlin.inv
  by_cases hidle : ∀ t, s.pc t = .idle
  · exact Or.inl hidle
  · obtain ⟨t, ht⟩ := not_forall.mp hidle
    refine Or.inr ⟨hs.exists_onward hasleep ht, fun a s' es honward hstep => ?_⟩
    have hlin' := hlin.step hcard hstep
    obtain ⟨ps', m', hs', -⟩ := hlin'.inv
    obtain ⟨y, hy, hrank⟩ := hx.step hs' honward hstep
    exact Or.inr ⟨y, hy, hrank, ⟨_, hlin'⟩, Shared.asleepBlocked_step hasleep hstep⟩

/-- A quick read sleeps while a writer holds the lock. Some run brings both to their returns. -/
theorem shared_table_drains_create_read :
    ∃ s log, run Shared.step (Shared.init (Fin 2) 1)
        [.call 0 ⟨.insert ⟨[97], by decide⟩ ⟨[49], by decide⟩, false⟩, .lock 0 .enter,
          .call 1 ⟨.read ⟨[97], by decide⟩, true⟩, .lock 1 .enter] = some (s, log) ∧
      (s.locks (s.index ⟨.read ⟨[97], by decide⟩, true⟩)).phase 1 = .asleep .quick ∧
      ∃ as s' es, (∀ a ∈ as, a.Onward) ∧ run Shared.step s as = some (s', es) ∧
        ∀ t, s'.pc t = .idle := by
  have hrun : run Shared.step (Shared.init (Fin 2) 1)
      [.call 0 ⟨.insert ⟨[97], by decide⟩ ⟨[49], by decide⟩, false⟩, .lock 0 .enter,
        .call 1 ⟨.read ⟨[97], by decide⟩, true⟩, .lock 1 .enter] = some (_, _) := rfl
  have hdrains := shared_table_drains (by decide) 1 (by decide) (by decide) _ _ _ hrun
  exact ⟨_, _, hrun, rfl, hdrains.exists_run⟩

end

end SysProg.Kvs
