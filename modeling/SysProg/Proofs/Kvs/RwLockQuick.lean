import Mathlib.Tactic.FinCases
import Mathlib.Tactic.IntervalCases
import SysProg.Proofs.Kvs.RwLockExclusion

/-!
# `SysProg.Proofs.Kvs.RwLockQuick`: when a quick read goes first

A quick read takes no ticket. After `rwlock_write_unlock` it competes with the next ticket
for the mutex, and nothing in the lock makes it win. `Preempts` is the promise that a write
access that was pending at the release is not granted before the quick read. It fails when
the writer takes the mutex first (`not_preempts_of_writer_first`).

`QuickFirst` is a condition on the order in which the threads get the mutex. Each quick read
that is pending at a release takes the mutex before any write access that is pending there.
Which thread gets a free mutex is the choice of the system, and the condition says nothing
about the counters or about what a thread finds when it has the mutex.
`preempts_of_quickFirst` proves the promise of every run that meets the condition. The
argument: the quick read took the mutex after the last release before the grant. Either it
was admitted then, or a writer was active again, and then the writer is not granted either.

`not_preempts_of_next_resumes` is the other side. When the quick read is waiting and the
thread that takes the mutex after a release is the writer whose ticket comes next, then the
writer is granted the lock, in every run.
-/

set_option autoImplicit false

namespace SysProg.Kvs

open SysProg.Lib LockState

variable {Tid : Type}

namespace LockState

/-- A quick read has been called and is not admitted yet. -/
def QuickPending (s : LockState Tid) (q : Tid) : Prop :=
  s.phase q = .called (.read true) ∨ s.phase q = .asleep .quick ∨ s.phase q = .woken .quick

/-- A write access has been called and is not granted yet. -/
def WritePending (s : LockState Tid) (w : Tid) : Prop :=
  s.phase w = .called .write ∨ ∃ k, s.phase w = .asleep (.write k) ∨ s.phase w = .woken (.write k)

end LockState

/-- The action is one in which the thread `t` takes the mutex inside a lock function. -/
def TakesMutex (t : Tid) (a : LockAction Tid) : Prop :=
  a = .enter t ∨ a = .resume t

variable [DecidableEq Tid]

/-- The quick read `q` and the write access `w` are both pending from the action `i`, a
`rwlock_write_unlock`, up to the action `j`. -/
def BothPending (acts : List (LockAction Tid)) (i j : Nat) (q w : Tid) : Prop :=
  (∃ u, acts[i]? = some (.writeUnlock u)) ∧
    ∀ n s, i ≤ n → n ≤ j → StateAt step (init Tid) acts n s →
      s.QuickPending q ∧ s.WritePending w

/-- A quick read that is pending at a release is admitted before every write access that is
pending at the release. -/
def Preempts (acts : List (LockAction Tid)) : Prop :=
  ∀ i j q w s, i < j → BothPending acts i j q w →
    StateAt step (init Tid) acts (j + 1) s → ¬ s.Writing w

/-- After each `rwlock_write_unlock` the mutex goes to a quick read that is pending there
before it goes to a write access that is pending there. -/
def QuickFirst (acts : List (LockAction Tid)) : Prop :=
  ∀ i j q w u s a, i < j → acts[i]? = some (.writeUnlock u) →
    StateAt step (init Tid) acts i s → s.QuickPending q → s.WritePending w →
    acts[j]? = some a → TakesMutex w a →
    ∃ n b, i < n ∧ n < j ∧ acts[n]? = some b ∧ TakesMutex q b

namespace LockState

variable {s s' : LockState Tid} {es : List (LockEvent Tid)}

/-- A pass through the write loop grants the lock exactly when it is not blocked. -/
theorem writing_waitLoop_write {t : Tid} {k : UInt64} :
    (s.waitLoop t (.write k)).1.Writing t ↔ (Wait.write k).blocked s.rw = false := by
  cases hb : (Wait.write k).blocked s.rw with
  | true => rw [waitLoop_blocked hb]; simp [Writing]
  | false => rw [waitLoop_write hb]; simp [Writing]

/-- A move of one thread makes no other thread a writer. -/
theorem writing_move_ne {rw : RwLock} {t u : Tid} {p : Phase} (hu : u ≠ t) :
    (s.move rw t p).Writing u ↔ s.Writing u := by
  simp [Writing, hu]

omit [DecidableEq Tid] in
/-- A broadcast wakes sleepers and lets nobody write. -/
theorem writing_broadcast (t : Tid) : s.broadcast.Writing t ↔ s.Writing t := by
  simp [Writing]

/-- Whoever starts to write in a pass through a wait loop is the thread in the loop. -/
theorem writing_of_waitLoop {t u : Tid} {w : Wait} (hbefore : ¬ s.Writing u)
    (hafter : (s.waitLoop t w).1.Writing u) :
    u = t ∧ ∃ k, w = .write k ∧ (Wait.write k).blocked s.rw = false := by
  -- The pass changes the phase of `t`, and a broadcast makes no writer.
  have hut : u = t := by
    by_contra hne
    unfold waitLoop at hafter
    split at hafter
    · exact hbefore ((writing_move_ne hne).mp hafter)
    · cases w <;> simp only [writing_broadcast] at hafter <;>
        exact hbefore ((writing_move_ne hne).mp hafter)
  subst hut
  refine ⟨rfl, ?_⟩
  -- Of the three loops only that of `rwlock_write_lock` ends with a writer.
  cases w with
  | write k => exact ⟨k, rfl, writing_waitLoop_write.mp hafter⟩
  | _ =>
      unfold waitLoop at hafter
      split at hafter <;> simp [Writing] at hafter

/-- A pending writer starts to write only in a step in which it takes the mutex, and no
writer is active then. -/
theorem writing_of_step {a : LockAction Tid} {w : Tid} (hstep : s.step a = some (s', es))
    (hbefore : s.WritePending w) (hafter : s'.Writing w) :
    TakesMutex w a ∧ s.rw.currentWriters = 0 := by
  have hnot : ¬ s.Writing w := by
    rintro ⟨k, hk⟩
    rcases hbefore with h | ⟨l, h | h⟩ <;> rw [hk] at h <;> cases h
  -- A step that moves a thread to a phase that does not write makes nobody a writer.
  have hmove : ∀ {rw : RwLock} {t : Tid} {p : Phase}, (∀ k, p ≠ .writing k) →
      ¬ (s.move rw t p).Writing w := by
    intro rw t p hp hw
    by_cases hwt : w = t
    · subst hwt
      obtain ⟨k, hk⟩ := hw
      exact hp k (by simpa using hk)
    · exact hnot ((writing_move_ne hwt).mp hw)
  -- One case for each action, split further by the kind of access.
  cases shape_of_step hstep with
  | call hp => exact absurd hafter (hmove (by simp))
  | enterQuick hp =>
      obtain ⟨-, k, hk, -⟩ := writing_of_waitLoop hnot hafter
      cases hk
  | enterRead hp =>
      obtain ⟨-, k, hk, -⟩ := writing_of_waitLoop (s := { s with rw := s.rw.takeTicket })
        hnot hafter
      cases hk
  | enterWrite hp =>
      obtain ⟨rfl, k, hk, hb⟩ := writing_of_waitLoop (s := { s with rw := s.rw.takeTicket })
        hnot hafter
      exact ⟨Or.inl rfl, (not_blocked_write.mp hb).2.2⟩
  | wake hp => exact absurd hafter (hmove (by simp))
  | resume hp =>
      obtain ⟨rfl, k, rfl, hb⟩ := writing_of_waitLoop hnot hafter
      exact ⟨Or.inr rfl, (not_blocked_write.mp hb).2.2⟩
  | readUnlock hp =>
      exfalso
      unfold rwlockReadUnlock at hafter
      dsimp only at hafter
      split at hafter
      · exact hmove (by simp) ((writing_broadcast w).mp hafter)
      · exact hmove (by simp) hafter
  | writeUnlock hp => exact absurd ((writing_broadcast w).mp hafter) (hmove (by simp))

/-- A quick read that takes the mutex and stays pending was stopped by an active writer. -/
theorem writers_pos_of_quick_blocked {a : LockAction Tid} {q : Tid}
    (hstep : s.step a = some (s', es)) (ha : TakesMutex q a) (hbefore : s.QuickPending q)
    (hafter : s'.QuickPending q) : 0 < s.rw.currentWriters := by
  -- From every pending phase the thread makes a pass through the loop of a quick read.
  have hloop : s.waitLoop q .quick = (s', es) := by
    rcases ha with rfl | rfl <;> rcases hbefore with hp | hp | hp <;>
      simp [step, hp, rwlockReadLock] at hstep <;> exact hstep
  cases hb : Wait.quick.blocked s.rw with
  | true => simpa [Wait.blocked] using hb
  | false =>
      rw [waitLoop_quick hb, Prod.mk.injEq] at hloop
      rw [← hloop.1] at hafter
      simp [QuickPending, Phase.wake] at hafter

/-- An active writer stays through a pass of any thread through a wait loop. -/
theorem writers_pos_of_waitLoop (t : Tid) (w : Wait) (hpos : 0 < s.rw.currentWriters) :
    0 < (s.waitLoop t w).1.rw.currentWriters := by
  cases hb : w.blocked s.rw with
  | true => rw [waitLoop_blocked hb]; exact hpos
  | false =>
      cases w with
      | quick => rw [waitLoop_quick hb]; exact hpos
      | read k => rw [waitLoop_read hb]; exact hpos
      | write k =>
          rw [(not_blocked_write.mp hb).2.2] at hpos
          exact absurd hpos (by decide)

/-- Only `rwlock_write_unlock` takes an active writer away. The other functions leave the number of
writers or raise it. -/
theorem writers_pos_of_step {a : LockAction Tid} (hstep : s.step a = some (s', es))
    (ha : ∀ t, a ≠ .writeUnlock t) (hpos : 0 < s.rw.currentWriters) :
    0 < s'.rw.currentWriters := by
  cases shape_of_step hstep with
  | call hp => exact hpos
  | enterQuick hp => exact writers_pos_of_waitLoop _ _ hpos
  | enterRead hp =>
      exact writers_pos_of_waitLoop (s := { s with rw := s.rw.takeTicket }) _ _ hpos
  | enterWrite hp =>
      exact writers_pos_of_waitLoop (s := { s with rw := s.rw.takeTicket }) _ _ hpos
  | wake hp => exact hpos
  | resume hp => exact writers_pos_of_waitLoop _ _ hpos
  -- `rwlock_read_unlock` does not touch `current_writers`.
  | readUnlock hp =>
      unfold rwlockReadUnlock
      dsimp only
      split <;> exact hpos
  | writeUnlock hp => exact absurd rfl (ha _)

end LockState

omit [DecidableEq Tid] in
/-- The last `rwlock_write_unlock` before the action `j`. -/
theorem exists_last_release {acts : List (LockAction Tid)} {i j : Nat} (hij : i < j)
    (hi : ∃ u, acts[i]? = some (.writeUnlock u)) :
    ∃ m, i ≤ m ∧ m < j ∧ (∃ u, acts[m]? = some (.writeUnlock u)) ∧
      ∀ n u, m < n → n < j → acts[n]? ≠ some (.writeUnlock u) := by
  -- Induction on `j`: the last action is a release, or the answer is the one before it.
  induction j, hij using Nat.le_induction with
  | base => exact ⟨i, le_refl i, Nat.lt_succ_self i, hi, fun n u h h' => by omega⟩
  | succ j hij ih =>
      by_cases hj : ∃ u, acts[j]? = some (.writeUnlock u)
      · exact ⟨j, by omega, Nat.lt_succ_self j, hj, fun n u h h' => by omega⟩
      · obtain ⟨m, him, hmj, hm, hlast⟩ := ih
        refine ⟨m, him, by omega, hm, fun n u h h' heq => ?_⟩
        by_cases hnj : n = j
        · exact hj ⟨u, hnj ▸ heq⟩
        · exact hlast n u h (by omega) heq

/-- While no `rwlock_write_unlock` runs, an active writer stays. The induction is on the steps in
between. -/
theorem writers_pos_until {acts : List (LockAction Tid)} {n j : Nat} {s s' : LockState Tid}
    {r : LockState Tid × List (LockEvent Tid)} (hrun : run step (init Tid) acts = some r)
    (hnj : n ≤ j) (hj : j ≤ acts.length) (hs : StateAt step (init Tid) acts n s)
    (hs' : StateAt step (init Tid) acts j s')
    (hno : ∀ m t, n ≤ m → m < j → acts[m]? ≠ some (.writeUnlock t))
    (hpos : 0 < s.rw.currentWriters) : 0 < s'.rw.currentWriters := by
  -- Induction on `j`, one step of the run at a time.
  induction j, hnj using Nat.le_induction generalizing s' with
  | base =>
      rw [← hs.unique hs']
      exact hpos
  | succ j hnj ih =>
      obtain ⟨s₁, hs₁⟩ := stateAt_exists hrun j
      have hlt : j < acts.length := by omega
      have ha : acts[j]? = some acts[j] := List.getElem?_eq_getElem hlt
      have hpos₁ := ih (by omega) hs₁ (fun m t hm hmj => hno m t hm (by omega))
      obtain ⟨es, hstep⟩ := hs₁.step_eq ha hs'
      refine writers_pos_of_step hstep (fun t ht => hno j t hnj (by omega) ?_) hpos₁
      rw [ha, ht]

/-- A pending quick read is admitted before every pending write access in every run in
which it gets the mutex first after a release. -/
theorem preempts_of_quickFirst (acts : List (LockAction Tid))
    (hrun : ∃ r, run step (init Tid) acts = some r) (hfirst : QuickFirst acts) :
    Preempts acts := by
  obtain ⟨r, hrun⟩ := hrun
  intro i j q w s' hij hboth hs' hwriting
  obtain ⟨s, hs⟩ := stateAt_exists hrun j
  have hpend := (hboth.2 j s (by omega) (le_refl j) hs).2
  have hlt : j < acts.length := by
    by_contra hge
    -- Past the end the state no longer changes, and `w` is pending in it.
    have htake : acts.take (j + 1) = acts.take j := by
      rw [List.take_of_length_le (by omega), List.take_of_length_le (by omega)]
    obtain ⟨log, hlog⟩ := hs'
    rw [htake] at hlog
    obtain rfl := hs.unique ⟨log, hlog⟩
    obtain ⟨k, hk⟩ := hwriting
    rcases hpend with h | ⟨l, h | h⟩ <;> rw [hk] at h <;> cases h
  have ha : acts[j]? = some acts[j] := List.getElem?_eq_getElem hlt
  obtain ⟨es, hstep⟩ := hs.step_eq ha hs'
  obtain ⟨hmutex, hfree⟩ := writing_of_step hstep hpend hwriting
  -- Look at the last release before the grant.
  obtain ⟨m, him, hmj, ⟨u, hm⟩, hlast⟩ := exists_last_release hij hboth.1
  obtain ⟨sₘ, hsₘ⟩ := stateAt_exists hrun m
  obtain ⟨hquickₘ, hwriteₘ⟩ := hboth.2 m sₘ him (by omega) hsₘ
  obtain ⟨n, b, hmn, hnj, hb, hq⟩ :=
    hfirst m j q w u sₘ acts[j] hmj hm hsₘ hquickₘ hwriteₘ ha hmutex
  obtain ⟨sₙ, hsₙ⟩ := stateAt_exists hrun n
  obtain ⟨sₙ', hsₙ'⟩ := stateAt_exists hrun (n + 1)
  obtain ⟨es', hstep'⟩ := hsₙ.step_eq hb hsₙ'
  -- The quick read was stopped by a writer, and that writer is still there at the grant.
  have hpos := writers_pos_of_quick_blocked hstep' hq
    (hboth.2 n sₙ (by omega) (by omega) hsₙ).1 (hboth.2 (n + 1) sₙ' (by omega) (by omega) hsₙ').1
  have hpos' := writers_pos_until hrun (by omega) (by omega) hsₙ hs
    (fun m' t hm' hm'j => hlast m' t (by omega) hm'j) hpos
  rw [hfree] at hpos'
  exact absurd hpos' (by decide)

/-- A run in which the woken quick read takes the mutex first. The writer that is woken
beside it comes second. -/
theorem preempts_of_quickFirst_resume :
    Preempts [.call 0 .write, .enter 0, .call 1 .write, .enter 1, .call (2 : Fin 3) (.read true),
      .enter 2, .writeUnlock 0, .resume 2, .resume 1] := by
  have hrun : run step (init (Fin 3)) [.call 0 .write, .enter 0, .call 1 .write, .enter 1,
    .call 2 (.read true), .enter 2, .writeUnlock 0, .resume 2, .resume 1] = some (_, _) := rfl
  refine preempts_of_quickFirst _ ⟨_, hrun⟩ fun i j q w u s a hij hu hs hq hw ha hmutex => ?_
  have hlt : i < 9 := (List.getElem?_eq_some_iff.mp hu).1
  have hi : i = 6 := by interval_cases i <;> first | rfl | cases hu
  have hj : j < 9 := (List.getElem?_eq_some_iff.mp ha).1
  subst hi
  cases hs.unique ⟨_, rfl⟩
  -- At the release the thread `2` is the only quick read and the thread `1` the only writer
  -- that waits.
  have hquick : q = 2 := by
    revert hq
    fin_cases q <;> intro hq <;> first | rfl | (obtain h | h | h := hq <;> cases h)
  have hwriter : w = 1 := by
    revert hw
    fin_cases w <;> intro hw <;> first | rfl | (obtain h | ⟨k, h | h⟩ := hw <;> cases h)
  subst hquick hwriter
  obtain rfl | rfl : j = 7 ∨ j = 8 := by omega
  · cases ha
    obtain h | h := hmutex <;> cases h
  · exact ⟨7, .resume 2, by decide, by decide, rfl, Or.inr rfl⟩

/-- A pending quick read is overtaken in every run in which the mutex goes, right after a
release, to the writer whose ticket comes next. Nobody holds the lock then, and the wait
loop of a writer does not look at a quick read. -/
theorem not_preempts_of_next_resumes [Fintype Tid] {acts : List (LockAction Tid)} {i : Nat}
    {q u w : Tid} {k : UInt64} {s : LockState Tid}
    (hrun : ∃ r, run step (init Tid) acts = some r)
    (hfit : ∀ s', Visits step (init Tid) acts s' → s'.InRange)
    (hs : StateAt step (init Tid) acts i s) (hu : acts[i]? = some (.writeUnlock u))
    (hq : s.QuickPending q) (hw : s.phase w = .asleep (.write k) ∨ s.phase w = .woken (.write k))
    (hnext : s.rw.nowServing + 1 = k) (ha : acts[i + 1]? = some (.resume w)) :
    ¬ Preempts acts := by
  obtain ⟨r, hrun⟩ := hrun
  obtain ⟨s₁, hs₁⟩ := stateAt_exists hrun (i + 1)
  obtain ⟨s₂, hs₂⟩ := stateAt_exists hrun (i + 2)
  obtain ⟨es, hrelease⟩ := hs.step_eq hu hs₁
  obtain ⟨es', hresume⟩ := hs₁.step_eq ha hs₂
  obtain ⟨log, hlog⟩ := id hs
  obtain ⟨queue, hinv⟩ := lockInv_of_run hlog fun s' hs' => by
    obtain ⟨as, es, hpre, has⟩ := hs'
    exact hfit s' ⟨as, es, hpre.trans (List.take_prefix i acts), has⟩
  -- At the release `u` writes, so it is neither of the two.
  cases shape_of_step hrelease with
  | @writeUnlock _ l hp =>
      have hqu : q ≠ u := by
        rintro rfl
        obtain h | h | h := hq <;> rw [hp] at h <;> cases h
      have hwu : w ≠ u := by
        rintro rfl
        obtain h | h := hw <;> rw [hp] at h <;> cases h
      have hwoken : (s.rwlockWriteUnlock u l).1.phase w = .woken (.write k) := by
        obtain h | h := hw <;> simp [rwlockWriteUnlock, hwu, h, Phase.wake]
      have hquick : (s.rwlockWriteUnlock u l).1.QuickPending q := by
        obtain h | h | h := hq <;> simp [rwlockWriteUnlock, QuickPending, hqu, h, Phase.wake]
      -- Nobody reads beside `u`, and `u` was the only writer, so the loop lets `w` pass.
      have hreaders : s.rw.currentReaders = 0 := by
        have hnone : s.readers = 0 := by
          rw [readers, Finset.card_eq_zero, Finset.filter_eq_empty_iff]
          exact fun t _ => hinv.alone u t ⟨l, hp⟩
        exact UInt32.toNat_inj.mp (hinv.exact.trans hnone)
      have hwriters : s.rw.currentWriters = 1 := hinv.queue.active u ⟨l, hp⟩
      have hfree : (Wait.write k).blocked (s.rwlockWriteUnlock u l).1.rw = false :=
        not_blocked_write.mpr ⟨hnext, hreaders, by
          simp [rwlockWriteUnlock, RwLock.writeUnlock, hwriters]⟩
      have hgrant : s₂.Writing w := by
        have hloop := writing_waitLoop_write (t := w).mpr hfree
        simp only [step, hwoken, Option.some.injEq] at hresume
        rwa [hresume] at hloop
      refine fun hpre => hpre i (i + 1) q w s₂ (by omega) ⟨⟨u, hu⟩, fun n t hn hn' ht => ?_⟩ hs₂
        hgrant
      obtain rfl | rfl : n = i ∨ n = i + 1 := by omega
      · obtain rfl := hs.unique ht
        exact ⟨hq, Or.inr ⟨k, hw⟩⟩
      · obtain rfl := hs₁.unique ht
        exact ⟨hquick, Or.inr ⟨k, Or.inr hwoken⟩⟩

/-- The promise of a quick read fails: the writer `0` leaves, the writer `1` that was woken
beside the quick read `2` takes the mutex first, and it is granted the lock. -/
theorem not_preempts_of_writer_first :
    ¬ ∀ acts : List (LockAction (Fin 3)),
      (∃ r, run step (init (Fin 3)) acts = some r) → Preempts acts := by
  intro hall
  have hpre := hall [.call 0 .write, .enter 0, .call 1 .write, .enter 1, .call 2 (.read true),
    .enter 2, .writeUnlock 0, .resume 1] ⟨_, rfl⟩
  refine hpre 6 7 2 1 _ (by decide) ⟨⟨0, rfl⟩, fun n s h6 h7 hs => ?_⟩ ⟨_, rfl⟩ ⟨1, rfl⟩
  have hn : n = 6 ∨ n = 7 := by omega
  cases hn with
  | inl hn =>
      subst hn
      cases hs.unique ⟨_, rfl⟩
      exact ⟨Or.inr (Or.inl rfl), Or.inr ⟨1, Or.inl rfl⟩⟩
  | inr hn =>
      subst hn
      cases hs.unique ⟨_, rfl⟩
      exact ⟨Or.inr (Or.inr rfl), Or.inr ⟨1, Or.inr rfl⟩⟩

end SysProg.Kvs
