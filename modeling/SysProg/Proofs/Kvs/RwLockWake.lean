import SysProg.Proofs.Kvs.RwLockFifo

/-!
# `SysProg.Proofs.Kvs.RwLockWake`: no wake-up is lost

`AsleepBlocked` says that every sleeping thread still has to wait. It is inductive by
itself: a critical section either broadcasts, and then nobody sleeps, or it makes no wait
condition false. The two silent ones are a writer that goes in, which can only block others,
and a reader that leaves others behind.

`rwlock_no_lost_wakeup` adds progress. When nobody holds the lock, the oldest ticket is at
its turn, so some waiting thread can proceed.
-/

set_option autoImplicit false

namespace SysProg.Kvs

open SysProg.Lib LockState

variable {Tid : Type}

/-- Every sleeping thread has to wait. -/
def AsleepBlocked (s : LockState Tid) : Prop :=
  ∀ t w, s.phase t = .asleep w → w.blocked s.rw = true

namespace AsleepBlocked

variable {s : LockState Tid}

/-- After a broadcast nobody sleeps. -/
theorem of_broadcast (s : LockState Tid) : AsleepBlocked s.broadcast := by
  intro t w h
  simp at h

variable [DecidableEq Tid]

/-- A thread moves to a place where it does not sleep, and whoever was blocked stays so. -/
theorem move (h : AsleepBlocked s) {t : Tid} {p : Phase} {rw : RwLock}
    (hp : ∀ w, p ≠ .asleep w)
    (hrw : ∀ w : Wait, w.blocked s.rw = true → w.blocked rw = true) :
    AsleepBlocked (s.move rw t p) := by
  intro u w hu
  by_cases hut : u = t
  · subst hut
    exact absurd (by simpa using hu) (hp w)
  · rw [move_phase_ne _ _ _ hut] at hu
    exact hrw w (h u w hu)

/-- One pass through a wait loop. A reader that is admitted tells the others, and behind a writer
that is admitted all of them are blocked. -/
theorem waitLoop (h : AsleepBlocked s) (t : Tid) (w : Wait) :
    AsleepBlocked (s.waitLoop t w).1 := by
  cases hb : w.blocked s.rw with
  | true =>
      rw [waitLoop_blocked hb]
      intro u v hu
      by_cases hut : u = t
      · subst hut
        rw [move_phase_self, Phase.asleep.injEq] at hu
        exact hu ▸ hb
      · rw [move_phase_ne _ _ _ hut] at hu
        exact h u v hu
  | false =>
      cases w with
      | quick => rw [waitLoop_quick hb]; exact of_broadcast _
      | read k => rw [waitLoop_read hb]; exact of_broadcast _
      | write k =>
          -- The writer goes in silently: from now on everybody is blocked by it.
          rw [waitLoop_write hb]
          obtain ⟨-, -, hzero⟩ := not_blocked_write.mp hb
          have hone : s.rw.admitWrite.currentWriters = 1 := by
            simp [RwLock.admitWrite, hzero]
          -- The ticket reads look only at `now_serving`, which has not moved.
          refine h.move (by simp) fun v hv => ?_
          cases v with
          | quick => simp [Wait.blocked, hone]
          | read l => exact hv
          | write l => simp [Wait.blocked, hone]

/-- `rwlock_read_unlock` is silent only when it leaves a reader behind. A thread that sleeps then is
still blocked by that reader. -/
theorem readUnlock (h : AsleepBlocked s) (t : Tid) :
    AsleepBlocked (s.rwlockReadUnlock t).1 := by
  show AsleepBlocked (if s.rw.readUnlock.currentReaders = 0
    then (s.move s.rw.readUnlock t .idle).broadcast else s.move s.rw.readUnlock t .idle)
  split
  · exact of_broadcast _
  · rename_i hne
    -- A reader that stays behind still blocks every writer.
    refine h.move (by simp) fun v hv => ?_
    cases v with
    | quick => exact hv
    | read l => exact hv
    | write l =>
        have hpos : 0 < s.rw.readUnlock.currentReaders := by
          rw [UInt32.lt_iff_toNat_lt, UInt32.toNat_zero]
          rw [← UInt32.toNat_inj, UInt32.toNat_zero] at hne
          omega
        simp [Wait.blocked, hpos]

/-- One step. -/
theorem step {s' : LockState Tid} {a : LockAction Tid} {es : List (LockEvent Tid)}
    (h : AsleepBlocked s) (hstep : s.step a = some (s', es)) : AsleepBlocked s' := by
  refine step_rule (I := fun s _ => AsleepBlocked s) (l := []) h hstep
    (fun t p hp _ => h.move hp.2.2.2 fun _ => id) (fun t w _ => h.move (by simp) fun _ => id)
    (fun t w _ _ _ => h.move (by simp) fun v hv => ?_) (fun s₁ _ t w h₁ _ heq => ?_)
    (fun t _ => h.readUnlock t) (fun t k _ => of_broadcast _)
  · -- No wait condition reads `next_ticket`.
    cases v <;> exact hv
  · subst heq
    exact h₁.waitLoop t w

end AsleepBlocked

variable [DecidableEq Tid] [Fintype Tid]

/-- No lost wake-up and no stuck lock. A sleeping thread has to wait. When some thread waits
and no thread holds the lock, some woken thread does not have to wait any more. -/
theorem rwlock_no_lost_wakeup (acts : List (LockAction Tid)) (s : LockState Tid)
    (log : List (LockEvent Tid)) (hrun : run step (init Tid) acts = some (s, log))
    (hfit : ∀ s', Visits step (init Tid) acts s' → s'.outstanding < 2 ^ 64) :
    (∀ t w, s.phase t = .asleep w → w.blocked s.rw = true) ∧
      ((∃ t w, (s.phase t).waiting = some w) →
        (∀ t, s.phase t ≠ .reading) → (∀ t, ¬ s.Writing t) →
        ∃ t w, s.phase t = .woken w ∧ w.blocked s.rw = false) := by
  have hasleep : AsleepBlocked s := run_invariant (I := AsleepBlocked)
    (fun t w h => by simp [init] at h) (fun _ _ _ _ h hstep => h.step hstep) hrun
  refine ⟨hasleep, fun hwaiting hnr hnw => ?_⟩
  obtain ⟨t, w, hw⟩ := hwaiting
  obtain ⟨q, h⟩ := logInv_of_run hrun hfit
  have hwriters : s.rw.currentWriters = 0 := h.queue.inactive hnw
  -- The counter is at most the number of readers, and nobody reads.
  have hreaders : s.rw.currentReaders = 0 := by
    have hle := h.readers_le
    have hnone : s.readers = 0 := by
      rw [LockState.readers, Finset.card_eq_zero]
      ext u
      simpa using hnr u
    rw [← UInt32.toNat_inj, UInt32.toNat_zero]
    omega
  -- Any thread that waits without being blocked is woken, because sleepers are blocked.
  have hfree : ∀ u v, (s.phase u).waiting = some v → v.blocked s.rw = false →
      ∃ t w, s.phase t = .woken w ∧ w.blocked s.rw = false := by
    intro u v hu hv
    cases hp : s.phase u with
    | asleep v' =>
        rw [hp] at hu
        cases hu
        rw [hasleep u v hp] at hv
        cases hv
    | woken v' =>
        rw [hp] at hu
        cases hu
        exact ⟨u, v, hp, hv⟩
    | _ => rw [hp] at hu; cases hu
  by_cases hquick : w = .quick
  · subst hquick
    exact hfree t .quick hw (by simp [Wait.blocked, hwriters])
  · -- A ticket access waits, so the queue has a head, and it is at its turn.
    have howned : (s.phase t).owned = some w := by
      cases hp : s.phase t <;> rw [hp] at hw <;> cases hw <;> cases w <;>
        first | rfl | exact absurd rfl hquick
    have hmem : (t, w) ∈ q := (h.queue.owns t w).mpr howned
    cases q with
    | nil => simp at hmem
    | cons e rest =>
        obtain ⟨u, v⟩ := e
        have hu : (s.phase u).owned = some v := (h.queue.owns u v).mp List.mem_cons_self
        have hturn : v.ticket = s.rw.nowServing := h.queue.tickets.1
        -- The head owns a ticket and does not write, so it waits.
        have hwait : (s.phase u).waiting = some v := by
          cases hp : s.phase u with
          | asleep v' => rw [hp] at hu; cases v' <;> cases hu <;> rfl
          | woken v' => rw [hp] at hu; cases v' <;> cases hu <;> rfl
          | writing k => exact absurd ⟨k, hp⟩ (hnw u)
          | _ => rw [hp] at hu; cases hu
        refine hfree u v hwait ?_
        cases v with
        | quick => simp [Wait.blocked, hwriters]
        | read k =>
            have hk : s.rw.nowServing = k := hturn.symm
            simp [Wait.blocked, hk]
        | write k => exact not_blocked_write.mpr ⟨hturn.symm, hreaders, hwriters⟩

/-- After a writer has left, the quick read and the next writer are woken and one of them
can go on. -/
theorem rwlock_no_lost_wakeup_after_writer :
    ∃ s : LockState (Fin 3), ∃ log,
      run step (init (Fin 3)) [.call 0 .write, .enter 0, .call 1 .write, .enter 1,
        .call 2 (.read true), .enter 2, .writeUnlock 0] = some (s, log) ∧
      ∃ t w, s.phase t = .woken w ∧ w.blocked s.rw = false := by
  have hrun : run step (init (Fin 3)) [.call 0 .write, .enter 0, .call 1 .write, .enter 1,
    .call 2 (.read true), .enter 2, .writeUnlock 0] = some (_, _) := rfl
  have h := rwlock_no_lost_wakeup _ _ _ hrun
    fun s _ => Nat.lt_of_le_of_lt s.outstanding_le_card (by decide)
  exact ⟨_, _, hrun, h.2 ⟨1, .write 1, rfl⟩ (by decide) (by decide)⟩

end SysProg.Kvs
