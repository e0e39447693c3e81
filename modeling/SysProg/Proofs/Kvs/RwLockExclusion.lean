import SysProg.Proofs.Kvs.RwLockStep

/-!
# `SysProg.Proofs.Kvs.RwLockExclusion`: readers and writers exclude each other

`LockInv` adds two facts to the queue: `current_readers` counts the threads that read, and
no thread reads beside a writer. A ticket read is admitted without a look at
`current_writers`. It is safe because its ticket is the head of the queue, and an active
writer would be the head itself.

The counters are machine integers, so `rwlock_exclusion` is about the runs whose states are
`InRange`: fewer than `2 ^ 32` threads hold the read lock at once, and fewer than `2 ^ 64`
tickets are out at once. The number of threads is arbitrary.
-/

set_option autoImplicit false

namespace SysProg.Kvs

open SysProg.Lib LockState

/-- How many threads hold the write lock. -/
def LockState.writers {Tid : Type} [Fintype Tid] (s : LockState Tid) : Nat :=
  (Finset.univ.filter fun t => (s.phase t).isWriting).card

/-- The counters of the lock do not overflow: fewer than `2 ^ 32` threads hold the read
lock, and fewer than `2 ^ 64` tickets are out. -/
def LockState.InRange {Tid : Type} [Fintype Tid] (s : LockState Tid) : Prop :=
  s.readers < 2 ^ 32 ∧ s.outstanding < 2 ^ 64

/-- With fewer than `2 ^ 32` threads no counter can overflow. -/
theorem LockState.inRange_of_card {Tid : Type} [Fintype Tid]
    (hcard : Fintype.card Tid < 2 ^ 32) (s : LockState Tid) : s.InRange := by
  have hreaders := s.readers_le_card
  have htickets := s.outstanding_le_card
  exact ⟨by omega, by omega⟩

section
variable {Tid : Type}

/-- The number of writers is `current_writers`. There is at most one, the one that the queue is
about. -/
theorem QueueInv.writers_eq [Fintype Tid] {s : LockState Tid} {q : List (Tid × Wait)}
    (h : QueueInv s q) : s.rw.currentWriters.toNat = s.writers := by
  by_cases hw : ∃ t, s.Writing t
  · obtain ⟨t, ht⟩ := hw
    have hone : (Finset.univ.filter fun u => (s.phase u).isWriting = true) = {t} := by
      ext u
      simp only [Finset.mem_filter, Finset.mem_univ, true_and, Finset.mem_singleton,
        s.isWriting_iff]
      exact ⟨fun hu => h.writer_unique hu ht, fun hu => hu ▸ ht⟩
    rw [h.active t ht, LockState.writers, hone]
    rfl
  · have hnone : (Finset.univ.filter fun u => (s.phase u).isWriting = true) = ∅ := by
      ext u
      simp only [Finset.mem_filter, Finset.mem_univ, true_and, s.isWriting_iff,
        Finset.notMem_empty, iff_false]
      exact fun hu => hw ⟨u, hu⟩
    rw [h.inactive fun t ht => hw ⟨t, ht⟩, LockState.writers, hnone]
    rfl

end

variable {Tid : Type} [Fintype Tid]

/-! ### Exclusion -/

/-- The invariant behind exclusion: the queue, an exact reader count, and no reader beside
a writer. -/
structure LockInv (s : LockState Tid) (q : List (Tid × Wait)) : Prop where
  queue : QueueInv s q
  bound : q.length ≤ 2 ^ 64
  exact : s.rw.currentReaders.toNat = s.readers
  alone : ∀ t u, s.Writing t → s.phase u ≠ .reading

namespace LockInv

variable {s : LockState Tid} {q : List (Tid × Wait)}

/-- At the start no thread is in the lock, and all counters are zero. -/
theorem init : LockInv (LockState.init Tid) [] where
  queue := QueueInv.init
  bound := Nat.zero_le _
  exact := by
    show 0 = (Finset.univ.filter fun t => (LockState.init Tid).phase t = .reading).card
    simp [LockState.init]
  alone t u h := by
    obtain ⟨k, hk⟩ := h
    simp [LockState.init] at hk

/-- A broadcast keeps the invariant. -/
theorem broadcast (h : LockInv s q) : LockInv s.broadcast q where
  queue := h.queue.broadcast
  bound := h.bound
  exact := by rw [broadcast_rw, readers_broadcast]; exact h.exact
  alone t u hw := by
    obtain ⟨k, hk⟩ := hw
    rw [broadcast_phase, ne_eq, Phase.wake_eq_reading]
    exact h.alone t u ⟨k, by simpa using hk⟩

variable [DecidableEq Tid]

/-- A thread that holds nothing before and after moves, with the same reader count. Neither of the
counters speaks of it. -/
theorem moveOutside {q' : List (Tid × Wait)} (h : LockInv s q) {t : Tid} {p : Phase}
    {rw : RwLock} (hq : QueueInv (s.move rw t p) q') (hlen : q'.length ≤ 2 ^ 64)
    (hcount : rw.currentReaders = s.rw.currentReaders) (ht : s.phase t ≠ .reading)
    (hp : p ≠ .reading) (hw : ∀ k, p ≠ .writing k) : LockInv (s.move rw t p) q' where
  queue := hq
  bound := hlen
  exact := by rw [move_rw, hcount, readers_move_other s rw ht hp]; exact h.exact
  alone u v hu := by
    obtain ⟨k, hk⟩ := hu
    have hut : u ≠ t := by
      intro heq
      subst heq
      rw [move_phase_self] at hk
      exact hw k hk
    rw [move_phase_ne _ _ _ hut] at hk
    by_cases hv : v = t
    · subst hv
      rw [move_phase_self]
      exact hp
    · rw [move_phase_ne _ _ _ hv]
      exact h.alone u v ⟨k, hk⟩

/-- A thread starts to read while nobody writes. The count of the readers goes up with it. -/
theorem admitReader {q' : List (Tid × Wait)} (h : LockInv s q) {t : Tid} {rw : RwLock}
    (hq : QueueInv (s.move rw t .reading) q') (hlen : q'.length ≤ 2 ^ 64)
    (hcount : rw.currentReaders = s.rw.currentReaders + 1)
    (hrange : (s.move rw t .reading).readers < 2 ^ 32) (ht : s.phase t ≠ .reading)
    (hno : ∀ u, ¬ s.Writing u) : LockInv (s.move rw t .reading) q' where
  queue := hq
  bound := hlen
  exact := by
    -- `++current_readers` is exact because the count after it fits in 32 bits.
    rw [readers_move_enter s rw ht] at hrange ⊢
    have hex := h.exact
    rw [move_rw, hcount, UInt32.toNat_add, UInt32.toNat_one, hex]
    exact Nat.mod_eq_of_lt hrange
  alone u v hu := by
    obtain ⟨k, hk⟩ := hu
    by_cases hut : u = t
    · subst hut
      simp at hk
    · rw [move_phase_ne _ _ _ hut] at hk
      exact absurd ⟨k, hk⟩ (hno u)

/-- One pass through a wait loop keeps the invariant. The thread goes to sleep, or its test says
that nobody is in its way. -/
theorem waitLoop (h : LockInv s q) {t : Tid} {w : Wait} (ht : s.phase t = .woken w)
    (hrange : (s.waitLoop t w).1.readers < 2 ^ 32) : ∃ q', LockInv (s.waitLoop t w).1 q' := by
  have hnr : s.phase t ≠ .reading := by simp [ht]
  cases hb : w.blocked s.rw with
  | true =>
      rw [waitLoop_blocked hb]
      -- The loop goes around again: the thread sleeps and keeps its ticket.
      have hq : QueueInv (s.move s.rw t (.asleep w)) q :=
        h.queue.move s.rw rfl rfl rfl (by rw [ht]; cases w <;> rfl) (by simp) (by simp [ht])
      exact ⟨q, h.moveOutside hq h.bound rfl hnr (by simp) (by simp)⟩
  | false =>
      cases w with
      | quick =>
          rw [waitLoop_quick hb] at hrange ⊢
          -- The only guard of a quick read is `current_writers > 0`.
          have hno : ∀ u, ¬ s.Writing u := by
            intro u hu
            have hpos := h.queue.currentWriters_pos_iff.mpr ⟨u, hu⟩
            simp [Wait.blocked, hpos] at hb
          rw [readers_broadcast] at hrange
          exact ⟨q, (h.admitReader (queue_admitQuick h.queue ht) h.bound rfl hrange hnr
            hno).broadcast⟩
      | read k =>
          -- A ticket read looks at `now_serving` only. `hno` comes from the queue.
          rw [waitLoop_read hb] at hrange ⊢
          obtain ⟨rest, rfl, hq, hno⟩ := queue_admitRead h.queue h.bound ht hb
          have hlen : rest.length ≤ 2 ^ 64 := by
            have := h.bound
            simp only [List.length_cons] at this
            omega
          rw [readers_broadcast] at hrange
          exact ⟨rest, (h.admitReader hq hlen rfl hrange hnr hno).broadcast⟩
      | write k =>
          rw [waitLoop_write hb]
          obtain ⟨rest, rfl, hq, hno⟩ := queue_admitWrite h.queue h.bound ht hb
          -- The writer goes in only when the counter says that nobody reads.
          have hzero : s.readers = 0 := by
            rw [← h.exact, (not_blocked_write.mp hb).2.1]
            rfl
          refine ⟨_, hq, h.bound, ?_, fun u v _ => ?_⟩
          · rw [readers_move_other s _ hnr (by simp)]
            exact h.exact
          · by_cases hv : v = t
            · subst hv
              simp
            · rw [move_phase_ne _ _ _ hv]
              exact not_reading_of_readers_eq_zero hzero v

/-- `rwlock_read_unlock` keeps the invariant. One reader less is active, and the count goes down
with it. -/
theorem readUnlock (h : LockInv s q) {t : Tid} (ht : s.phase t = .reading) :
    LockInv (s.rwlockReadUnlock t).1 q := by
  have hcount := readers_move_leave s s.rw.readUnlock (p := .idle) ht (by simp)
  have hex := h.exact
  have hidle : LockInv (s.move s.rw.readUnlock t .idle) q := by
    refine ⟨queue_readUnlock h.queue ht, h.bound, ?_, fun u v hu => ?_⟩
    · show s.rw.readUnlock.currentReaders.toNat = _
      rw [readUnlock_readers]
      omega
    · -- Nobody writes while `t` reads.
      obtain ⟨k, hk⟩ := hu
      by_cases hut : u = t
      · subst hut
        simp at hk
      · rw [move_phase_ne _ _ _ hut] at hk
        exact absurd ht (h.alone u t ⟨k, hk⟩)
  show LockInv (if s.rw.readUnlock.currentReaders = 0
    then (s.move s.rw.readUnlock t .idle).broadcast else s.move s.rw.readUnlock t .idle) q
  split
  · exact hidle.broadcast
  · exact hidle

/-- `rwlock_write_unlock` keeps the invariant. -/
theorem writeUnlock (h : LockInv s q) {t : Tid} {k : UInt64} (ht : s.phase t = .writing k) :
    ∃ rest, LockInv (s.rwlockWriteUnlock t k).1 rest := by
  obtain ⟨rest, rfl, hq⟩ := queue_writeUnlock h.queue ht
  have hlen : rest.length ≤ 2 ^ 64 := by
    have := h.bound
    simp only [List.length_cons] at this
    omega
  exact ⟨rest, (h.moveOutside hq hlen rfl (by simp [ht]) (by simp) (by simp)).broadcast⟩

/-- One step between states in range keeps the invariant. There is one case for each function of the
lock. -/
theorem step {s' : LockState Tid} {a : LockAction Tid} {es : List (LockEvent Tid)}
    (h : ∃ q, LockInv s q) (hs : s.outstanding < 2 ^ 64) (hs' : s'.readers < 2 ^ 32)
    (hstep : s.step a = some (s', es)) : ∃ q, LockInv s' q := by
  have hI := step_rule (I := fun s _ => ∃ q, LockInv s q) (l := []) h hstep
  obtain ⟨q, h⟩ := h
  -- The moves of `step_rule`: outside the lock, a wake-up, a ticket, a wait loop, two unlocks.
  refine hI (fun t p hp ht => ?_) (fun t w ht => ?_) (fun t w hw howned ht => ?_)
    (fun s₁ _ t w h₁ ht heq => ?_) (fun t ht => ⟨q, h.readUnlock ht⟩)
    (fun t k ht => h.writeUnlock ht)
  · have hq := h.queue.move (t := t) (p := p) s.rw rfl rfl rfl (by rw [hp.1, ht.1])
      hp.2.2.1 ht.2.2.1
    exact ⟨q, h.moveOutside hq h.bound rfl ht.2.1 hp.2.1 hp.2.2.1⟩
  · have hq := h.queue.move (t := t) (p := .woken w) s.rw rfl rfl rfl
      (by rw [ht]; cases w <;> rfl) (by simp) (by simp [ht])
    exact ⟨q, h.moveOutside hq h.bound rfl (by simp [ht]) (by simp) (by simp)⟩
  · have hlen : (q ++ [(t, w)]).length ≤ 2 ^ 64 := by
      rw [List.length_append, h.queue.length_eq]
      exact hs
    exact ⟨_, h.moveOutside (h.queue.takeTicket ht.1 hw howned) hlen rfl ht.2.1 (by simp)
      (by simp)⟩
  · subst heq
    obtain ⟨q₁, h₁⟩ := h₁
    exact h₁.waitLoop ht hs'

end LockInv

variable [DecidableEq Tid]

/-- The invariant holds at the end of every run in range. -/
theorem lockInv_of_run {acts : List (LockAction Tid)} {s : LockState Tid}
    {log : List (LockEvent Tid)} (hrun : run step (init Tid) acts = some (s, log))
    (hfit : ∀ s', Visits step (init Tid) acts s' → s'.InRange) : ∃ q, LockInv s q :=
  run_induction (I := fun s _ => ∃ q, LockInv s q) (P := InRange) ⟨[], LockInv.init⟩
    (fun _ _ _ _ _ hI hs hs' hstep => LockInv.step hI hs.2 hs'.1 hstep) acts hfit s log hrun

/-- Reader-writer exclusion. In every reachable state `current_readers` and
`current_writers` are the numbers of threads that hold the read lock and the write lock. At
most one thread writes, and none reads meanwhile. -/
theorem rwlock_exclusion (acts : List (LockAction Tid)) (s : LockState Tid)
    (log : List (LockEvent Tid)) (hrun : run step (init Tid) acts = some (s, log))
    (hfit : ∀ s', Visits step (init Tid) acts s' → s'.InRange) :
    s.rw.currentReaders.toNat = s.readers ∧ s.rw.currentWriters.toNat = s.writers ∧
      s.rw.currentWriters.toNat ≤ 1 ∧
      (s.rw.currentWriters.toNat = 1 → s.rw.currentReaders.toNat = 0) := by
  obtain ⟨q, h⟩ := lockInv_of_run hrun hfit
  refine ⟨h.exact, h.queue.writers_eq, h.queue.currentWriters_le_one, fun hone => ?_⟩
  -- The counter says that there is a writer, and beside it nobody reads.
  have hpos : 0 < s.rw.currentWriters := by
    rw [UInt32.lt_iff_toNat_lt, hone]
    decide
  obtain ⟨t, ht⟩ := h.queue.currentWriters_pos_iff.mp hpos
  have hempty : (Finset.univ.filter fun u => s.phase u = .reading) = ∅ := by
    ext u
    simpa using h.alone t u ht
  rw [h.exact, LockState.readers, hempty]
  rfl

/-- A quick read and a ticket read hold the lock together, and a writer waits. -/
theorem rwlock_exclusion_two_readers :
    ∃ s : LockState (Fin 3), ∃ log,
      run step (init (Fin 3)) [.call 0 (.read false), .call 1 .write, .enter 0, .enter 1,
        .call 2 (.read true), .enter 2] = some (s, log) ∧
      s.rw.currentReaders = 2 ∧ s.rw.currentReaders.toNat = s.readers ∧
      s.rw.currentWriters.toNat = s.writers := by
  have hrun : run step (init (Fin 3)) [.call 0 (.read false), .call 1 .write, .enter 0,
    .enter 1, .call 2 (.read true), .enter 2] = some (_, _) := rfl
  have h := rwlock_exclusion _ _ _ hrun fun s _ => s.inRange_of_card (by decide)
  exact ⟨_, _, hrun, by decide, h.1, h.2.1⟩

end SysProg.Kvs
