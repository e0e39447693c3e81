import Mathlib.Tactic.Common
import SysProg.Proofs.Kvs.RwLockQueue

/-!
# `SysProg.Proofs.Kvs.RwLockStep`: what one step of the lock can do

`Shape` lists what each action does, and `shape_of_step` is the one place where
`LockState.step` is unfolded. `step_rule` derives from it the rule for invariants, in which
a step is one of

* a move of a thread outside the queue and outside the lock (`Outside`),
* taking a ticket,
* one pass through a wait loop by a woken thread,
* `rwlock_read_unlock` or `rwlock_write_unlock`.

A lock function on its first entry is the second move followed by the third. The equations
`waitLoop_*` say what a pass through a wait loop does in each of its four cases.

The counting lemmas relate `current_readers` to the number of threads that hold the read
lock: `readers_move_enter`, `readers_move_leave` and `readers_move_other`.
-/

set_option autoImplicit false

namespace SysProg.Kvs

/-- A thread that holds nothing, owns no ticket and is not asleep. -/
def Phase.Outside (p : Phase) : Prop :=
  p.owned = none ∧ p ≠ .reading ∧ (∀ k, p ≠ .writing k) ∧ ∀ w, p ≠ .asleep w

namespace LockState

variable {Tid : Type} [DecidableEq Tid] {s s' : LockState Tid}

/-! ### The four ways through a wait loop -/

/-- A thread that is blocked sleeps, and the lock stays as it is. -/
theorem waitLoop_blocked {t : Tid} {w : Wait} (h : w.blocked s.rw = true) :
    s.waitLoop t w = (s.move s.rw t (.asleep w), []) := by
  unfold waitLoop
  rw [if_pos h]

/-- A quick read that is not blocked is admitted. It has no ticket, so the turn stays. -/
theorem waitLoop_quick {t : Tid} (h : Wait.quick.blocked s.rw = false) :
    s.waitLoop t .quick
      = ((s.move s.rw.admitQuick t .reading).broadcast, [.admitted t .quick]) := by
  simp [waitLoop, h]

/-- A read whose turn it is is admitted, and the turn goes on to the next ticket. -/
theorem waitLoop_read {t : Tid} {k : UInt64} (h : (Wait.read k).blocked s.rw = false) :
    s.waitLoop t (.read k)
      = ((s.move s.rw.admitRead t .reading).broadcast,
          [.admitted t (.read k), .advanced t (.read k)]) := by
  simp [waitLoop, h]

/-- A write whose turn it is is admitted. The turn stays until it unlocks. -/
theorem waitLoop_write {t : Tid} {k : UInt64} (h : (Wait.write k).blocked s.rw = false) :
    s.waitLoop t (.write k)
      = (s.move s.rw.admitWrite t (.writing k), [.admitted t (.write k)]) := by
  simp [waitLoop, h]

/-- A writer leaves its loop when its turn has come and the lock is free. -/
theorem not_blocked_write {rw : RwLock} {k : UInt64} :
    (Wait.write k).blocked rw = false
      ↔ rw.nowServing = k ∧ rw.currentReaders = 0 ∧ rw.currentWriters = 0 := by
  -- The counters are unsigned, so `count > 0` fails only at zero.
  have hzero : ∀ n : UInt32, n ≤ 0 ↔ n = 0 :=
    fun n => ⟨fun h => UInt32.le_antisymm h UInt32.zero_le, fun h => h ▸ UInt32.le_refl _⟩
  simp [Wait.blocked, hzero, and_assoc]

/-! ### The case analysis of a step -/

/-- What each action does, and where its thread has to be. -/
inductive Shape (s : LockState Tid) :
    LockAction Tid → LockState Tid → List (LockEvent Tid) → Prop
  | call {t : Tid} {a : Access} (hp : s.phase t = .idle) :
      Shape s (.call t a) (s.move s.rw t (.called a)) []
  | enterQuick {t : Tid} (hp : s.phase t = .called (.read true)) :
      Shape s (.enter t) (s.waitLoop t .quick).1 (s.waitLoop t .quick).2
  | enterRead {t : Tid} (hp : s.phase t = .called (.read false)) :
      Shape s (.enter t) (s.takeTicket t (.read s.rw.nextTicket)).1
        (s.takeTicket t (.read s.rw.nextTicket)).2
  | enterWrite {t : Tid} (hp : s.phase t = .called .write) :
      Shape s (.enter t) (s.takeTicket t (.write s.rw.nextTicket)).1
        (s.takeTicket t (.write s.rw.nextTicket)).2
  | wake {t : Tid} {w : Wait} (hp : s.phase t = .asleep w) :
      Shape s (.wake t) (s.move s.rw t (.woken w)) []
  | resume {t : Tid} {w : Wait} (hp : s.phase t = .woken w) :
      Shape s (.resume t) (s.waitLoop t w).1 (s.waitLoop t w).2
  | readUnlock {t : Tid} (hp : s.phase t = .reading) :
      Shape s (.readUnlock t) (s.rwlockReadUnlock t).1 []
  | writeUnlock {t : Tid} {k : UInt64} (hp : s.phase t = .writing k) :
      Shape s (.writeUnlock t) (s.rwlockWriteUnlock t k).1 [.advanced t (.write k)]

/-- The shape of a step, when its result is given by an equation. -/
theorem Shape.of_eq {a : LockAction Tid} {r : LockState Tid × List (LockEvent Tid)}
    {es : List (LockEvent Tid)} (h : Shape s a r.1 r.2) (heq : r = (s', es)) :
    Shape s a s' es := by
  subst heq
  exact h

/-- Every step has one of the shapes. The proofs about the lock have their cases, and they do not
open the functions again. -/
theorem shape_of_step {a : LockAction Tid} {es : List (LockEvent Tid)}
    (hstep : s.step a = some (s', es)) : Shape s a s' es := by
  cases a with
  | call t a =>
      cases hp : s.phase t <;> simp only [step, hp, reduceCtorEq, Option.some.injEq] at hstep
      exact (Shape.call hp).of_eq hstep
  | enter t =>
      cases hp : s.phase t <;> simp only [step, hp, reduceCtorEq] at hstep
      rename_i a
      cases a with
      | read quick =>
          cases quick with
          | false => exact (Shape.enterRead hp).of_eq (Option.some.inj hstep)
          | true => exact (Shape.enterQuick hp).of_eq (Option.some.inj hstep)
      | write => exact (Shape.enterWrite hp).of_eq (Option.some.inj hstep)
  | wake t =>
      cases hp : s.phase t <;> simp only [step, hp, reduceCtorEq, Option.some.injEq] at hstep
      exact (Shape.wake hp).of_eq hstep
  | resume t =>
      cases hp : s.phase t <;> simp only [step, hp, reduceCtorEq, Option.some.injEq] at hstep
      exact (Shape.resume hp).of_eq hstep
  | readUnlock t =>
      cases hp : s.phase t <;> simp only [step, hp, reduceCtorEq, Option.some.injEq] at hstep
      exact (Shape.readUnlock hp).of_eq hstep
  | writeUnlock t =>
      cases hp : s.phase t <;> simp only [step, hp, reduceCtorEq, Option.some.injEq] at hstep
      exact (Shape.writeUnlock hp).of_eq hstep

/-- The case rule for invariants. `I` may speak about the events so far. Each premise is one
of the moves a step is made of. The premise `loop` is about the state `s₁` the wait loop is
entered in, which is the state after the ticket was taken when the lock function has just
been called. -/
theorem step_rule {I : LockState Tid → List (LockEvent Tid) → Prop}
    {l es : List (LockEvent Tid)} {a : LockAction Tid} (hI : I s l)
    (hstep : s.step a = some (s', es))
    (move : ∀ t p, p.Outside → (s.phase t).Outside → I (s.move s.rw t p) l)
    (wake : ∀ t w, s.phase t = .asleep w → I (s.move s.rw t (.woken w)) l)
    (take : ∀ t w, w.ticket = s.rw.nextTicket → (Phase.woken w).owned = some w →
      (s.phase t).Outside →
      I (s.move s.rw.takeTicket t (.woken w)) (l ++ [.took t w]))
    (loop : ∀ s₁ l₁ t w, I s₁ l₁ → s₁.phase t = .woken w → s' = (s₁.waitLoop t w).1 →
      I s' (l₁ ++ (s₁.waitLoop t w).2))
    (readUnlock : ∀ t, s.phase t = .reading → I (s.rwlockReadUnlock t).1 l)
    (writeUnlock : ∀ t k, s.phase t = .writing k →
      I (s.rwlockWriteUnlock t k).1 (l ++ [.advanced t (.write k)])) :
    I s' (l ++ es) := by
  have hout : ∀ {t a}, s.phase t = .called a → (s.phase t).Outside := by
    intro t a hp
    simp [hp, Phase.Outside, Phase.owned]
  -- The ticket move and the wait loop, for a read and for a write.
  have ticket : ∀ t w, (s.phase t).Outside → w.ticket = s.rw.nextTicket →
      (Phase.woken w).owned = some w → s' = (s.takeTicket t w).1 →
      I s' (l ++ (s.takeTicket t w).2) := by
    intro t w hpt hw howned heq
    have hloop := loop (s.move s.rw.takeTicket t (.woken w)) (l ++ [.took t w]) t w
      (take t w hw howned hpt) (by simp)
    rw [waitLoop_move] at hloop
    simpa [takeTicket] using hloop heq
  cases shape_of_step hstep with
  | call hp =>
      rw [List.append_nil]
      exact move _ _ (by simp [Phase.Outside, Phase.owned])
        (by simp [hp, Phase.Outside, Phase.owned])
  | @enterQuick t hp =>
      -- A quick read enters its wait loop without a ticket.
      have hloop := loop (s.move s.rw t (.woken .quick)) l t .quick
        (move t _ (by simp [Phase.Outside, Phase.owned]) (hout hp)) (by simp)
      rw [waitLoop_move] at hloop
      exact hloop rfl
  | @enterRead t hp => exact ticket t _ (hout hp) rfl rfl rfl
  | @enterWrite t hp => exact ticket t _ (hout hp) rfl rfl rfl
  | wake hp =>
      rw [List.append_nil]
      exact wake _ _ hp
  | resume hp => exact loop s l _ _ hI hp rfl
  | readUnlock hp =>
      rw [List.append_nil]
      exact readUnlock _ hp
  | writeUnlock hp => exact writeUnlock _ _ hp

/-! ### The queue along one step -/

/-- A quick read that is admitted owns no ticket, and the queue stays. -/
theorem queue_admitQuick {q : List (Tid × Wait)} (h : QueueInv s q) {t : Tid}
    (ht : s.phase t = .woken .quick) : QueueInv (s.move s.rw.admitQuick t .reading) q :=
  h.move s.rw.admitQuick rfl rfl rfl (by rw [ht]; rfl) (by simp) (by simp [ht])

/-- A ticket read that its loop lets pass was the head of the queue. It leaves the queue and
passes the turn on, and no thread writes. -/
theorem queue_admitRead {q : List (Tid × Wait)} (h : QueueInv s q) (hlen : q.length ≤ 2 ^ 64)
    {t : Tid} {k : UInt64} (ht : s.phase t = .woken (.read k))
    (hb : (Wait.read k).blocked s.rw = false) :
    ∃ rest, q = (t, .read k) :: rest ∧ QueueInv (s.move s.rw.admitRead t .reading) rest ∧
      ∀ u, ¬ s.Writing u := by
  -- The loop of a ticket read waits for its turn and for nothing else.
  have hturn : s.rw.nowServing = k := by simpa [Wait.blocked] using hb
  obtain ⟨rest, rfl⟩ := h.head_of_turn hlen (t := t) (w := .read k) (by rw [ht]; rfl) hturn
  have hno : ∀ u, ¬ s.Writing u := h.not_writing_of_head (by simp [ht])
  exact ⟨rest, rfl, h.leave s.rw.admitRead rfl rfl rfl (h.inactive hno), hno⟩

/-- A writer that its loop lets pass is the head of the queue and becomes the active writer.
No thread wrote before. -/
theorem queue_admitWrite {q : List (Tid × Wait)} (h : QueueInv s q)
    (hlen : q.length ≤ 2 ^ 64) {t : Tid} {k : UInt64} (ht : s.phase t = .woken (.write k))
    (hb : (Wait.write k).blocked s.rw = false) :
    ∃ rest, q = (t, .write k) :: rest ∧
      QueueInv (s.move s.rw.admitWrite t (.writing k)) q ∧ ∀ u, ¬ s.Writing u := by
  obtain ⟨hturn, -, hwriters⟩ := not_blocked_write.mp hb
  obtain ⟨rest, rfl⟩ := h.head_of_turn hlen (t := t) (w := .write k) (by rw [ht]; rfl) hturn
  have hone : s.rw.admitWrite.currentWriters = 1 := by simp [RwLock.admitWrite, hwriters]
  exact ⟨rest, rfl, h.admitWrite s.rw.admitWrite rfl rfl hone (by simp [ht]),
    h.not_writing_of_head (by simp [ht])⟩

/-- A reader that leaves keeps the queue. -/
theorem queue_readUnlock {q : List (Tid × Wait)} (h : QueueInv s q) {t : Tid}
    (ht : s.phase t = .reading) : QueueInv (s.move s.rw.readUnlock t .idle) q :=
  h.move s.rw.readUnlock rfl rfl rfl (by rw [ht]; rfl) (by simp) (by simp [ht])

/-- It takes one off the number of readers, which does not go below zero. -/
theorem readUnlock_readers (rw : RwLock) :
    rw.readUnlock.currentReaders.toNat = rw.currentReaders.toNat - 1 := by
  show (if 0 < rw.currentReaders then rw.currentReaders - 1 else rw.currentReaders).toNat = _
  split
  · rename_i hpos
    -- The guard keeps the subtraction from wrapping.
    have hone : (1 : UInt32) ≤ rw.currentReaders := by
      rw [UInt32.lt_iff_toNat_lt, UInt32.toNat_zero] at hpos
      rw [UInt32.le_iff_toNat_le, UInt32.toNat_one]
      omega
    rw [UInt32.toNat_sub_of_le _ _ hone, UInt32.toNat_one]
  · rename_i hpos
    rw [UInt32.lt_iff_toNat_lt, UInt32.toNat_zero] at hpos
    omega

/-- `rwlock_write_unlock` takes the writer off the queue and passes its turn on. -/
theorem queue_writeUnlock {q : List (Tid × Wait)} (h : QueueInv s q) {t : Tid} {k : UInt64}
    (ht : s.phase t = .writing k) :
    ∃ rest, q = (t, .write k) :: rest ∧ QueueInv (s.move s.rw.writeUnlock t .idle) rest := by
  obtain ⟨rest, rfl⟩ := List.head?_eq_some_iff.mp (h.head t k ht)
  have hone : s.rw.currentWriters = 1 := h.active t ⟨k, ht⟩
  have hzero : s.rw.writeUnlock.currentWriters = 0 := by simp [RwLock.writeUnlock, hone]
  exact ⟨rest, rfl, h.leave s.rw.writeUnlock rfl rfl rfl hzero⟩

/-! ### Counting the readers -/

section Count
variable [Fintype Tid]

/-- A thread that starts to read is one reader more. -/
theorem readers_move_enter (s : LockState Tid) (rw : RwLock) {t : Tid}
    (ht : s.phase t ≠ .reading) : (s.move rw t .reading).readers = s.readers + 1 := by
  unfold readers
  -- The readers after the move are those before it and `t`.
  have heq : (Finset.univ.filter fun u => (s.move rw t .reading).phase u = .reading)
      = insert t (Finset.univ.filter fun u => s.phase u = .reading) := by
    ext u
    by_cases hu : u = t
    · subst hu; simp
    · simp [hu]
  rw [heq, Finset.card_insert_of_notMem (by simp [ht])]

/-- A reader that leaves is one reader less. -/
theorem readers_move_leave (s : LockState Tid) (rw : RwLock) {t : Tid} {p : Phase}
    (ht : s.phase t = .reading) (hp : p ≠ .reading) :
    (s.move rw t p).readers + 1 = s.readers := by
  have hback := readers_move_enter (s.move rw t p) s.rw (t := t) (by simpa using hp)
  rw [move_move] at hback
  rw [← hback]
  -- Entering again undoes the move.
  have hself : s.move s.rw t .reading = s := by
    unfold move
    rw [← ht, Function.update_eq_self]
  rw [hself]

/-- A move outside the read lock keeps the count. -/
theorem readers_move_other (s : LockState Tid) (rw : RwLock) {t : Tid} {p : Phase}
    (ht : s.phase t ≠ .reading) (hp : p ≠ .reading) :
    (s.move rw t p).readers = s.readers := by
  unfold readers
  congr 1
  ext u
  by_cases hu : u = t
  · subst hu; simp [ht, hp]
  · simp [hu]

omit [DecidableEq Tid] in
/-- A broadcast changes nobody's hold on the lock. -/
@[simp] theorem readers_broadcast (s : LockState Tid) : s.broadcast.readers = s.readers := by
  simp [readers]

omit [DecidableEq Tid] in
/-- With no reader counted, nobody reads. -/
theorem not_reading_of_readers_eq_zero (h : s.readers = 0) (t : Tid) :
    s.phase t ≠ .reading := by
  intro ht
  have hpos : 0 < s.readers := Finset.card_pos.mpr ⟨t, by simp [ht]⟩
  omega

omit [DecidableEq Tid] in
/-- No more threads read than there are threads. -/
theorem readers_le_card (s : LockState Tid) : s.readers ≤ Fintype.card Tid :=
  Finset.card_le_univ _

omit [DecidableEq Tid] in
/-- No more tickets are out than there are threads. -/
theorem outstanding_le_card (s : LockState Tid) : s.outstanding ≤ Fintype.card Tid :=
  Finset.card_le_univ _

end Count

end LockState

end SysProg.Kvs
