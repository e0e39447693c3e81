import Mathlib.Tactic.Common
import SysProg.Kvs.RwLock
import SysProg.Lib.TicketQueue

/-!
# `SysProg.Proofs.Kvs.RwLockQueue`: the ticket queue of the lock

`QueueInv s q` says that the list `q` is the FIFO queue of the state `s`: it lists, oldest
first, who owns the tickets from `now_serving` up to `next_ticket`. The owners are the
waiting non-quick accesses and the active writer. The active writer is the head.

Each critical section is a combination of four moves, and each move has one lemma:

* `QueueInv.congr`: a move that changes neither the tickets nor their owners;
* `QueueInv.takeTicket`: a thread takes a ticket and joins the queue;
* `QueueInv.admitRead` / `QueueInv.admitWrite`: the head of the queue gets the lock;
* `QueueInv.release`: the active writer passes the turn on.

`QueueInv.head_of_turn` is where FIFO order comes from: a ticket that equals `now_serving`
belongs to the head of the queue.
-/

set_option autoImplicit false

namespace SysProg.Kvs

open SysProg.Lib

/-! ### Phases under a broadcast -/

namespace Phase

@[simp] theorem owned_wake (p : Phase) : p.wake.owned = p.owned := by
  cases p with
  | asleep w => cases w <;> rfl
  | _ => rfl

@[simp] theorem waiting_wake (p : Phase) : p.wake.waiting = p.waiting := by
  cases p <;> rfl

@[simp] theorem wake_eq_writing (p : Phase) (k : UInt64) :
    p.wake = .writing k ↔ p = .writing k := by
  cases p <;> simp [wake]

@[simp] theorem wake_eq_reading (p : Phase) : p.wake = .reading ↔ p = .reading := by
  cases p <;> simp [wake]

@[simp] theorem wake_ne_asleep (p : Phase) (w : Wait) : p.wake ≠ .asleep w := by
  cases p <;> simp [wake]

/-- The active writer owns its ticket. -/
theorem owned_of_writing {p : Phase} {k : UInt64} (h : p = .writing k) :
    p.owned = some (.write k) := by
  rw [h]; rfl

end Phase

namespace LockState

variable {Tid : Type}

@[simp] theorem broadcast_rw (s : LockState Tid) : s.broadcast.rw = s.rw := rfl

@[simp] theorem broadcast_phase (s : LockState Tid) (t : Tid) :
    s.broadcast.phase t = (s.phase t).wake := rfl

variable [DecidableEq Tid]

@[simp] theorem move_rw (s : LockState Tid) (rw : RwLock) (t : Tid) (p : Phase) :
    (s.move rw t p).rw = rw := rfl

@[simp] theorem move_phase_self (s : LockState Tid) (rw : RwLock) (t : Tid) (p : Phase) :
    (s.move rw t p).phase t = p := by
  simp [move]

@[simp] theorem move_phase_ne (s : LockState Tid) (rw : RwLock) {t u : Tid} (p : Phase)
    (h : u ≠ t) : (s.move rw t p).phase u = s.phase u := by
  simp [move, h]

/-- A move of a thread that writes neither before nor after keeps the active writer. -/
theorem move_phase_eq_writing (s : LockState Tid) (rw : RwLock) {t : Tid} {p : Phase}
    (hp : ∀ k, p ≠ .writing k) (ht : ∀ k, s.phase t ≠ .writing k) (u : Tid) (k : UInt64) :
    (s.move rw t p).phase u = .writing k ↔ s.phase u = .writing k := by
  by_cases hu : u = t
  · subst hu; simp [hp, ht]
  · simp [hu]

/-- Moving a thread twice is moving it once. -/
@[simp] theorem move_move (s : LockState Tid) (rw rw' : RwLock) (t : Tid) (p p' : Phase) :
    (s.move rw t p).move rw' t p' = s.move rw' t p' := by
  simp [move]

/-- A pass through a wait loop does not depend on where the thread came from. A thread that
has just called the lock function behaves as a woken one. -/
theorem waitLoop_move (s : LockState Tid) (rw : RwLock) (t : Tid) (w : Wait) (p : Phase) :
    (s.move rw t p).waitLoop t w = waitLoop { s with rw := rw } t w := by
  unfold waitLoop
  by_cases hb : w.blocked rw
  · simp [hb, move]
  · cases w <;> simp [hb, move]

end LockState

/-- `q` is the FIFO queue of `s`. -/
structure QueueInv {Tid : Type} (s : LockState Tid) (q : List (Tid × Wait)) : Prop where
  owns : ∀ t w, (t, w) ∈ q ↔ (s.phase t).owned = some w
  nodup : q.Nodup
  tickets : Tickets s.rw.nowServing (q.map fun e => e.2.ticket)
  next : s.rw.nextTicket = s.rw.nowServing + UInt64.ofNat q.length
  head : ∀ t k, s.phase t = .writing k → q.head? = some (t, .write k)
  active : ∀ t, s.Writing t → s.rw.currentWriters = 1
  inactive : (∀ t, ¬ s.Writing t) → s.rw.currentWriters = 0

namespace QueueInv

variable {Tid : Type} {s s' : LockState Tid} {q : List (Tid × Wait)}

/-- The queue of the initial lock is empty. -/
theorem init : QueueInv (LockState.init Tid) [] where
  owns t w := by simp [LockState.init, Phase.owned]
  nodup := List.nodup_nil
  tickets := trivial
  next := rfl
  head t k h := by simp [LockState.init] at h
  active t h := by
    obtain ⟨k, hk⟩ := h
    simp [LockState.init] at hk
  inactive _ := rfl

/-- At most one thread writes, because the writer is the head of the queue. -/
theorem writer_unique (h : QueueInv s q) {t u : Tid} (ht : s.Writing t) (hu : s.Writing u) :
    t = u := by
  obtain ⟨k, hk⟩ := ht
  obtain ⟨l, hl⟩ := hu
  have heq := (h.head t k hk).symm.trans (h.head u l hl)
  simp only [Option.some.injEq, Prod.mk.injEq] at heq
  exact heq.1

/-- `current_writers` is never above one. -/
theorem currentWriters_le_one (h : QueueInv s q) : s.rw.currentWriters.toNat ≤ 1 := by
  by_cases hw : ∃ t, s.Writing t
  · obtain ⟨t, ht⟩ := hw
    rw [h.active t ht]
    decide
  · rw [h.inactive fun t ht => hw ⟨t, ht⟩]
    decide

/-- `current_writers` is positive exactly while some thread writes. -/
theorem currentWriters_pos_iff (h : QueueInv s q) :
    0 < s.rw.currentWriters ↔ ∃ t, s.Writing t := by
  by_cases hw : ∃ t, s.Writing t
  · obtain ⟨t, ht⟩ := hw
    rw [h.active t ht]
    exact ⟨fun _ => ⟨t, ht⟩, fun _ => by decide⟩
  · rw [h.inactive fun t ht => hw ⟨t, ht⟩]
    exact ⟨fun h0 => absurd h0 (by decide), fun hex => absurd hex hw⟩

/-- A ticket that is being served belongs to the head of the queue. -/
theorem head_of_turn (h : QueueInv s q) (hlen : q.length ≤ 2 ^ 64) {t : Tid} {w : Wait}
    (hmem : (s.phase t).owned = some w) (hturn : s.rw.nowServing = w.ticket) :
    ∃ rest, q = (t, w) :: rest :=
  Tickets.head_of_turn (fun e : Tid × Wait => e.2.ticket) h.tickets hlen
    ((h.owns t w).mpr hmem) hturn.symm

/-- While a waiting access is the head of the queue, no thread writes. -/
theorem not_writing_of_head {t : Tid} {w : Wait} {rest : List (Tid × Wait)}
    (h : QueueInv s ((t, w) :: rest)) (ht : ∀ k, s.phase t ≠ .writing k) (u : Tid) :
    ¬ s.Writing u := by
  rintro ⟨k, hk⟩
  have heq := h.head u k hk
  simp only [List.head?_cons, Option.some.injEq, Prod.mk.injEq] at heq
  exact ht k (heq.1 ▸ hk)

/-- A move that keeps the ticket counters, the writer count, the owner of every ticket and
the active writer keeps the queue. -/
theorem congr (h : QueueInv s q) (hnow : s'.rw.nowServing = s.rw.nowServing)
    (hnext : s'.rw.nextTicket = s.rw.nextTicket)
    (hwr : s'.rw.currentWriters = s.rw.currentWriters)
    (howned : ∀ t, (s'.phase t).owned = (s.phase t).owned)
    (hwriting : ∀ t k, s'.phase t = .writing k ↔ s.phase t = .writing k) :
    QueueInv s' q where
  owns t w := by rw [h.owns, howned]
  nodup := h.nodup
  tickets := by rw [hnow]; exact h.tickets
  next := by rw [hnow, hnext]; exact h.next
  head t k hk := h.head t k ((hwriting t k).mp hk)
  active t ht := by
    obtain ⟨k, hk⟩ := ht
    rw [hwr]
    exact h.active t ⟨k, (hwriting t k).mp hk⟩
  inactive hno := by
    rw [hwr]
    exact h.inactive fun t ⟨k, hk⟩ => hno t ⟨k, (hwriting t k).mpr hk⟩

/-- A broadcast keeps the queue. -/
theorem broadcast (h : QueueInv s q) : QueueInv s.broadcast q :=
  h.congr rfl rfl rfl (fun t => by simp) (fun t k => by simp)

variable [DecidableEq Tid]

/-- Moving a thread that neither writes before nor after, and that owns the same ticket
before and after, keeps the queue. So does any change of `current_readers`. -/
theorem move (h : QueueInv s q) {t : Tid} {p : Phase} (rw : RwLock)
    (hnow : rw.nowServing = s.rw.nowServing) (hnext : rw.nextTicket = s.rw.nextTicket)
    (hwr : rw.currentWriters = s.rw.currentWriters)
    (howned : p.owned = (s.phase t).owned) (hp : ∀ k, p ≠ .writing k)
    (ht : ∀ k, s.phase t ≠ .writing k) : QueueInv (s.move rw t p) q := by
  -- Only `t` changes its phase, and it owns the same ticket as before.
  refine h.congr hnow hnext hwr (fun u => ?_) (s.move_phase_eq_writing rw hp ht)
  by_cases hu : u = t
  · subst hu; simp [howned]
  · simp [hu]

/-- A thread outside the queue takes a ticket and joins the queue at its end. -/
theorem takeTicket (h : QueueInv s q) {t : Tid} {w : Wait}
    (hout : (s.phase t).owned = none) (hw : w.ticket = s.rw.nextTicket)
    (howned : (Phase.woken w).owned = some w) :
    QueueInv (s.move s.rw.takeTicket t (.woken w)) (q ++ [(t, w)]) where
  owns u v := by
    rw [List.mem_append, h.owns]
    by_cases hu : u = t
    · subst hu
      simp [hout, howned, eq_comm]
    · simp [hu]
  nodup := by
    refine List.Nodup.append h.nodup (List.nodup_singleton _) ?_
    intro e he he'
    rw [List.mem_singleton] at he'
    subst he'
    have := (h.owns t w).mp he
    rw [hout] at this
    cases this
  -- `next_ticket` is the number after the last ticket of the queue.
  tickets := by
    have hpush := h.tickets.push
    rw [List.length_map, ← h.next, ← hw] at hpush
    rw [List.map_append]
    exact hpush
  next := by
    show s.rw.nextTicket + 1 = s.rw.nowServing + UInt64.ofNat (q ++ [(t, w)]).length
    rw [h.next, List.length_append, UInt64.ofNat_add, ← UInt64.add_assoc]
    rfl
  head u k hk := by
    by_cases hu : u = t
    · subst hu; simp at hk
    -- An active writer is the head, and the new entry goes to the end.
    · have hk' : s.phase u = .writing k := by simpa [hu] using hk
      rw [List.head?_append, h.head u k hk']
      rfl
  active u hu := by
    obtain ⟨k, hk⟩ := hu
    by_cases hut : u = t
    · subst hut; simp at hk
    · exact h.active u ⟨k, by simpa [hut] using hk⟩
  inactive hno := by
    refine h.inactive fun u ⟨k, hk⟩ => ?_
    by_cases hut : u = t
    · subst hut
      rw [Phase.owned_of_writing hk] at hout
      cases hout
    · exact hno u ⟨k, by simpa [hut] using hk⟩

/-- The head of the queue leaves it and passes the turn on. Its new phase `p` owns no
ticket, and afterwards no thread writes. This is a reader that is admitted and a writer
that releases the lock. -/
theorem leave {t : Tid} {w : Wait} {rest : List (Tid × Wait)} {p : Phase} (rw : RwLock)
    (h : QueueInv s ((t, w) :: rest)) (howned : p.owned = none)
    (hnow : rw.nowServing = s.rw.nowServing + 1) (hnext : rw.nextTicket = s.rw.nextTicket)
    (hwr : rw.currentWriters = 0) :
    QueueInv (s.move rw t p) rest := by
  -- A writer other than `t` would be the head of the queue, and that is `t`.
  have hnot : ∀ u k, (s.move rw t p).phase u ≠ .writing k := by
    intro u k hk
    by_cases hu : u = t
    · subst hu
      rw [LockState.move_phase_self] at hk
      rw [hk] at howned
      cases howned
    · have hk' : s.phase u = .writing k := by simpa [hu] using hk
      have heq := h.head u k hk'
      simp only [List.head?_cons, Option.some.injEq, Prod.mk.injEq] at heq
      exact hu heq.1.symm
  refine ⟨fun u v => ?_, (List.nodup_cons.mp h.nodup).2, ?_, ?_,
    fun u k hk => absurd hk (hnot u k), fun u ⟨k, hk⟩ => absurd hk (hnot u k), fun _ => hwr⟩
  · by_cases hu : u = t
    · subst hu
      simp only [LockState.move_phase_self, howned, reduceCtorEq, iff_false]
      intro hmem
      -- A second entry of `t` in the queue would be the head itself.
      have hv := (h.owns u v).mp (List.mem_cons_of_mem _ hmem)
      have hw := (h.owns u w).mp List.mem_cons_self
      rw [hv, Option.some.injEq] at hw
      subst hw
      exact (List.nodup_cons.mp h.nodup).1 hmem
    · rw [LockState.move_phase_ne _ _ _ hu]
      rw [← h.owns u v]
      simp [hu]
  · show Tickets rw.nowServing (rest.map fun e => e.2.ticket)
    rw [hnow]
    exact h.tickets.pop
  · show rw.nextTicket = rw.nowServing + UInt64.ofNat rest.length
    rw [hnext, hnow, h.next, List.length_cons, Tickets.shift]

/-- The head of the queue becomes the active writer and keeps its ticket. Its turn ends when it
unlocks. -/
theorem admitWrite {t : Tid} {k : UInt64} {rest : List (Tid × Wait)} (rw : RwLock)
    (h : QueueInv s ((t, .write k) :: rest)) (hnow : rw.nowServing = s.rw.nowServing)
    (hnext : rw.nextTicket = s.rw.nextTicket) (hwr : rw.currentWriters = 1)
    (ht : ∀ k, s.phase t ≠ .writing k) :
    QueueInv (s.move rw t (.writing k)) ((t, .write k) :: rest) := by
  -- Nobody writes before, so `t` is the only writer after.
  have hno := h.not_writing_of_head ht
  refine ⟨fun u v => ?_, h.nodup, ?_, ?_, fun u l hl => ?_, fun _ _ => hwr, fun hnone => ?_⟩
  · rw [h.owns]
    by_cases hu : u = t
    · subst hu
      rw [(h.owns u (.write k)).mp List.mem_cons_self]
      simp [Phase.owned]
    · simp [hu]
  · show Tickets rw.nowServing _
    rw [hnow]
    exact h.tickets
  · show rw.nextTicket = rw.nowServing + _
    rw [hnow, hnext]
    exact h.next
  · by_cases hu : u = t
    · subst hu
      rw [LockState.move_phase_self, Phase.writing.injEq] at hl
      rw [← hl]
      rfl
    · rw [LockState.move_phase_ne _ _ _ hu] at hl
      exact absurd ⟨l, hl⟩ (hno u)
  · exact absurd ⟨k, by simp⟩ (hnone t)

omit [DecidableEq Tid] in
/-- No thread owns two tickets. -/
theorem owners_nodup (h : QueueInv s q) : (q.map Prod.fst).Nodup := by
  -- The phase of a thread holds one ticket, so a thread has one entry.
  have hinj : ∀ e ∈ q, ∀ e' ∈ q, e.1 = e'.1 → e = e' := by
    rintro ⟨t, w⟩ he ⟨u, v⟩ he' (rfl : t = u)
    have hw := (h.owns t w).mp he
    rw [(h.owns t v).mp he', Option.some.injEq] at hw
    rw [hw]
  exact List.Nodup.map_on (fun e he e' he' heq => hinj e he e' he' heq) h.nodup

/-- The length of the queue is the number of tickets that are out. -/
theorem length_eq [Fintype Tid] (h : QueueInv s q) : q.length = s.outstanding := by
  have hlen : (q.map Prod.fst).length = q.length := List.length_map Prod.fst
  -- Both numbers count the threads that own a ticket.
  rw [← hlen, ← List.toFinset_card_of_nodup h.owners_nodup]
  unfold LockState.outstanding
  congr 1
  ext t
  simp only [List.mem_toFinset, List.mem_map, Finset.mem_filter, Finset.mem_univ, true_and,
    Option.isSome_iff_exists]
  constructor
  · rintro ⟨⟨u, w⟩, he, rfl⟩
    exact ⟨w, (h.owns u w).mp he⟩
  · rintro ⟨w, hw⟩
    exact ⟨(t, w), (h.owns t w).mpr hw, rfl⟩

end QueueInv

end SysProg.Kvs
