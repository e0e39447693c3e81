import SysProg.Proofs.Kvs.RwLockStep

/-!
# `SysProg.Proofs.Kvs.RwLockFifo`: the ticket accesses are served in order

The log of a run lists the tickets taken, the grants and the moves of `now_serving`.
`LogInv` says how the three lists fit together: what was taken is what has passed followed
by the queue, and what was admitted is what has passed followed by the active writer.

`rwlock_fifo` reads the FIFO order off `LogInv`. The ticket counters are 64-bit and wrap, so
it is about the runs with fewer than `2 ^ 64` tickets out at any time.
-/

set_option autoImplicit false

namespace SysProg.Kvs

open SysProg.Lib LockState

section
variable {Tid : Type}

@[simp] theorem ticketsTaken_append (l l' : List (LockEvent Tid)) :
    ticketsTaken (l ++ l') = ticketsTaken l ++ ticketsTaken l' :=
  List.filterMap_append

@[simp] theorem ticketsAdmitted_append (l l' : List (LockEvent Tid)) :
    ticketsAdmitted (l ++ l') = ticketsAdmitted l ++ ticketsAdmitted l' :=
  List.filterMap_append

@[simp] theorem ticketsPassed_append (l l' : List (LockEvent Tid)) :
    ticketsPassed (l ++ l') = ticketsPassed l ++ ticketsPassed l' :=
  List.filterMap_append

/-- `active` lists the active writer, if there is one. -/
def ActiveWriter (s : LockState Tid) (active : List (Tid × Wait)) : Prop :=
  (active = [] ∧ ∀ t, ¬ s.Writing t) ∨
    ∃ t k, active = [(t, .write k)] ∧ s.phase t = .writing k

namespace ActiveWriter

variable {s s' : LockState Tid} {active : List (Tid × Wait)}

/-- The active writer stays when nobody starts or stops writing. -/
theorem congr (h : ActiveWriter s active)
    (hw : ∀ t k, s'.phase t = .writing k ↔ s.phase t = .writing k) :
    ActiveWriter s' active := by
  rcases h with ⟨rfl, hno⟩ | ⟨t, k, rfl, hk⟩
  · exact Or.inl ⟨rfl, fun t ⟨k, hk⟩ => hno t ⟨k, (hw t k).mp hk⟩⟩
  · exact Or.inr ⟨t, k, rfl, (hw t k).mpr hk⟩

/-- Without a writer the list is empty. -/
theorem eq_nil (h : ActiveWriter s active) (hno : ∀ t, ¬ s.Writing t) : active = [] := by
  rcases h with ⟨rfl, -⟩ | ⟨t, k, -, hk⟩
  · rfl
  · exact absurd ⟨k, hk⟩ (hno t)

/-- The active writer is the head of the queue. -/
theorem prefix_queue (h : ActiveWriter s active) {q : List (Tid × Wait)}
    (hq : QueueInv s q) : active <+: q := by
  rcases h with ⟨rfl, -⟩ | ⟨t, k, rfl, hk⟩
  · exact List.nil_prefix
  · obtain ⟨rest, rfl⟩ := List.head?_eq_some_iff.mp (hq.head t k hk)
    exact ⟨rest, rfl⟩

end ActiveWriter

end

variable {Tid : Type} [DecidableEq Tid] [Fintype Tid]

/-- The log, the queue and the counters fit together. -/
structure LogInv (s : LockState Tid) (log : List (LockEvent Tid)) (q : List (Tid × Wait)) :
    Prop where
  queue : QueueInv s q
  bound : q.length ≤ 2 ^ 64
  readers_le : s.rw.currentReaders.toNat ≤ s.readers
  taken : ticketsTaken log = ticketsPassed log ++ q
  numbered : Tickets 0 ((ticketsTaken log).map fun e => e.2.ticket)
  served : s.rw.nowServing = UInt64.ofNat (ticketsPassed log).length
  admitted : ∃ active, ticketsAdmitted log = ticketsPassed log ++ active ∧
    ActiveWriter s active

namespace LogInv

variable {s : LockState Tid} {log : List (LockEvent Tid)} {q : List (Tid × Wait)}

omit [DecidableEq Tid] in
/-- At the start no ticket is out and nothing is logged. -/
theorem init : LogInv (LockState.init Tid) [] [] where
  queue := QueueInv.init
  bound := Nat.zero_le _
  readers_le := Nat.zero_le _
  taken := rfl
  numbered := trivial
  served := rfl
  admitted := ⟨[], rfl, Or.inl ⟨rfl, fun t ⟨k, hk⟩ => by simp [LockState.init] at hk⟩⟩

omit [DecidableEq Tid] in
/-- `next_ticket` counts the tickets taken. -/
theorem handedOut (h : LogInv s log q) :
    s.rw.nextTicket = UInt64.ofNat (ticketsTaken log).length := by
  rw [h.queue.next, h.served, h.taken, List.length_append, UInt64.ofNat_add]

omit [DecidableEq Tid] in
/-- The queue behind its first access is in the bound, too. -/
theorem length_tail {x : Tid × Wait} (h : LogInv s log (x :: q)) : q.length ≤ 2 ^ 64 :=
  (Nat.le_succ q.length).trans h.bound

omit [DecidableEq Tid] in
/-- `now_serving` when one more turn has passed. -/
theorem served_succ (h : LogInv s log q) {log' : List (LockEvent Tid)} {x : Tid × Wait}
    (hpassed : ticketsPassed log' = ticketsPassed log ++ [x]) :
    s.rw.nowServing + 1 = UInt64.ofNat (ticketsPassed log').length := by
  rw [h.served, hpassed, List.length_append, UInt64.ofNat_add]
  rfl

omit [DecidableEq Tid] in
/-- A broadcast keeps the invariant. -/
theorem broadcast (h : LogInv s log q) : LogInv s.broadcast log q where
  queue := h.queue.broadcast
  bound := h.bound
  readers_le := by rw [broadcast_rw, readers_broadcast]; exact h.readers_le
  taken := h.taken
  numbered := h.numbered
  served := h.served
  admitted := by
    obtain ⟨active, hadm, hact⟩ := h.admitted
    exact ⟨active, hadm, hact.congr fun t k => by simp⟩

/-- A thread that holds nothing and owns the same ticket before and after moves. -/
theorem moveOutside (h : LogInv s log q) {t : Tid} {p : Phase}
    (howned : p.owned = (s.phase t).owned) (ht : s.phase t ≠ .reading) (hp : p ≠ .reading)
    (hpw : ∀ k, p ≠ .writing k) (htw : ∀ k, s.phase t ≠ .writing k) :
    LogInv (s.move s.rw t p) log q where
  queue := h.queue.move s.rw rfl rfl rfl howned hpw htw
  bound := h.bound
  readers_le := by rw [readers_move_other s s.rw ht hp]; exact h.readers_le
  taken := h.taken
  numbered := h.numbered
  served := h.served
  admitted := by
    obtain ⟨active, hadm, hact⟩ := h.admitted
    exact ⟨active, hadm, hact.congr (s.move_phase_eq_writing s.rw hpw htw)⟩

/-- Taking a ticket. It is the next number, so it goes to the end of the queue. -/
theorem takeTicket (h : LogInv s log q) (hout : s.outstanding < 2 ^ 64) {t : Tid} {w : Wait}
    (hw : w.ticket = s.rw.nextTicket) (howned : (Phase.woken w).owned = some w)
    (ht : (s.phase t).Outside) :
    LogInv (s.move s.rw.takeTicket t (.woken w)) (log ++ [.took t w]) (q ++ [(t, w)]) where
  queue := h.queue.takeTicket ht.1 hw howned
  bound := by
    rw [List.length_append, h.queue.length_eq]
    exact hout
  readers_le := by
    rw [readers_move_other s _ ht.2.1 (by simp)]
    exact h.readers_le
  taken := by
    -- The new ticket comes last in the log and last in the queue.
    rw [ticketsTaken_append, ticketsPassed_append, h.taken]
    simp [ticketsTaken, ticketsPassed]
  numbered := by
    have hpush := h.numbered.push
    rw [List.length_map, UInt64.zero_add, ← h.handedOut, ← hw] at hpush
    rw [ticketsTaken_append, List.map_append]
    exact hpush
  served := by
    rw [ticketsPassed_append]
    simpa [ticketsPassed, RwLock.takeTicket] using h.served
  admitted := by
    obtain ⟨active, hadm, hact⟩ := h.admitted
    refine ⟨active, ?_, hact.congr (s.move_phase_eq_writing _ (by simp) ht.2.2.1)⟩
    rw [ticketsAdmitted_append, ticketsPassed_append, hadm]
    simp [ticketsAdmitted, ticketsPassed]

/-- One more reader of either kind keeps the counter below the count. -/
theorem readers_le_enter (h : LogInv s log q) {t : Tid} {rw : RwLock}
    (hrw : rw.currentReaders = s.rw.currentReaders + 1) (ht : s.phase t ≠ .reading) :
    (s.move rw t .reading).rw.currentReaders.toNat ≤ (s.move rw t .reading).readers := by
  rw [readers_move_enter s rw ht, move_rw, hrw, UInt32.toNat_add, UInt32.toNat_one]
  have := h.readers_le
  omega

/-- One pass through a wait loop keeps the invariant. A read or a write that is admitted has the
ticket that is served, which is the head of the queue. -/
theorem waitLoop (h : LogInv s log q) {t : Tid} {w : Wait} (ht : s.phase t = .woken w) :
    ∃ q', LogInv (s.waitLoop t w).1 (log ++ (s.waitLoop t w).2) q' := by
  have hnr : s.phase t ≠ .reading := by simp [ht]
  have hnw : ∀ k, s.phase t ≠ .writing k := by simp [ht]
  obtain ⟨active, hadm, hact⟩ := h.admitted
  cases hb : w.blocked s.rw with
  | true =>
      rw [waitLoop_blocked hb, List.append_nil]
      exact ⟨q, h.moveOutside (by rw [ht]; cases w <;> rfl) hnr (by simp) (by simp) hnw⟩
  | false =>
      cases w with
      | quick =>
          -- A quick read leaves no trace in the three lists.
          rw [waitLoop_quick hb]
          refine ⟨q, broadcast ⟨queue_admitQuick h.queue ht, h.bound,
            h.readers_le_enter rfl hnr, ?_, ?_, ?_, active, ?_, ?_⟩⟩
          · simpa [ticketsTaken, ticketsPassed] using h.taken
          · simpa [ticketsTaken] using h.numbered
          · simpa [ticketsPassed, RwLock.admitQuick] using h.served
          · simpa [ticketsAdmitted, ticketsPassed] using hadm
          · exact hact.congr (s.move_phase_eq_writing _ (by simp) hnw)
      | read k =>
          -- A ticket read is admitted and passes the turn in the same critical section.
          rw [waitLoop_read hb]
          obtain ⟨rest, rfl, hq, hno⟩ := queue_admitRead h.queue h.bound ht hb
          have hnil := hact.eq_nil hno
          refine ⟨rest, broadcast ⟨hq, h.length_tail, h.readers_le_enter rfl hnr, ?_, ?_, ?_, [],
            ?_, ?_⟩⟩
          · simpa [ticketsTaken, ticketsPassed] using h.taken
          · simpa [ticketsTaken] using h.numbered
          · exact h.served_succ (ticketsPassed_append _ _)
          · simp only [ticketsAdmitted_append, ticketsPassed_append, hadm, hnil]
            simp [ticketsAdmitted, ticketsPassed]
          · refine Or.inl ⟨rfl, fun u ⟨l, hl⟩ => hno u ⟨l, ?_⟩⟩
            exact (s.move_phase_eq_writing _ (by simp) hnw u l).mp hl
      | write k =>
          -- A writer is admitted here and passes the turn only when it unlocks.
          rw [waitLoop_write hb]
          obtain ⟨rest, rfl, hq, hno⟩ := queue_admitWrite h.queue h.bound ht hb
          have hnil := hact.eq_nil hno
          refine ⟨_, hq, h.bound, ?_, ?_, ?_, ?_, [(t, .write k)], ?_, ?_⟩
          · rw [readers_move_other s _ hnr (by simp)]
            exact h.readers_le
          · simpa [ticketsTaken, ticketsPassed] using h.taken
          · simpa [ticketsTaken] using h.numbered
          · simpa [ticketsPassed, RwLock.admitWrite] using h.served
          · simp only [ticketsAdmitted_append, ticketsPassed_append, hadm, hnil]
            simp [ticketsAdmitted, ticketsPassed]
          · exact Or.inr ⟨t, k, rfl, by simp⟩

/-- `rwlock_read_unlock` keeps the invariant. -/
theorem readUnlock (h : LogInv s log q) {t : Tid} (ht : s.phase t = .reading) :
    LogInv (s.rwlockReadUnlock t).1 log q := by
  have hle := h.readers_le
  have hcount := readers_move_leave s s.rw.readUnlock (p := .idle) ht (by simp)
  have hidle : LogInv (s.move s.rw.readUnlock t .idle) log q := by
    obtain ⟨active, hadm, hact⟩ := h.admitted
    refine ⟨queue_readUnlock h.queue ht, h.bound, ?_, h.taken, h.numbered, h.served, active, hadm,
      hact.congr (s.move_phase_eq_writing _ (by simp) (by simp [ht]))⟩
    show s.rw.readUnlock.currentReaders.toNat ≤ _
    rw [readUnlock_readers]
    omega
  show LogInv (if s.rw.readUnlock.currentReaders = 0
    then (s.move s.rw.readUnlock t .idle).broadcast else s.move s.rw.readUnlock t .idle) log q
  split
  · exact hidle.broadcast
  · exact hidle

/-- `rwlock_write_unlock` passes the turn of the active writer. The next ticket is then the one
behind it in the queue. -/
theorem writeUnlock (h : LogInv s log q) {t : Tid} {k : UInt64}
    (ht : s.phase t = .writing k) :
    ∃ q', LogInv (s.rwlockWriteUnlock t k).1 (log ++ [.advanced t (.write k)]) q' := by
  obtain ⟨rest, rfl, hq⟩ := queue_writeUnlock h.queue ht
  obtain ⟨active, hadm, hact⟩ := h.admitted
  -- Of the accesses admitted, only `t` has not passed its turn yet.
  have hone : active = [(t, .write k)] := by
    rcases hact with ⟨-, hno⟩ | ⟨u, l, rfl, hl⟩
    · exact absurd ⟨k, ht⟩ (hno t)
    · obtain rfl := h.queue.writer_unique ⟨l, hl⟩ ⟨k, ht⟩
      rw [ht, Phase.writing.injEq] at hl
      rw [hl]
  refine ⟨rest, broadcast ⟨hq, h.length_tail, ?_, ?_, ?_, ?_, [], ?_, Or.inl ⟨rfl, fun u hu => ?_⟩⟩⟩
  · rw [readers_move_other s _ (by simp [ht]) (by simp)]
    exact h.readers_le
  · simpa [ticketsTaken, ticketsPassed] using h.taken
  · simpa [ticketsTaken] using h.numbered
  · exact h.served_succ (ticketsPassed_append _ _)
  · simp only [ticketsAdmitted_append, ticketsPassed_append, hadm, hone]
    simp [ticketsAdmitted, ticketsPassed]
  · -- `t` was the only writer.
    obtain ⟨l, hl⟩ := hu
    by_cases hut : u = t
    · subst hut
      simp at hl
    · rw [move_phase_ne _ _ _ hut] at hl
      exact hut (h.queue.writer_unique ⟨l, hl⟩ ⟨k, ht⟩)

/-- One step from a state with fewer than `2 ^ 64` tickets out keeps the invariant. -/
theorem step {s' : LockState Tid} {a : LockAction Tid} {es : List (LockEvent Tid)}
    (h : ∃ q, LogInv s log q) (hs : s.outstanding < 2 ^ 64)
    (hstep : s.step a = some (s', es)) : ∃ q, LogInv s' (log ++ es) q := by
  have hI := step_rule (I := fun s log => ∃ q, LogInv s log q) h hstep
  obtain ⟨q, h⟩ := h
  -- The moves of `step_rule`, as in `LockInv.step`.
  refine hI (fun t p hp ht => ?_) (fun t w ht => ?_) (fun t w hw howned ht => ?_)
    (fun s₁ log₁ t w h₁ ht heq => ?_) (fun t ht => ⟨q, h.readUnlock ht⟩)
    (fun t k ht => h.writeUnlock ht)
  · exact ⟨q, h.moveOutside (by rw [hp.1, ht.1]) ht.2.1 hp.2.1 hp.2.2.1 ht.2.2.1⟩
  · exact ⟨q, h.moveOutside (by rw [ht]; cases w <;> rfl) (by simp [ht]) (by simp) (by simp)
      (by simp [ht])⟩
  · exact ⟨_, h.takeTicket hs hw howned ht⟩
  · subst heq
    obtain ⟨q₁, h₁⟩ := h₁
    exact h₁.waitLoop ht

end LogInv

/-- The invariant holds at the end of every run with fewer than `2 ^ 64` tickets out. -/
theorem logInv_of_run {acts : List (LockAction Tid)} {s : LockState Tid}
    {log : List (LockEvent Tid)} (hrun : run step (init Tid) acts = some (s, log))
    (hfit : ∀ s', Visits step (init Tid) acts s' → s'.outstanding < 2 ^ 64) :
    ∃ q, LogInv s log q :=
  run_induction (I := fun s log => ∃ q, LogInv s log q)
    (P := fun s => s.outstanding < 2 ^ 64) ⟨[], LogInv.init⟩
    (fun _ _ _ _ _ hI hs _ hstep => LogInv.step hI hs hstep) acts hfit s log hrun

omit [DecidableEq Tid] [Fintype Tid] in
/-- The ticket accesses of a run in FIFO order. `queue` lists who owns the tickets from
`now_serving` up to `next_ticket`. -/
structure FifoOrder (s : LockState Tid) (log : List (LockEvent Tid))
    (queue : List (Tid × Wait)) : Prop where
  /-- The grants follow the order of the tickets, without a gap. -/
  in_order : ticketsAdmitted log <+: ticketsTaken log
  /-- The `i`-th ticket is `i`, modulo `2 ^ 64`. -/
  numbered : ∀ (i : Nat) (hi : i < (ticketsTaken log).length),
    (ticketsTaken log)[i].2.ticket = UInt64.ofNat i
  /-- Every granted access has moved `now_serving` on once, except an active writer. -/
  advances : ∃ active, ticketsAdmitted log = ticketsPassed log ++ active ∧
    ActiveWriter s active
  now_serving : s.rw.nowServing = UInt64.ofNat (ticketsPassed log).length
  next_ticket : s.rw.nextTicket = UInt64.ofNat (ticketsTaken log).length
  /-- The tickets that are out are those of the queue. -/
  outstanding : ticketsTaken log = ticketsPassed log ++ queue
  consecutive : ∀ (i : Nat) (hi : i < queue.length),
    queue[i].2.ticket = s.rw.nowServing + UInt64.ofNat i
  /-- The owners are the waiting non-quick threads and the active writer. -/
  owned : ∀ t w, (t, w) ∈ queue ↔ (s.phase t).owned = some w
  owners_nodup : (queue.map Prod.fst).Nodup
  tickets_nodup : (queue.map fun e => e.2.ticket).Nodup

/-- Strict FIFO among the non-quick accesses, in every run with any number of threads and
fewer than `2 ^ 64` tickets out at once. -/
theorem rwlock_fifo (acts : List (LockAction Tid)) (s : LockState Tid)
    (log : List (LockEvent Tid)) (hrun : run step (init Tid) acts = some (s, log))
    (hfit : ∀ s', Visits step (init Tid) acts s' → s'.outstanding < 2 ^ 64) :
    ∃ queue, FifoOrder s log queue := by
  obtain ⟨q, h⟩ := logInv_of_run hrun hfit
  obtain ⟨active, hadm, hact⟩ := h.admitted
  refine ⟨q, ?_, fun i hi => ?_, ⟨active, hadm, hact⟩, h.served, h.handedOut, h.taken,
    fun i hi => ?_, h.queue.owns, h.queue.owners_nodup,
    h.queue.tickets.nodup (by rw [List.length_map]; exact h.bound)⟩
  · rw [hadm, h.taken]
    -- What is admitted beyond the passed turns is the head of the queue.
    exact (List.prefix_append_right_inj _).mpr (hact.prefix_queue h.queue)
  · have hget := h.numbered.getElem i (by simpa using hi)
    rwa [List.getElem_map, UInt64.zero_add] at hget
  · have hget := h.queue.tickets.getElem i (by simpa using hi)
    rwa [List.getElem_map] at hget

/-- A read passes its turn to a writer at lock time, and a quick read goes past both. -/
theorem rwlock_fifo_read_then_write :
    ∃ s : LockState (Fin 3), ∃ log queue,
      run step (init (Fin 3)) [.call 0 (.read false), .enter 0, .call 1 .write, .enter 1,
        .call 2 (.read true), .enter 2, .readUnlock 2, .readUnlock 0, .resume 1]
        = some (s, log) ∧
      ticketsAdmitted log = [(0, .read 0), (1, .write 1)] ∧ FifoOrder s log queue := by
  have hrun : run step (init (Fin 3)) [.call 0 (.read false), .enter 0, .call 1 .write,
    .enter 1, .call 2 (.read true), .enter 2, .readUnlock 2, .readUnlock 0, .resume 1]
      = some (_, _) := rfl
  obtain ⟨queue, h⟩ := rwlock_fifo _ _ _ hrun
    fun s _ => Nat.lt_of_le_of_lt s.outstanding_le_card (by decide)
  exact ⟨_, _, queue, hrun, by decide, h⟩

end SysProg.Kvs
