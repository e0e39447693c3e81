import SysProg.Proofs.Kvs.SharedStep

/-!
# `SysProg.Proofs.Kvs.SharedLinear`: the shared table is linearizable

An operation takes effect when it releases the lock of its bucket, which is when it returns.
So the order of the returns is the linearization. `LinInv` ties the history to the invariant:
the completed operations lead the map from empty to the map `m` of `SharedInv`, one at a
time, with the outcomes they returned.

`shared_table_linearizable` is the main result. It also says that no thread touches a dead
node, and that a thread holds the lock of its own bucket only, until it returns.
-/

set_option autoImplicit false

namespace SysProg.Kvs

open SysProg.Lib

variable {Tid : Type} [Fintype Tid] [DecidableEq Tid]

/-- The invariant of the table together with the history of the calls. -/
structure LinInv (s : Shared Tid) (log : List (HistoryEvent Tid Request Outcome)) : Prop where
  /-- The open operation of each thread in the history is the one it works on. -/
  pending : ∀ t, ((scan log).pending t).map Prod.fst = (s.pc t).request
  inv : ∃ ps m, SharedInv s ps m ∧ Legal Request.Spec (fun _ => none) (completed log) m

namespace LinInv

variable {s s' : Shared Tid} {log es : List (HistoryEvent Tid Request Outcome)}

/-- At the start the history is empty, and so is its linearization. -/
theorem init {n : UInt64} (hpos : 0 < n) (hle : n ≤ 2147483647) :
    LinInv (Shared.init Tid n) [] where
  pending _ := rfl
  inv := by
    have hrep := Rep.init hpos hle
    refine ⟨fun _ => [], fun _ => none, ?_, rfl⟩
    exact
      { pos := hpos
        le := hle
        null := rfl
        lock := fun _ => ⟨[], LockInv.init⟩
        away := fun _ _ _ => rfl
        locking := fun _ _ h => by cases h
        holds := fun _ _ h => by cases h
        bucket := fun i hi x hx => by
          rcases hx with ⟨t, ⟨k, hk⟩, -⟩ | ⟨-, rfl⟩
          · cases hk
          · exact hrep.bucket i hi
        locals := fun _ _ h => by cases h
        noFault := fun _ h => by cases h
        live := fun _ _ h => by cases h }

/-- A step without an event keeps the requests. -/
theorem silent (h : LinInv s log) (hreq : ∀ u, (s'.pc u).request = (s.pc u).request)
    (hinv : ∀ ps m, SharedInv s ps m → ∃ ps', SharedInv s' ps' m) : LinInv s' (log ++ []) := by
  rw [List.append_nil]
  obtain ⟨ps, m, hs, hlegal⟩ := h.inv
  obtain ⟨ps', hs'⟩ := hinv ps m hs
  exact ⟨fun u => (h.pending u).trans (hreq u).symm, ps', m, hs', hlegal⟩

/-- Every step keeps the invariant. The access that takes effect is the point at which the operation
stands in the linearization. -/
theorem step (hcard : Fintype.card Tid < 2 ^ 32) {a : SharedAction Tid} (h : LinInv s log)
    (hstep : s.step a = some (s', es)) : LinInv s' (log ++ es) := by
  cases a with
  | call t r =>
      simp only [Shared.step] at hstep
      split at hstep
      · rename_i hpc
        obtain ⟨s₁, hlock, heq⟩ := Option.map_eq_some_iff.mp hstep
        cases heq
        obtain ⟨ps, m, hs, hlegal⟩ := h.inv
        refine ⟨fun u => ?_, ps, m, hs.call hcard hpc hlock, ?_⟩
        · obtain ⟨l, -, rfl⟩ := Option.map_eq_some_iff.mp hlock
          rw [scan_snoc]
          by_cases hut : u = t
          · subst hut
            rw [Shared.setPc_pc_self]
            simp [Scan.next, Pc.request]
          · rw [Shared.setPc_pc_ne _ _ _ hut]
            simpa [Scan.next, hut] using h.pending u
        · rw [completed, scan_snoc]
          exact hlegal
      · cases hstep
  | lock t move =>
      simp only [Shared.step] at hstep
      split at hstep
      · rename_i r hpc
        obtain ⟨hlock, rfl⟩ := silent_eq_some hstep
        -- A move inside the lock function changes the lock only.
        refine h.silent (fun u => ?_) fun ps m hs => ⟨ps, hs.lockMove hcard hpc hlock⟩
        obtain ⟨l, -, rfl⟩ := Option.map_eq_some_iff.mp hlock
        rfl
      · cases hstep
  | work t mem =>
      simp only [Shared.step] at hstep
      split at hstep
      · cases hstep
      · rename_i hdead
        obtain ⟨hwork, rfl⟩ := silent_eq_some hstep
        -- The guard of the step: `malloc` does not return a live node.
        have hfit : s.table.nodes mem.node = none := by simpa using hdead
        obtain ⟨ps, m, hs, -⟩ := h.inv
        exact h.silent (hs.work hfit hwork).2 fun ps m hs => (hs.work hfit hwork).1
  | release t =>
      simp only [Shared.step] at hstep
      split at hstep
      · rename_i r o hpc
        obtain ⟨s₁, hlock, heq⟩ := Option.map_eq_some_iff.mp hstep
        cases heq
        obtain ⟨ps, m, hs, hlegal⟩ := h.inv
        -- The history has the operation of the thread open.
        have hopen := h.pending t
        rw [hpc] at hopen
        obtain ⟨⟨r', start⟩, hscan, hr'⟩ := Option.map_eq_some_iff.mp hopen
        have hrr : r' = r := hr'
        subst hrr
        -- The thread has its reply from the map it saw under the lock.
        have hreply : o.reply = (r'.op.apply m o.allocated).2 := by
          have hloc := hs.locals t r' (by rw [hpc]; rfl)
          rw [hpc] at hloc
          exact hloc
        refine ⟨fun u => ?_, ps, (r'.op.apply m o.allocated).1, hs.release hcard hpc hlock, ?_⟩
        · obtain ⟨l, -, rfl⟩ := Option.map_eq_some_iff.mp hlock
          rw [scan_snoc, Scan.next_returned o hscan]
          by_cases hut : u = t
          · subst hut
            rw [Shared.setPc_pc_self]
            simp [Pc.request]
          · rw [Shared.setPc_pc_ne _ _ _ hut]
            simpa [hut] using h.pending u
        · rw [completed, scan_snoc, Scan.next_returned o hscan]
          -- The operation goes to the end of the order, with the outcome it returns.
          refine hlegal.snoc ?_
          show r'.op.apply m o.allocated = (_, o.reply)
          rw [hreply]
      · cases hstep

end LinInv

omit [DecidableEq Tid] in
/-- When no operation is in progress nobody holds a write lock. -/
theorem SharedInv.not_writing_of_idle {s : Shared Tid} {ps : Int → List Ptr}
    {m : CString → Option CString} (h : SharedInv s ps m) (hidle : ∀ t, s.pc t = .idle)
    (i : Int) (t : Tid) : ¬ (s.locks i).Writing t := by
  intro ht
  have hphase := h.away t i fun r hr => by rw [hidle t] at hr; cases hr
  obtain ⟨k, hk⟩ := ht
  rw [hphase] at hk
  cases hk

omit [DecidableEq Tid] in
/-- When no operation is in progress the table stores the map of the returned operations. -/
theorem SharedInv.refines_of_idle {s : Shared Tid} {ps : Int → List Ptr}
    {m : CString → Option CString} (h : SharedInv s ps m) (hidle : ∀ t, s.pc t = .idle) :
    s.table.Refines m := by
  have hrep : Rep s.table ps m := by
    refine ⟨h.pos, h.le, h.null, fun i hi => ?_, fun p n hn => ?_⟩
    · exact h.bucket i hi m (Or.inr ⟨h.not_writing_of_idle hidle i, rfl⟩)
    · cases h.live p n hn with
      | inl hin => exact hin
      | inr hown =>
          obtain ⟨t, ht⟩ := hown
          rw [hidle t] at ht
          cases ht
  exact hrep.refines

/-- The shared table is linearizable. In every reachable state, with any number of threads:

* the completed operations have a linearization, whose outcomes are those of a map, and the
  table stores this map when no operation is in progress;
* no thread has accessed a dead node;
* a thread is in no lock but the one of the bucket it works in, a returned thread is in none,
  and the release of a thread that is about to return can always run. -/
theorem shared_table_linearizable (hcard : Fintype.card Tid < 2 ^ 32) (n : UInt64)
    (hpos : 0 < n) (hle : n ≤ 2147483647) (acts : List (SharedAction Tid)) (s : Shared Tid)
    (log : List (HistoryEvent Tid Request Outcome))
    (hrun : run Shared.step (Shared.init Tid n) acts = some (s, log)) :
    (∃ order m, Linearizes Request.Spec (fun _ => none) log order m ∧
      ((∀ t, s.pc t = .idle) → s.table.Refines m)) ∧
    (∀ t, s.pc t ≠ .fault) ∧
    (∀ t i, (∀ r, (s.pc t).request = some r → i ≠ s.index r) →
      (s.locks i).phase t = .idle) ∧
    (∀ t r o, s.pc t = .unlocking r o → (s.step (.release t)).isSome) := by
  -- Induction over the run, with `LinInv` as the invariant.
  have hlin : LinInv s log := run_induction (I := LinInv) (P := fun _ => True)
    (LinInv.init hpos hle) (fun _ _ _ _ _ hI _ _ hstep => hI.step hcard hstep) acts
    (fun _ _ => trivial) s log hrun
  obtain ⟨ps, m, hs, hlegal⟩ := hlin.inv
  refine ⟨⟨_, m, linearizes_completed hlegal, hs.refines_of_idle⟩, hs.noFault, hs.away,
    fun t r o hpc => ?_⟩
  obtain ⟨l, es, hunlock, -⟩ := LockState.exists_unlock (hs.holds t r (by rw [hpc]; rfl))
  simp [Shared.step, hpc, Shared.lockStep, hunlock]

/-- A quick read that waits for a `create` of its key sees the new value. -/
theorem shared_table_linearizable_create_read :
    ∃ s log order m,
      run Shared.step (Shared.init (Fin 2) 1)
        [.call 0 ⟨.insert ⟨[97], by decide⟩ ⟨[49], by decide⟩, false⟩, .lock 0 .enter,
          .work 0 ⟨0, true, true⟩, .call 1 ⟨.read ⟨[97], by decide⟩, true⟩, .lock 1 .enter,
          .work 0 ⟨0, true, true⟩, .work 0 ⟨8, true, true⟩, .work 0 ⟨0, true, true⟩, .release 0,
          .lock 1 .resume, .work 1 ⟨0, true, true⟩, .work 1 ⟨0, true, true⟩,
          .work 1 ⟨0, true, true⟩, .release 1] = some (s, log) ∧
      (completed log).map (fun c => c.reply.reply.value) = [none, some ⟨[49], by decide⟩] ∧
      Linearizes Request.Spec (fun _ => none) log order m ∧ s.table.Refines m := by
  have hrun : run Shared.step (Shared.init (Fin 2) 1)
      [.call 0 ⟨.insert ⟨[97], by decide⟩ ⟨[49], by decide⟩, false⟩, .lock 0 .enter,
        .work 0 ⟨0, true, true⟩, .call 1 ⟨.read ⟨[97], by decide⟩, true⟩, .lock 1 .enter,
        .work 0 ⟨0, true, true⟩, .work 0 ⟨8, true, true⟩, .work 0 ⟨0, true, true⟩, .release 0,
        .lock 1 .resume, .work 1 ⟨0, true, true⟩, .work 1 ⟨0, true, true⟩,
        .work 1 ⟨0, true, true⟩, .release 1] = some (_, _) := rfl
  obtain ⟨⟨order, m, hlin, href⟩, -⟩ :=
    shared_table_linearizable (by decide) 1 (by decide) (by decide) _ _ _ hrun
  exact ⟨_, _, order, m, hrun, by decide, hlin, href (by decide)⟩

end SysProg.Kvs
