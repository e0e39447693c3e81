import SysProg.Proofs.Shell.JobTable

/-!
# `SysProg.Proofs.Shell.Children`: the job table and the children

`Matched` says that the processes left in the jobs are the children that are not reaped, with the
process group telling the job. Each operation of the shell on the two keeps it: a fork, `add_job`,
a `waitpid` with `remove_pid_from_job`, `delete_job`, and the exit of a child.
-/

set_option autoImplicit false

namespace SysProg.Shell

/-- A process group that belongs to a job is what `waitpid` looks at. -/
theorem Child.selected_neg_iff {g : Int} (hg : 1 < g) (c : Child) :
    c.Selected (-g) ↔ c.pgid = g := by
  rw [Child.Selected, if_pos (by omega), Int.neg_neg]

/-- The children are the processes left in the jobs of the table and those in `forked`. -/
structure Matched (m : JobManager) (children : List Child) (forked : List Int) : Prop where
  table : m.TableOk
  distinct : (children.map Child.pid).Nodup
  positive : ∀ c ∈ children, 1 < c.pid ∧ 1 < c.pgid
  members : ∀ i ∈ m.slots, ∀ pid,
    pid ∈ (m.jobs i).live ↔ ∃ c ∈ children, c.pid = pid ∧ c.pgid = (m.jobs i).pgid
  started : ∀ pid, pid ∈ forked ↔ ∃ c ∈ children, c.pid = pid ∧ c.pgid = forked.headD 0
  nodup : forked.Nodup
  apart : ∀ i ∈ m.slots, (m.jobs i).pgid ≠ forked.headD 0
  owner : ∀ c ∈ children, c.pgid = forked.headD 0 ∨ ∃ i ∈ m.slots, c.pgid = (m.jobs i).pgid

namespace Matched

variable {m : JobManager} {children : List Child} {forked : List Int} {i : Fin maxJobs}

/-- At the start there are no children and no jobs. -/
theorem init : Matched .init [] [] := by
  have hslots : JobManager.init.slots = ∅ := by
    ext j
    simp [JobManager.init, Job.zero]
  constructor <;> simp [hslots, JobManager.TableOk.init]

/-- The queue of the finished jobs does not matter. -/
theorem setDone (h : Matched m children forked) (done : List DoneJob) :
    Matched { m with done := done } children forked :=
  ⟨h.table.setDone done, h.distinct, h.positive, h.members, h.started, h.nodup, h.apart, h.owner⟩

/-- The queue of the finished jobs does not matter to the children. -/
theorem enqueueDone (h : Matched m children forked) (job : DoneJob) :
    Matched (m.enqueueDone job) children forked := by
  rw [JobManager.enqueueDone]
  split
  case isTrue => exact h
  case isFalse => exact h.setDone _

/-- Two children with the same process ID are the same. -/
theorem child_unique (h : Matched m children forked) {c d : Child} (hc : c ∈ children)
    (hd : d ∈ children) (hpid : c.pid = d.pid) : c = d :=
  List.inj_on_of_nodup_map h.distinct hc hd hpid

/-- A job with processes left has a child. -/
theorem exists_child (h : Matched m children forked) (hi : i ∈ m.slots)
    (hlive : 0 < (m.jobs i).remainingProcesses) : ∃ c ∈ children, c.pgid = (m.jobs i).pgid := by
  have hlen : 0 < (m.jobs i).live.length := by
    have := h.table.remaining i hi
    omega
  obtain ⟨pid, hpid⟩ := List.exists_mem_of_length_pos hlen
  obtain ⟨c, hc, -, hpgid⟩ := (h.members i hi pid).mp hpid
  exact ⟨c, hc, hpgid⟩

/-- A child of a job is one of the processes left in it. -/
theorem mem_live (h : Matched m children forked) (hi : i ∈ m.slots) {c : Child} (hc : c ∈ children)
    (hpgid : c.pgid = (m.jobs i).pgid) : c.pid ∈ (m.jobs i).live :=
  (h.members i hi c.pid).mpr ⟨c, hc, rfl, hpgid⟩

/-- A child whose process ID is in a job is in the process group of the job. -/
theorem pgid_eq (h : Matched m children forked) (hi : i ∈ m.slots) {c : Child} (hc : c ∈ children)
    (hlive : c.pid ∈ (m.jobs i).live) : c.pgid = (m.jobs i).pgid := by
  obtain ⟨d, hd, hpid, hpgid⟩ := (h.members i hi c.pid).mp hlive
  rw [← h.child_unique hd hc hpid, hpgid]

/-- Every child that is in no job of the table is in `forked`, and no other is in two jobs. -/
theorem owner_unique (h : Matched m children forked) {c : Child} (hc : c ∈ children)
    (hforked : c.pid ∉ forked) : ∃! i, i ∈ m.slots ∧ (m.jobs i).Holds c.pid := by
  obtain hpgid | ⟨i, hi, hpgid⟩ := h.owner c hc
  · exact absurd ((h.started c.pid).mpr ⟨c, hc, rfl, hpgid⟩) hforked
  · refine ⟨i, ⟨hi, (Job.mem_live.mp (h.mem_live hi hc hpgid)).1⟩, fun j hj => ?_⟩
    have hpos := (h.positive c hc).1
    have hlive := Job.mem_live.mpr ⟨hj.2, by omega⟩
    exact h.table.groups j hj.1 i hi ((h.pgid_eq hj.1 hc hlive).symm.trans hpgid)

/-- A new process, which gets the number of no child and of no process group of a child. -/
theorem fork (h : Matched m children forked) {pid : Int} (hpos : 1 < pid)
    (hfresh : ∀ c ∈ children, c.pid ≠ pid) (hgroup : ∀ c ∈ children, c.pgid ≠ pid)
    (hlive : ∀ i ∈ m.slots, 0 < (m.jobs i).remainingProcesses) :
    Matched m (children ++ [⟨pid, forked.headD pid, false⟩]) (forked ++ [pid]) := by
  have hnew : pid ∉ forked := by
    intro hmem
    obtain ⟨c, hc, hpid, -⟩ := (h.started pid).mp hmem
    exact hfresh c hc hpid
  have hhead : (forked ++ [pid]).headD 0 = forked.headD pid := by cases forked <;> rfl
  -- The group of the new process is no group of a job.
  have hapart : ∀ i ∈ m.slots, (m.jobs i).pgid ≠ forked.headD pid := by
    intro i hi
    cases forked with
    | nil =>
        obtain ⟨c, hc, hpgid⟩ := h.exists_child hi (hlive i hi)
        exact hpgid ▸ hgroup c hc
    | cons p ps => exact h.apart i hi
  -- The children in its group are those that were started before it.
  have hstarted : ∀ p, p ∈ forked ↔ ∃ c ∈ children, c.pid = p ∧ c.pgid = forked.headD pid := by
    intro p
    cases forked with
    | nil =>
        refine ⟨by simp, ?_⟩
        rintro ⟨c, hc, -, hpgid⟩
        exact absurd hpgid (hgroup c hc)
    | cons q ps => exact h.started p
  refine ⟨h.table, ?_, ?_, ?_, ?_, ?_, ?_, ?_⟩
  · rw [List.map_append, List.map_singleton, List.nodup_append]
    refine ⟨h.distinct, List.nodup_singleton _, ?_⟩
    intro p hp q hq
    obtain ⟨c, hc, rfl⟩ := List.mem_map.mp hp
    obtain rfl := List.mem_singleton.mp hq
    exact hfresh c hc
  · intro c hc
    obtain hc | hc := List.mem_append.mp hc
    · exact h.positive c hc
    · obtain rfl := List.mem_singleton.mp hc
      refine ⟨hpos, ?_⟩
      cases forked with
      | nil => exact hpos
      | cons p ps =>
          obtain ⟨c, hc, hpid, -⟩ := (h.started p).mp List.mem_cons_self
          exact hpid ▸ (h.positive c hc).1
  · intro i hi p
    rw [h.members i hi p]
    constructor
    · rintro ⟨c, hc, hc'⟩
      exact ⟨c, List.mem_append_left _ hc, hc'⟩
    · rintro ⟨c, hc, hpid, hpgid⟩
      obtain hc | hc := List.mem_append.mp hc
      · exact ⟨c, hc, hpid, hpgid⟩
      · obtain rfl := List.mem_singleton.mp hc
        exact absurd hpgid.symm (hapart i hi)
  · intro p
    rw [hhead, List.mem_append, List.mem_singleton, hstarted]
    simp [eq_comm]
  · rw [List.nodup_append]
    refine ⟨h.nodup, List.nodup_singleton _, ?_⟩
    intro p hp q hq
    obtain rfl := List.mem_singleton.mp hq
    rintro rfl
    exact hnew hp
  · intro i hi
    rw [hhead]
    exact hapart i hi
  · intro c hc
    rw [hhead]
    obtain hc | hc := List.mem_append.mp hc
    · obtain hpgid | hi := h.owner c hc
      · exact .inl ((hstarted c.pid).mp ((h.started c.pid).mpr ⟨c, hc, rfl, hpgid⟩) |>.elim
          fun d hd => h.child_unique hd.1 hc hd.2.1 ▸ hd.2.2)
      · exact .inr hi
    · obtain rfl := List.mem_singleton.mp hc
      exact .inl rfl

/-- `add_job` turns the processes that are started into a job. They are its children from now on,
and no process is left without a job. -/
theorem add (h : Matched m children forked) {m' : JobManager} {slot : Fin maxJobs}
    {state : JobState} (hforked : forked ≠ [])
    (hadds : JobManager.Adds m m' slot (m.newJob (forked.headD 0) forked forked.length state))
    (hmax : ∀ i ∈ m.slots, (m.jobs i).jobId ≠ intMax) : Matched m' children [] := by
  have hpos : ∀ pid ∈ forked, 1 < pid := by
    intro pid hpid
    obtain ⟨c, hc, rfl, -⟩ := (h.started pid).mp hpid
    exact (h.positive c hc).1
  have hpgid : 1 < forked.headD 0 := by
    cases forked with
    | nil => exact absurd rfl hforked
    | cons p ps => exact hpos p List.mem_cons_self
  have htable := h.table.add hadds hmax hpos h.nodup hpgid h.apart
  obtain ⟨hempty, rfl⟩ := hadds
  have hjobs : ∀ j ∈ m.slots,
      (m.setJob slot (m.newJob (forked.headD 0) forked forked.length state)).jobs j = m.jobs j :=
    fun j hj => JobManager.setJob_jobs_of_ne _ fun hjs => hempty (hjs ▸ hj)
  have hslots : (m.setJob slot (m.newJob (forked.headD 0) forked forked.length state)).slots
      = insert slot m.slots := JobManager.slots_setJob_inUse rfl
  have hmem : ∀ {j : Fin maxJobs}, j ∈ JobManager.slots
      { m.setJob slot (m.newJob (forked.headD 0) forked forked.length state) with
        nJobs := m.nJobs + 1, added := m.added + 1 } ↔ j = slot ∨ j ∈ m.slots := by
    intro j
    rw [← Finset.mem_insert, ← hslots]
    rfl
  refine ⟨htable, h.distinct, h.positive, ?_, ?_, List.nodup_nil, ?_, ?_⟩
  · intro j hj pid
    obtain rfl | hj := hmem.mp hj
    · simp only [JobManager.setJob_jobs_self, JobManager.live_newJob hpos]
      exact h.started pid
    · simp only [hjobs j hj]
      exact h.members j hj pid
  · intro pid
    refine ⟨by simp, ?_⟩
    rintro ⟨c, hc, -, hzero⟩
    have := (h.positive c hc).2
    simp only [List.headD_nil] at hzero
    omega
  · intro j hj
    exact fun hzero => absurd (htable.group j hj) (by rw [hzero]; decide)
  · intro c hc
    refine .inr ?_
    obtain hc' | ⟨j, hj, hc'⟩ := h.owner c hc
    · refine ⟨slot, hmem.mpr (.inl rfl), ?_⟩
      simpa only [JobManager.setJob_jobs_self, JobManager.newJob] using hc'
    · exact ⟨j, hmem.mpr (.inr hj), by simpa only [hjobs j hj] using hc'⟩

/-- A child of a job is reaped and removed from the job. The others keep their places, since no two
children have the same ID. -/
theorem reap (h : Matched m children forked) (hi : i ∈ m.slots) {c : Child} (hc : c ∈ children)
    (hpgid : c.pgid = (m.jobs i).pgid) :
    Matched (m.remove i c.pid) (children.filter fun d => d.pid ≠ c.pid) forked := by
  have hlive := h.mem_live hi hc hpgid
  have hjob := removePidFromJob_spec hlive
  have hslots := JobManager.slots_remove hi hlive
  have hpgids : ∀ j, ((m.remove i c.pid).jobs j).pgid = (m.jobs j).pgid := by
    intro j
    by_cases hj : j = i
    · simp [hj, hjob.pgid]
    · rw [JobManager.remove_jobs_of_ne hj]
  have hmem : ∀ {d : Child}, d ∈ children.filter (fun d => d.pid ≠ c.pid) ↔
      d ∈ children ∧ d.pid ≠ c.pid := by simp
  refine ⟨h.table.remove hi hlive, ?_, fun d hd => h.positive d (hmem.mp hd).1, ?_, ?_,
    h.nodup, ?_, ?_⟩
  · exact h.distinct.sublist (List.filter_sublist.map _)
  · intro j hj pid
    rw [hslots] at hj
    rw [hpgids]
    by_cases hji : j = i
    · subst hji
      rw [JobManager.remove_jobs_self, hjob.live, (h.table.nodup j hj).mem_erase_iff,
        h.members j hj]
      constructor
      · rintro ⟨hne, d, hd, rfl, hdg⟩
        exact ⟨d, hmem.mpr ⟨hd, hne⟩, rfl, hdg⟩
      · rintro ⟨d, hd, rfl, hdg⟩
        exact ⟨(hmem.mp hd).2, d, (hmem.mp hd).1, rfl, hdg⟩
    · rw [JobManager.remove_jobs_of_ne hji, h.members j hj]
      constructor
      · rintro ⟨d, hd, rfl, hdg⟩
        refine ⟨d, hmem.mpr ⟨hd, fun hpid => hji ?_⟩, rfl, hdg⟩
        obtain rfl := h.child_unique hd hc hpid
        exact h.table.groups j hj i hi (hdg.symm.trans hpgid)
      · rintro ⟨d, hd, rfl, hdg⟩
        exact ⟨d, (hmem.mp hd).1, rfl, hdg⟩
  · intro pid
    rw [h.started pid]
    constructor
    · rintro ⟨d, hd, rfl, hdg⟩
      refine ⟨d, hmem.mpr ⟨hd, fun hpid => h.apart i hi ?_⟩, rfl, hdg⟩
      obtain rfl := h.child_unique hd hc hpid
      exact hpgid.symm.trans hdg
    · rintro ⟨d, hd, rfl, hdg⟩
      exact ⟨d, (hmem.mp hd).1, rfl, hdg⟩
  · intro j hj
    rw [hslots] at hj
    rw [hpgids]
    exact h.apart j hj
  · intro d hd
    obtain hd' | ⟨j, hj, hd'⟩ := h.owner d (hmem.mp hd).1
    · exact .inl hd'
    · exact .inr ⟨j, hslots ▸ hj, by rw [hpgids, hd']⟩

/-- `delete_job` for a job without processes left. It has no children any more, so none is left
without a job. -/
theorem clear (h : Matched m children forked) (hi : i ∈ m.slots)
    (hzero : (m.jobs i).remainingProcesses = 0) : Matched (m.clear i) children forked := by
  have hnone : (m.jobs i).live = [] := by
    have := h.table.remaining i hi
    exact List.eq_nil_of_length_eq_zero (by omega)
  refine ⟨h.table.clear hi, h.distinct, h.positive, ?_, h.started, h.nodup, ?_, ?_⟩
  · intro j hj pid
    obtain ⟨hji, hj⟩ := JobManager.mem_slots_clear.mp hj
    rw [JobManager.clear_jobs_of_ne hji]
    exact h.members j hj pid
  · intro j hj
    obtain ⟨hji, hj⟩ := JobManager.mem_slots_clear.mp hj
    rw [JobManager.clear_jobs_of_ne hji]
    exact h.apart j hj
  · intro c hc
    obtain hc' | ⟨j, hj, hc'⟩ := h.owner c hc
    · exact .inl hc'
    · have hji : j ≠ i := by
        rintro rfl
        have := h.mem_live hj hc hc'
        simp [hnone] at this
      refine .inr ⟨j, JobManager.mem_slots_clear.mpr ⟨hji, hj⟩, ?_⟩
      rw [JobManager.clear_jobs_of_ne hji, hc']

/-- The exits of children change nothing. -/
theorem mapChildren (h : Matched m children forked) {f : Child → Child}
    (hpid : ∀ c, (f c).pid = c.pid) (hpgid : ∀ c, (f c).pgid = c.pgid) :
    Matched m (children.map f) forked := by
  refine ⟨h.table, ?_, ?_, ?_, ?_, h.nodup, h.apart, ?_⟩
  · rw [List.map_map]
    simpa only [Function.comp_def, hpid] using h.distinct
  · simpa only [List.forall_mem_map, hpid, hpgid] using h.positive
  · simpa only [List.mem_map, exists_exists_and_eq_and, hpid, hpgid] using h.members
  · simpa only [List.mem_map, exists_exists_and_eq_and, hpid, hpgid] using h.started
  · simpa only [List.forall_mem_map, hpgid] using h.owner

end Matched

end SysProg.Shell
