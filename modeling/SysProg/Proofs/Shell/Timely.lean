import SysProg.Proofs.Shell.Reports

/-!
# `SysProg.Proofs.Shell.Timely`: no finished job is forgotten

`Covered` says that a zombie of a background job is behind a signal that is pending or noticed, or
`handle_sigchld` still comes to its slot. `Due` is the argument in time: a job whose processes have
exited stays in front of the shell until `handle_sigchld` takes it out of the table.

`reportedOnce` puts the parts together.
-/

set_option autoImplicit false

namespace SysProg.Shell

open SysProg.Lib

namespace Snush

variable {s s' : Snush} {es : List Printed}

/-- A zombie of the job in slot `i` will be seen. -/
def Noticed (s : Snush) (i : Fin maxJobs) : Prop :=
  s.sigchldPending = true ∨ s.sigchldFlag = true ∨ ∃ j, s.pc = .reap j ∧ j ≤ i

/-- A zombie of a background job, or of a job that is started, will be seen. -/
structure Covered (s : Snush) : Prop where
  forked : ∀ c ∈ s.children, c.pid ∈ s.pc.forked → c.exited = true → s.sigchldPending = true
  jobs : ∀ i ∈ s.manager.slots, (s.manager.jobs i).state = .background → ∀ c ∈ s.children,
    c.pgid = (s.manager.jobs i).pgid → c.exited = true → s.Noticed i

namespace Covered

/-- At the start there is no zombie, so none is waiting to be noticed. -/
theorem init : Snush.init.Covered := by
  constructor <;> simp [Snush.init]

/-- No job and no child is new, and what was noticed still is, where there is a zombie. -/
theorem keep (hc : s.Covered) (hchildren : ∀ c ∈ s'.children, c ∈ s.children)
    (hforked : s'.pc.forked = [] ∨
      s'.pc.forked = s.pc.forked ∧ s'.sigchldPending = s.sigchldPending)
    (hslots : ∀ i ∈ s'.manager.slots, i ∈ s.manager.slots ∧
      SameJob (s.manager.jobs i) (s'.manager.jobs i))
    (hnoticed : ∀ i ∈ s'.manager.slots, s.Noticed i → s'.Noticed i ∨
      ∀ c ∈ s.children, c.pgid = (s.manager.jobs i).pgid → c.exited = false) :
    s'.Covered := by
  refine ⟨fun c hmem hpid hexited => ?_, fun i hi hbg c hmem hpgid hexited => ?_⟩
  · obtain hnil | ⟨hsame, hpending⟩ := hforked
    · rw [hnil] at hpid
      cases hpid
    · rw [hpending]
      exact hc.forked c (hchildren c hmem) (hsame ▸ hpid) hexited
  · obtain ⟨hi', hjob⟩ := hslots i hi
    rw [hjob.state] at hbg
    rw [hjob.pgid] at hpgid
    obtain h | h := hnoticed i hi (hc.jobs i hi' hbg c (hchildren c hmem) hpgid hexited)
    · exact h
    · rw [h c (hchildren c hmem) hpgid] at hexited
      cases hexited

/-- Outside `handle_sigchld`, what is noticed does not depend on the place. -/
theorem noticed_of_pc {i : Fin maxJobs} (hn : s.Noticed i) {pc : Pc} (hpc : s.pc = pc)
    (hreap : ∀ j, pc ≠ .reap j) (hpending : s'.sigchldPending = s.sigchldPending)
    (hflag : s'.sigchldFlag = s.sigchldFlag) : s'.Noticed i := by
  obtain h | h | ⟨j, h, -⟩ := hn
  · exact .inl (hpending.trans h)
  · exact .inr (.inl (hflag.trans h))
  · exact absurd (hpc.symm.trans h) (hreap j)

/-- `handle_sigchld` goes on behind the slot `i`. -/
theorem noticed_of_next {i j : Fin maxJobs} (hn : s.Noticed j) (hpc : s.pc = .reap i) (hj : j ≠ i)
    (hpc' : s'.pc = .reap (i + 1)) (hpending : s'.sigchldPending = s.sigchldPending)
    (hflag : s'.sigchldFlag = s.sigchldFlag) : s'.Noticed j := by
  obtain h | h | ⟨k, h, hle⟩ := hn
  · exact .inl (hpending.trans h)
  · exact .inr (.inl (hflag.trans h))
  · rw [hpc, Pc.reap.injEq] at h
    have hval : (j : Nat) ≠ i := fun heq => hj (Fin.ext heq)
    exact .inr (.inr ⟨i + 1, hpc', by omega⟩)

/-- A move outside `handle_sigchld` that changes no job, no child and no signal. -/
theorem quiet (hc : s.Covered) {pc : Pc} (hpc : s.pc = pc) (hreap : ∀ j, pc ≠ .reap j)
    (hslots : s'.manager.slots = s.manager.slots) (hjobs : s'.manager.jobs = s.manager.jobs)
    (hchildren : s'.children = s.children) (hforked : s'.pc.forked = [])
    (hpending : s'.sigchldPending = s.sigchldPending) (hflag : s'.sigchldFlag = s.sigchldFlag) :
    s'.Covered := by
  refine hc.keep (fun c hmem => hchildren ▸ hmem) (.inl hforked) (fun i hi => ?_) (fun i _ hn => ?_)
  · exact ⟨hslots ▸ hi, hjobs ▸ SameJob.refl _⟩
  · exact .inl (noticed_of_pc hn hpc hreap hpending hflag)

/-- A process is started. -/
theorem fork (hc : s.Covered) {n : Nat} {bg : Bool} {pids : List Int} {pid pgid : Int}
    (hpc : s.pc = .forking n bg pids) (hfresh : ∀ c ∈ s.children, c.pid ≠ pid) :
    Covered { s with
      pc := .forking n bg (pids ++ [pid])
      children := s.children ++ [⟨pid, pgid, false⟩] } := by
  refine ⟨fun c hmem hpid hexited => ?_, fun i hi hbg c hmem hpgid hexited => ?_⟩
  · obtain hmem | hmem := List.mem_append.mp hmem
    · obtain hpid | hpid := List.mem_append.mp hpid
      · exact hc.forked c hmem (by rw [hpc]; exact hpid) hexited
      · exact absurd (List.mem_singleton.mp hpid) (hfresh c hmem)
    · obtain rfl := List.mem_singleton.mp hmem
      cases hexited
  · obtain hmem | hmem := List.mem_append.mp hmem
    · have hn := hc.jobs i hi hbg c hmem hpgid hexited
      exact noticed_of_pc hn hpc nofun rfl rfl
    · obtain rfl := List.mem_singleton.mp hmem
      cases hexited

/-- A job is added. Its zombies are behind a pending signal, for `SIGCHLD` was blocked. -/
theorem register (hc : s.Covered) (hinv : s.Inv) {n : Nat} {bg : Bool} {pids : List Int}
    (hpc : s.pc = .forking n bg pids) {m : JobManager} {slot : Fin maxJobs} {job : Job}
    (hadds : JobManager.Adds s.manager m slot job) (hused : job.inUse = true)
    (hpgid : job.pgid = pids.headD 0) {bg' : Bool} {jobId pgid : Int} {serial : Nat} :
    Covered { s with manager := m, pc := .started bg' jobId pgid serial } := by
  obtain ⟨hempty, rfl⟩ := hadds
  refine ⟨fun c _ hpid => (by cases hpid), fun i hi hbg c hmem hgroup hexited => ?_⟩
  have hslots : i = slot ∨ i ∈ s.manager.slots := by
    rw [← Finset.mem_insert, ← JobManager.slots_setJob_inUse hused]
    exact hi
  have hmatched := hinv.matched
  rw [hpc] at hmatched
  obtain rfl | hi := hslots
  · simp only [JobManager.setJob_jobs_self, hpgid] at hgroup
    have hpid := (hmatched.started c.pid).mpr ⟨c, hmem, rfl, hgroup⟩
    exact .inl (hc.forked c hmem (by rw [hpc]; exact hpid) hexited)
  · have hjob : (s.manager.setJob slot job).jobs i = s.manager.jobs i :=
      JobManager.setJob_jobs_of_ne job fun his => hempty (his ▸ hi)
    simp only [hjob] at hbg hgroup
    have hn := hc.jobs i hi hbg c hmem hgroup hexited
    exact noticed_of_pc hn hpc nofun rfl rfl

/-- A move keeps the zombies in sight. One that is not reaped yet has a signal, a flag, or a scan
that still comes to its job. -/
theorem move (hc : s.Covered) (hinv : s.Inv) (hmove : s.Move s' es) : s'.Covered := by
  cases hmove with
  | scan hpc _ =>
      exact hc.keep (fun _ h => h) (.inl rfl) (fun i hi => ⟨hi, SameJob.refl _⟩)
        fun i _ _ => .inl (.inr (.inr ⟨0, rfl, Nat.zero_le _⟩))
  | unflagged hpc _ | prints hpc | returns hpc | quits hpc | command n bg hpc
  | announces jobId pgid serial hpc | waits i pgid serial _ hpc =>
      exact hc.quiet hpc nofun rfl rfl rfl rfl rfl rfl
  | skip i hpc hunused =>
      refine hc.keep (fun _ h => h) (.inl rfl) (fun j hj => ⟨hj, SameJob.refl _⟩) fun j hj hn => ?_
      exact .inl (noticed_of_next hn hpc (fun hji => hunused (hji ▸ hj)) rfl rfl rfl)
  | scanned i hpc hlast =>
      refine hc.keep (fun _ h => h) (.inl rfl) (fun j hj => ⟨hj, SameJob.refl _⟩) fun j _ hn => ?_
      obtain h | h | ⟨k, h, hle⟩ := hn
      · exact .inl (.inl h)
      · exact .inl (.inr (.inl h))
      · rw [hpc, Pc.reap.injEq] at h
        have := j.isLt
        omega
  | forks n bg pids pid hpc _ _ hfresh => exact hc.fork hpc hfresh
  | registers bg pids hpc _ m slot hadds => exact hc.register hinv hpc hadds rfl rfl
  | reapsBg i c hpc hz =>
      exact hc.keep (fun _ h => List.mem_of_mem_filter h) (.inr ⟨rfl, rfl⟩)
        (fun j hj => ⟨hinv.slots_remove hz ▸ hj, hinv.sameJob_remove hz j⟩) fun _ _ hn => .inl hn
  | reapsFg i c hpc hz =>
      exact hc.keep (fun _ h => List.mem_of_mem_filter h) (.inr ⟨rfl, rfl⟩)
        (fun j hj => ⟨hinv.slots_remove hz ▸ hj, hinv.sameJob_remove hz j⟩) fun _ _ hn => .inl hn
  | endsFg i c hpc hz =>
      refine hc.keep (fun _ h => List.mem_of_mem_filter h) (.inl rfl) (fun j hj => ?_)
        fun j _ hn => ?_
      · obtain ⟨hji, hj⟩ := JobManager.mem_slots_clear.mp hj
        refine ⟨hinv.slots_remove hz ▸ hj, ?_⟩
        rw [JobManager.clear_jobs_of_ne hji]
        exact hinv.sameJob_remove hz j
      · exact .inl (noticed_of_pc hn hpc nofun rfl rfl)
  | leavesBg i hpc hi hrunning =>
      refine hc.keep (fun _ h => h) (.inl rfl) (fun j hj => ⟨hj, SameJob.refl _⟩) fun j hj hn => ?_
      by_cases hji : j = i
      · exact .inr (hji ▸ hrunning)
      · exact .inl (noticed_of_next hn hpc hji rfl rfl rfl)
  | endsBg i hpc hi =>
      refine hc.keep (fun _ h => h) (.inl rfl) (fun j hj => ?_) fun j hj hn => ?_
      · obtain ⟨hji, hj⟩ := JobManager.mem_slots_clear.mp hj
        rw [JobManager.enqueueDone_slots] at hj
        refine ⟨hj, ?_⟩
        rw [JobManager.clear_jobs_of_ne hji, JobManager.enqueueDone_jobs]
        exact SameJob.refl _
      · have hji := (JobManager.mem_slots_clear.mp hj).1
        exact .inl (noticed_of_next hn hpc hji rfl rfl rfl)
  | stays => exact hc
  | exits pid => exact ⟨fun _ _ _ _ => rfl, fun _ _ _ _ _ _ _ => .inl rfl⟩
  | raises => exact ⟨fun _ _ _ _ => rfl, fun _ _ _ _ _ _ _ => .inl rfl⟩
  | delivers _ hunblocked =>
      refine hc.keep (fun _ h => h) (.inl ?_) (fun i hi => ⟨hi, SameJob.refl _⟩)
        fun i _ _ => .inl (.inr (.inl rfl))
      cases hpc : s.pc with
      | forking n bg pids =>
          rw [hpc] at hunblocked
          cases hunblocked
      | _ => rfl

end Covered

/-! ### The next report -/

/-- What is old in the table after a move was there before. A new job gets a number that no job had
before it. -/
theorem TableMove.old (h : s.TableMove s' es) : s.manager.added ≤ s'.manager.added ∧
    ∀ i ∈ s'.manager.slots, (s'.manager.jobs i).serial < s.manager.added →
      i ∈ s.manager.slots ∧ SameJob (s.manager.jobs i) (s'.manager.jobs i) := by
  cases h with
  | keeps hjobs | prints hjobs | announces hjobs =>
      exact ⟨hjobs.added.ge, fun i hi _ => ⟨hjobs.slots ▸ hi, hjobs.jobs i (hjobs.slots ▸ hi)⟩⟩
  | registers bg slot job hadds hserial hused =>
      obtain ⟨hempty, hm⟩ := hadds
      refine ⟨by rw [hm]; exact Nat.le_succ _, fun i hi hold => ?_⟩
      have hi' : i = slot ∨ i ∈ s.manager.slots := by
        rw [← Finset.mem_insert, ← JobManager.slots_setJob_inUse hused]
        rw [hm] at hi
        exact hi
      have hne : i ≠ slot := by
        rintro rfl
        rw [hm] at hold
        simp only [JobManager.setJob_jobs_self, hserial, lt_irrefl] at hold
      refine ⟨hi'.resolve_left hne, ?_⟩
      rw [hm]
      simp only [JobManager.setJob_jobs_of_ne job hne]
      exact SameJob.refl _
  | endsFg i _ _ herases =>
      exact ⟨herases.added.ge, fun j hj _ =>
        ⟨Finset.mem_of_mem_erase (herases.slots ▸ hj), herases.jobs j hj⟩⟩
  | endsBg i _ _ herases =>
      exact ⟨herases.added.ge, fun j hj _ =>
        ⟨Finset.mem_of_mem_erase (herases.slots ▸ hj), herases.jobs j hj⟩⟩

/-- A child of an old job after a move was a child before, and a zombie stays one. -/
theorem Inv.child_of_move (h : s.Inv) (hmove : s.Move s' es) {i : Fin maxJobs}
    (hi : i ∈ s.manager.slots) {c : Child} (hc : c ∈ s'.children)
    (hpgid : c.pgid = (s.manager.jobs i).pgid) :
    ∃ d ∈ s.children, d.pgid = (s.manager.jobs i).pgid ∧ (d.exited = true → c.exited = true) := by
  have hsame : c ∈ s.children → ∃ d ∈ s.children, d.pgid = (s.manager.jobs i).pgid ∧
      (d.exited = true → c.exited = true) := fun hc => ⟨c, hc, hpgid, id⟩
  have hmatched := (h.move hmove).matched
  cases hmove with
  | forks n bg pids pid hpc =>
      obtain hc | hc := List.mem_append.mp hc
      · exact hsame hc
      · obtain rfl := List.mem_singleton.mp hc
        refine absurd hpgid ?_
        have hapart := hmatched.apart i hi
        cases pids <;> exact hapart.symm
  | exits pid =>
      obtain ⟨d, hd, rfl⟩ := List.mem_map.mp hc
      refine ⟨d, hd, ?_, fun hexited => ?_⟩
      · split at hpgid <;> exact hpgid
      · split
        · rfl
        · exact hexited
  | reapsBg | reapsFg | endsFg => exact hsame (List.mem_of_mem_filter hc)
  | _ => exact hsame hc

/-- `handle_sigchld` does not pass the slot of a job whose processes have exited, unless it takes
the job out of the table. -/
theorem Inv.reap_of_move (h : s.Inv) (hmove : s.Move s' es) {i : Fin maxJobs}
    (hi : i ∈ s.manager.slots) (hi' : i ∈ s'.manager.slots)
    (hexited : ∀ c ∈ s.children, c.pgid = (s.manager.jobs i).pgid → c.exited = true) {j : Nat}
    (hpc : s.pc = .reap j) (hj : j ≤ i) : ∃ k, s'.pc = .reap k ∧ k ≤ i := by
  have hnext : ∀ {l : Fin maxJobs}, s.pc = .reap l → i ≠ l → (l : Nat) + 1 ≤ i := by
    intro l hl hne
    rw [hpc, Pc.reap.injEq] at hl
    have hval : (i : Nat) ≠ l := fun heq => hne (Fin.ext heq)
    omega
  cases hmove with
  | skip l hl hunused =>
      exact ⟨l + 1, rfl, hnext hl fun heq => hunused (heq ▸ hi)⟩
  | scanned l hl hlast =>
      rw [hpc, Pc.reap.injEq] at hl
      have := i.isLt
      omega
  | leavesBg l hl _ hrunning hleft =>
      refine ⟨l + 1, rfl, hnext hl fun heq => ?_⟩
      subst heq
      -- Some process is left, and it has exited and it runs.
      have hlive : 0 < (s.manager.jobs i).remainingProcesses := by
        have := h.matched.table.remaining i hi
        omega
      obtain ⟨c, hc, hpgid⟩ := h.matched.exists_child hi hlive
      have hrun := hrunning c hc hpgid
      rw [hexited c hc hpgid] at hrun
      cases hrun
  | endsBg l hl =>
      exact ⟨l + 1, rfl, hnext hl (JobManager.mem_slots_clear.mp hi').1⟩
  | reapsBg | stays | exits | raises | delivers => exact ⟨j, hpc, hj⟩
  | scan hl | unflagged hl | prints hl | returns hl | quits hl | command _ _ hl
  | forks _ _ _ _ hl | registers _ _ hl | announces _ _ _ hl | waits _ _ _ _ hl | reapsFg _ _ hl
  | endsFg _ _ hl => simp [hpc] at hl

/-- The processes of the background job `k` have exited, and `handle_sigchld` will come to its
slot: the flag is set, at a place with `R`, or `handle_sigchld` is in front of the slot. -/
structure Due (R : Pc → Prop) (k : Nat) (s : Snush) : Prop where
  old : k < s.manager.added
  due : ∀ i ∈ s.manager.slots, (s.manager.jobs i).serial = k →
    (s.manager.jobs i).state = .background →
      (∀ c ∈ s.children, c.pgid = (s.manager.jobs i).pgid → c.exited = true) ∧
      (R s.pc ∧ s.sigchldFlag = true ∨ ∃ j, s.pc = .reap j ∧ j ≤ i)

/-- The flag stays set at the places with `R`, until `handle_sigchld` starts. -/
def KeepsFlag (R : Pc → Prop) : Prop :=
  ∀ (s s' : Snush) (es : List Printed), s.Move s' es → R s.pc → s.sigchldFlag = true →
    R s'.pc ∧ s'.sigchldFlag = true ∨ s'.pc = .reap 0

/-- A move keeps a job due. -/
theorem Due.move {R : Pc → Prop} {k : Nat} (hd : Due R k s) (hR : KeepsFlag R) (hinv : s.Inv)
    (hmove : s.Move s' es) : Due R k s' := by
  obtain ⟨hadded, hold⟩ := (hinv.tableMove hmove).old
  refine ⟨hd.old.trans_le hadded, fun i hi' hserial hbg => ?_⟩
  obtain ⟨hi, hjob⟩ := hold i hi' (hserial ▸ hd.old)
  rw [hjob.serial] at hserial
  rw [hjob.state] at hbg
  rw [hjob.pgid]
  obtain ⟨hexited, hplace⟩ := hd.due i hi hserial hbg
  refine ⟨fun c hc hpgid => ?_, ?_⟩
  · obtain ⟨d, hd', hdg, himp⟩ := hinv.child_of_move hmove hi hc hpgid
    exact himp (hexited d hd' hdg)
  · obtain ⟨hr, hflag⟩ | ⟨j, hpc, hj⟩ := hplace
    · exact (hR s s' es hmove hr hflag).imp id fun hpc => ⟨0, hpc, Nat.zero_le _⟩
    · exact .inr (hinv.reap_of_move hmove hi hi' hexited hpc hj)

/-- The flag stays set until `handle_sigchld` starts. -/
theorem keepsFlag_anywhere : KeepsFlag fun _ => True := by
  intro s s' es hmove _ hflag
  cases hmove with
  | scan => exact .inr rfl
  | delivers => exact .inl ⟨trivial, rfl⟩
  | _ => exact .inl ⟨trivial, hflag⟩

/-- At `check_signals`, the flag that is set leads to `handle_sigchld`. -/
theorem keepsFlag_checkSignals : KeepsFlag (· = .checkSignals) := by
  intro s s' es hmove hpc hflag
  cases hmove with
  | scan => exact .inr rfl
  | unflagged _ hunset => simp [hflag] at hunset
  | stays | exits | raises => exact .inl ⟨hpc, hflag⟩
  | delivers => exact .inl ⟨hpc, rfl⟩
  | skip _ hl | scanned _ hl | prints hl | returns hl | quits hl | command _ _ hl
  | forks _ _ _ _ hl | registers _ _ hl | announces _ _ _ hl | waits _ _ _ _ hl | reapsBg _ _ hl
  | reapsFg _ _ hl | endsFg _ _ hl | leavesBg _ hl | endsBg _ hl => simp [hpc] at hl

/-- A job whose processes have exited, with no signal left to deliver, is due. While it is in the
table, the flag is set or the scan has not passed it. -/
theorem Covered.due (hc : s.Covered) (hinv : s.Inv) {k : Nat} (hold : k < s.manager.added)
    (hexited : s.Exited k) (hpending : s.sigchldPending = false) : Due (fun _ => True) k s := by
  refine ⟨hold, fun i hi hserial hbg => ?_⟩
  have hall : ∀ c ∈ s.children, c.pgid = (s.manager.jobs i).pgid → c.exited = true :=
    fun c hmem hpgid => hexited i hi hserial c hmem
      (Job.mem_live.mp (hinv.matched.mem_live hi hmem hpgid)).1
  refine ⟨hall, ?_⟩
  by_cases hlive : 0 < (s.manager.jobs i).remainingProcesses
  · obtain ⟨c, hmem, hpgid⟩ := hinv.matched.exists_child hi hlive
    obtain h | h | h := hc.jobs i hi hbg c hmem hpgid (hall c hmem hpgid)
    · rw [hpending] at h
      cases h
    · exact .inl ⟨trivial, h⟩
    · exact .inr h
  · -- No process is left only behind the loop of `waitpid`.
    have hplaced := hinv.placed
    cases hpc : s.pc with
    | reap j =>
        rw [hpc] at hplaced
        by_cases hj : (i : Nat) = j
        · exact .inr ⟨j, rfl, hj.ge⟩
        · exact absurd ((hplaced i hi).2 hj) hlive
    | started bg jobId pgid serial =>
        rw [hpc] at hplaced
        obtain ⟨l, hl, -, -, hlpos, hsteady⟩ := hplaced
        by_cases hil : i = l
        · exact absurd (hil ▸ hlpos) hlive
        · exact absurd (hsteady i hi hil).2 hlive
    | waitFg l =>
        rw [hpc] at hplaced
        obtain ⟨hl, -, hlpos, hsteady⟩ := hplaced
        by_cases hil : i = l
        · exact absurd (hil ▸ hlpos) hlive
        · exact absurd (hsteady i hi hil).2 hlive
    | forking n bg pids =>
        rw [hpc] at hplaced
        exact absurd (hplaced.1 i hi).2 hlive
    | checkSignals | checkBgStatus | prompt | exited =>
        rw [hpc] at hplaced
        exact absurd (hplaced i hi).2 hlive

/-! ### The result for a run -/

/-- All invariants of an orderly run. -/
structure Sound (s : Snush) (h : List Printed) : Prop where
  inv : s.Inv
  ledger : s.Ledger h
  room : s.Room
  covered : s.Covered

/-- Every orderly run keeps the invariants that the reports are derived from. -/
theorem run_sound {as : List ShellAction} (horderly : EveryStep step Orderly init as) {s : Snush}
    {h : List Printed} (hrun : run step init as = some (s, h)) : s.Sound h := by
  refine run_induction_of_steps (I := Sound) (P := Orderly)
    ⟨Inv.init, Ledger.init, Room.init, Covered.init⟩ ?_ as horderly s h hrun
  intro s h a s' es hsound horderly hstep
  have hmove := hsound.inv.move_of_step horderly hstep
  exact ⟨hsound.inv.move hmove, hsound.ledger.move hsound.inv hsound.room hmove,
    hsound.room.move hmove, hsound.covered.move hsound.inv hmove⟩

/-- A background job leaves the table in the step in which its report is queued. -/
theorem Ledger.queued_iff {h : List Printed} (hl : s.Ledger h) (hroom : s.Room)
    (hmove : s.TableMove s' es) (k : Nat) : (s.InTable k ∧ ¬ s'.InTable k) ↔
      ∃ job ∈ s'.manager.done, job.serial = k ∧ job ∉ s.manager.done := by
  have hkeep : s.manager.SameJobs s'.manager → s.InTable k → s'.InTable k := by
    rintro hjobs ⟨i, hi, hserial, hbg⟩
    exact ⟨i, hjobs.slots.symm ▸ hi, by rw [(hjobs.jobs i hi).serial, hserial],
      by rw [(hjobs.jobs i hi).state, hbg]⟩
  cases hmove with
  | keeps hjobs hdone =>
      exact ⟨fun h => absurd (hkeep hjobs h.1) h.2, fun ⟨job, hjob, _, hnew⟩ =>
        absurd (hdone ▸ hjob) hnew⟩
  | prints hjobs hdone =>
      exact ⟨fun h => absurd (hkeep hjobs h.1) h.2, fun ⟨job, hjob, _, _⟩ => by
        simp [hdone] at hjob⟩
  | announces hjobs hdone =>
      exact ⟨fun h => absurd (hkeep hjobs h.1) h.2, fun ⟨job, hjob, _, hnew⟩ =>
        absurd (hdone ▸ hjob) hnew⟩
  | registers bg slot job hadds hserial hused =>
      obtain ⟨hempty, hm⟩ := hadds
      refine ⟨fun ⟨⟨i, hi, hik, hbg⟩, hout⟩ => absurd ?_ hout, fun ⟨job, hjob, _, hnew⟩ =>
        absurd (by rw [hm] at hjob; exact hjob) hnew⟩
      have hjob : s'.manager.jobs i = s.manager.jobs i := by
        rw [hm]
        exact JobManager.setJob_jobs_of_ne job fun his => hempty (his ▸ hi)
      exact ⟨i, by rwa [JobManager.mem_slots, hjob, ← JobManager.mem_slots], by rw [hjob, hik],
        by rw [hjob, hbg]⟩
  | endsFg i hi hfg herases hdone =>
      refine ⟨fun ⟨⟨j, hj, hjk, hbg⟩, hout⟩ => absurd ?_ hout, fun ⟨job, hjob, _, hnew⟩ =>
        absurd (hdone ▸ hjob) hnew⟩
      have hji : j ≠ i := by
        rintro rfl
        rw [hfg] at hbg
        cases hbg
      have hj' : j ∈ s'.manager.slots := herases.slots ▸ Finset.mem_erase.mpr ⟨hji, hj⟩
      exact ⟨j, hj', by rw [(herases.jobs j hj').serial, hjk],
        by rw [(herases.jobs j hj').state, hbg]⟩
  | endsBg i hi hbg herases hdone hpc =>
      rw [hroom.enqueueDone hpc] at hdone
      rw [hdone]
      constructor
      · rintro ⟨⟨j, hj, hjk, hjbg⟩, hout⟩
        have hji : j = i := by
          by_contra hne
          have hj' : j ∈ s'.manager.slots := herases.slots ▸ Finset.mem_erase.mpr ⟨hne, hj⟩
          exact hout ⟨j, hj', by rw [(herases.jobs j hj').serial, hjk],
            by rw [(herases.jobs j hj').state, hjbg]⟩
        subst hji
        refine ⟨_, List.mem_append_right _ List.mem_cons_self, hjk, fun hmem => ?_⟩
        exact hl.gone _ (List.mem_append_right _ hmem) j hj rfl
      · rintro ⟨job, hjob, hjk, hnew⟩
        obtain hjob | hjob := List.mem_append.mp hjob
        · exact absurd hjob hnew
        · obtain rfl := List.mem_singleton.mp hjob
          refine ⟨⟨i, hi, hjk, hbg⟩, ?_⟩
          rintro ⟨j, hj, hjk', -⟩
          obtain ⟨hji, hj'⟩ := Finset.mem_erase.mp (herases.slots ▸ hj)
          rw [(herases.jobs j hj).serial] at hjk'
          exact hji (hl.serials j hj' i hi (hjk'.trans hjk.symm))

/-- A job that is due is reported at the next prompt. -/
theorem Sound.done_mem {h : List Printed} (hs : s.Sound h) (hpc : s.pc = .prompt) {job : DoneJob}
    (hdue : Due (· = .checkSignals) job.serial s) (hann : .running job ∈ h) : .done job ∈ h := by
  obtain hjob | ⟨i, hi, hbg, rfl⟩ := hs.ledger.accounted job hann
  · have hroom := hs.room
    rw [Room, hpc] at hroom
    rw [recorded, hroom, List.append_nil] at hjob
    obtain ⟨line, hline, heq⟩ := List.mem_filterMap.mp hjob
    cases line with
    | running job' => cases heq
    | done job' =>
        cases heq
        exact hline
  · obtain ⟨-, ⟨hcheck, -⟩ | ⟨j, hj, -⟩⟩ := hdue.due i hi rfl hbg
    · rw [hpc] at hcheck
      cases hcheck
    · rw [hpc] at hj
      cases hj

/-- In a run in which no job is added while another one has the largest job ID, and no new process
takes the number of a process group in use, every background job is reported once. -/
theorem reportedOnce (as : List ShellAction) (horderly : EveryStep step Orderly init as) :
    ReportedOnce as := by
  have hsound : ∀ n s h, run step init (as.take n) = some (s, h) → s.Sound h :=
    fun n s h hrun => run_sound (horderly.take n) hrun
  have hdue : ∀ {R : Pc → Prop}, KeepsFlag R → ∀ {k l m s s'}, l ≤ m → StateAt step init as l s →
      StateAt step init as m s' → Due R k s → Due R k s' := by
    intro R hR k l m s s' hle hs hs' hd
    refine hs.preserves hle hs' hd fun n t a t' es ht ha hstep hd => ?_
    obtain ⟨h, hrun⟩ := ht
    have hinv := (hsound n t h hrun).inv
    exact hd.move hR hinv (hinv.move_of_step (horderly n t a ⟨h, hrun⟩ ha) hstep)
  refine ⟨fun s h hrun => ?_, fun s h hrun => ?_, fun n s s' hs hs' k => ?_,
    fun n s a hs ha henq => ?_, ?_⟩
  · have hs := run_sound horderly hrun
    exact (List.nodup_append.mp (List.map_append ▸ hs.ledger.once)).1
  · exact (run_sound horderly hrun).ledger.order
  · obtain ⟨h, hrun⟩ := hs
    have hs := hsound n s h hrun
    cases ha : as[n]? with
    | none =>
        have hend : s = s' := by
          refine StateAt.unique ⟨h, hrun⟩ (?_ : StateAt step init as n s')
          obtain ⟨h', hrun'⟩ := hs'
          rw [List.take_add_one, ha, Option.toList_none, List.append_nil] at hrun'
          exact ⟨h', hrun'⟩
        subst hend
        exact ⟨fun h => absurd h.1 h.2, fun ⟨job, hjob, _, hnew⟩ => absurd hjob hnew⟩
    | some a =>
        obtain ⟨es, hstep⟩ := StateAt.step_eq ⟨h, hrun⟩ ha hs'
        have hmove := hs.inv.move_of_step (horderly n s a ⟨h, hrun⟩ ha) hstep
        exact hs.ledger.queued_iff hs.room (hs.inv.tableMove hmove) k
  · obtain ⟨h, hrun⟩ := hs
    have hroom := (hsound n s h hrun).room
    cases a with
    | noChild =>
        obtain ⟨i, hpc, -, -⟩ := henq
        rw [Room, hpc] at hroom
        exact hroom.trans_lt i.isLt
    | _ => cases henq
  · intro l m n s₁ s₂ s₃ h₃ hlm hmn h₁ h₂ hrun job hold hexited hpending hcheck hprompt hann
    obtain ⟨hist, hrun₁⟩ := h₁
    have hs₁ := hsound l s₁ hist hrun₁
    have hdue₂ := hdue keepsFlag_anywhere hlm ⟨hist, hrun₁⟩ h₂
      (hs₁.covered.due hs₁.inv hold hexited hpending)
    have hdue₂' : Due (· = .checkSignals) job.serial s₂ := by
      refine ⟨hdue₂.old, fun i hi hserial hbg => ?_⟩
      obtain ⟨hall, ⟨-, hflag⟩ | hreap⟩ := hdue₂.due i hi hserial hbg
      · exact ⟨hall, .inl ⟨hcheck, hflag⟩⟩
      · exact ⟨hall, .inr hreap⟩
    have hdue₃ := hdue keepsFlag_checkSignals hmn h₂ ⟨h₃, hrun⟩ hdue₂'
    exact (hsound n s₃ h₃ hrun).done_mem hprompt hdue₃ hann

/-- Two background jobs end before one `SIGCHLD` is delivered. `handle_sigchld` reaps both and
queues a report of each, and the next prompt prints the two reports. -/
theorem reportedOnce_two : ∃ as s, run step init as = some (s, [.running ⟨0, 0, 2⟩,
    .running ⟨1, 1, 3⟩, .done ⟨0, 0, 2⟩, .done ⟨1, 1, 3⟩]) ∧ s.pc = .prompt ∧ s.children = [] ∧
    ReportedOnce as := by
  have hrun : run step init ([.advance, .advance] ++ startJob 2 ++ startJob 3 ++
      [.exits 3, .exits 2, .deliver, .interrupted, .advance, .reaped 2, .noChild, .reaped 3,
        .noChild] ++ List.replicate 16 .advance) = some (_, _) := rfl
  exact ⟨_, _, hrun, rfl, rfl, reportedOnce _ (everyStep_of_check (by decide +kernel))⟩

/-- With more than `2 ^ 31` overlapping jobs one of them is reported twice: `delete_job` takes out
another job with the same ID. -/
theorem not_reportedOnce : ¬ ∀ as : List ShellAction, (∃ r, run step init as = some r) →
    ReportedOnce as := by
  intro hall
  obtain ⟨as, es, hrun⟩ := exists_run_sole 1073741823 (by decide)
  have hlast : run step (soleFirst 2147483646) (startJob 3 ++ startJob 4 ++ startJob 5 ++
      [.exits 5, .deliver, .interrupted, .advance, .noChild, .noChild, .noChild, .reaped 5,
        .noChild] ++ List.replicate 14 .advance ++
      [.raise, .deliver, .interrupted, .advance, .noChild, .noChild, .advance, .noChild] ++
      List.replicate 14 .advance) = some (_, _) := rfl
  have hrun' := run_trans hrun hlast
  have honce := (hall _ ⟨_, hrun'⟩).once _ _ hrun'
  rw [reports_append, List.map_append] at honce
  exact absurd (List.nodup_append.mp honce).2.1 (by decide)

end Snush

end SysProg.Shell
