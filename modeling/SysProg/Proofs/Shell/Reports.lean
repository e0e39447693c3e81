import SysProg.Proofs.Shell.JobIds

/-!
# `SysProg.Proofs.Shell.Reports`: every background job is reported once

`TableMove` says what a move does to the jobs of the table, to the queue of the finished jobs and
to the printed lines. Three invariants follow from it.

* `Ledger`: each announced job is in the table, in the queue or among the reports, and only once.
* `Room`: the queue is empty outside `handle_sigchld`, and has no more jobs than slots are passed.
* `Covered`: a zombie of a background job is behind a signal that is pending or noticed, or
  `handle_sigchld` still comes to its slot.

`Due` is the argument in time: a job whose processes have exited stays in front of the shell until
`handle_sigchld` takes it out of the table.
-/

set_option autoImplicit false

namespace SysProg.Shell

open SysProg.Lib

/-- The job that is added and not announced yet. -/
def Pc.announcing : Pc → Option Nat
  | .started true _ _ serial => some serial
  | _ => none

/-- Two jobs differ in their processes at most. -/
structure SameJob (job job' : Job) : Prop where
  entry : job'.entry = job.entry
  state : job'.state = job.state

namespace SameJob

variable {job job' : Job}

/-- A job is the same as itself. The moves that leave the table alone need no more. -/
theorem refl (job : Job) : SameJob job job := ⟨rfl, rfl⟩

/-- The same job has the same serial number. So the number goes on to name it when its processes
exit. -/
theorem serial (h : SameJob job job') : job'.serial = job.serial :=
  congrArg DoneJob.serial h.entry

/-- The same job has the same process group, which is the number in the lines about its start and
its end. -/
theorem pgid (h : SameJob job job') : job'.pgid = job.pgid := congrArg DoneJob.pgid h.entry

end SameJob

namespace JobManager

variable {m m' : JobManager} {i : Fin maxJobs}

/-- The table has the same jobs in the same slots. -/
structure SameJobs (m m' : JobManager) : Prop where
  slots : m'.slots = m.slots
  jobs : ∀ i ∈ m.slots, SameJob (m.jobs i) (m'.jobs i)
  added : m'.added = m.added

/-- The job in slot `i` is taken out of the table. -/
structure Erases (m m' : JobManager) (i : Fin maxJobs) : Prop where
  slots : m'.slots = m.slots.erase i
  jobs : ∀ j ∈ m'.slots, SameJob (m.jobs j) (m'.jobs j)
  added : m'.added = m.added

end JobManager

namespace Snush

/-- What a move does to the table, to the queue and to the printed lines. -/
inductive TableMove (s s' : Snush) : List Printed → Prop where
  | keeps (jobs : s.manager.SameJobs s'.manager) (done : s'.manager.done = s.manager.done)
      (pc : s.pc.announcing = none ∨ s'.pc = s.pc) : TableMove s s' []
  | prints (jobs : s.manager.SameJobs s'.manager) (done : s'.manager.done = [])
      (pc : s.pc = .checkBgStatus) : TableMove s s' (s.manager.done.map .done)
  | announces (jobs : s.manager.SameJobs s'.manager) (done : s'.manager.done = s.manager.done)
      (i : Fin maxJobs) (inUse : i ∈ s.manager.slots) (job : Job) (jobAt : s.manager.jobs i = job)
      (state : job.state = .background) (pc : s.pc.announcing = some job.serial) :
      TableMove s s' [.running job.entry]
  | registers (bg : Bool) (slot : Fin maxJobs) (job : Job)
      (adds : JobManager.Adds s.manager s'.manager slot job) (serial : job.serial = s.manager.added)
      (inUse : job.inUse = true) (state : job.state = if bg then .background else .foreground)
      (old : s.pc.announcing = none)
      (pc : bg = true → s'.pc.announcing = some s.manager.added) : TableMove s s' []
  | endsFg (i : Fin maxJobs) (inUse : i ∈ s.manager.slots)
      (state : (s.manager.jobs i).state = .foreground) (erases : s.manager.Erases s'.manager i)
      (done : s'.manager.done = s.manager.done) (pc : s.pc.announcing = none) : TableMove s s' []
  | endsBg (i : Fin maxJobs) (inUse : i ∈ s.manager.slots)
      (state : (s.manager.jobs i).state = .background) (erases : s.manager.Erases s'.manager i)
      (done : s'.manager.done = (s.manager.enqueueDone (s.manager.jobs i).entry).done)
      (pc : s.pc = .reap i) : TableMove s s' []

variable {s s' : Snush} {es : List Printed}

/-- A table has the same jobs as itself. Most moves only read the table, or they change the process
that the shell is in. -/
theorem sameJobs_refl (m : JobManager) : m.SameJobs m :=
  ⟨rfl, fun i _ => SameJob.refl (m.jobs i), rfl⟩

/-- The jobs stay the same when a process is removed. `remove_pid_from_job` changes the list of
processes of one job, and the number, the group and the state of the job stay. -/
theorem Inv.sameJob_remove (h : s.Inv) {i : Fin maxJobs} {c : Child} (hz : s.ZombieOf i c)
    (j : Fin maxJobs) : SameJob (s.manager.jobs j) ((s.manager.remove i c.pid).jobs j) := by
  by_cases hj : j = i
  · have hremoves := removePidFromJob_spec (h.mem_live hz)
    rw [hj, JobManager.remove_jobs_self]
    refine ⟨?_, hremoves.state⟩
    simp only [Job.entry, hremoves.serial, hremoves.jobId, hremoves.pgid]
  · rw [JobManager.remove_jobs_of_ne hj]
    exact SameJob.refl _

/-- What a move does to the table. Each of the moves of the shell is of one of the kinds of
`TableMove`, and the proofs below have one case for each kind and not one for each move. -/
theorem Inv.tableMove (h : s.Inv) (hmove : s.Move s' es) : s.TableMove s' es := by
  have hplaced := h.placed
  cases hmove with
  | scan hpc _ | unflagged hpc _ | skip i hpc _ | scanned i hpc _ | returns hpc | quits hpc
  | command n bg hpc | forks n bg pids pid hpc | waits i pgid serial hi hpc | leavesBg i hpc =>
      exact .keeps (sameJobs_refl _) rfl (.inl (by rw [hpc]; rfl))
  | prints hpc => exact .prints ⟨rfl, fun i _ => SameJob.refl _, rfl⟩ rfl hpc
  | registers bg pids hpc hpids m slot hadds _ =>
      exact .registers bg slot _ hadds rfl rfl rfl (by rw [hpc]; rfl) fun hbg => by rw [hbg]; rfl
  | announces jobId pgid serial hpc =>
      rw [hpc] at hplaced
      obtain ⟨i, hi, ⟨rfl, rfl, rfl⟩, hstate, -⟩ := hplaced
      have hsame : s.manager.SameJobs ({ s with pc := .checkSignals } : Snush).manager :=
        sameJobs_refl s.manager
      exact .announces hsame rfl i hi _ rfl hstate (by rw [hpc]; rfl)
  | reapsBg i c hpc hz =>
      exact .keeps ⟨h.slots_remove hz, fun j _ => h.sameJob_remove hz j, rfl⟩ rfl (.inr rfl)
  | reapsFg i c hpc hz _ =>
      exact .keeps ⟨h.slots_remove hz, fun j _ => h.sameJob_remove hz j, rfl⟩ rfl (.inr rfl)
  | endsFg i c hpc hz hlast =>
      rw [hpc] at hplaced
      refine .endsFg i hz.inUse hplaced.2.1 ⟨?_, fun j hj => ?_, rfl⟩ rfl (by rw [hpc]; rfl)
      · rw [JobManager.slots_clear, h.slots_remove hz]
      · rw [JobManager.clear_jobs_of_ne (JobManager.mem_slots_clear.mp hj).1]
        exact h.sameJob_remove hz j
  | endsBg i hpc hi hlast =>
      rw [hpc] at hplaced
      refine .endsBg i hi (hplaced i hi).1 ⟨?_, fun j hj => ?_, ?_⟩ rfl hpc
      · rw [JobManager.slots_clear, JobManager.enqueueDone_slots]
      · rw [JobManager.clear_jobs_of_ne (JobManager.mem_slots_clear.mp hj).1,
          JobManager.enqueueDone_jobs]
        exact SameJob.refl _
      · rw [JobManager.clear_added, JobManager.enqueueDone_added]
  | stays | exits pid | raises | delivers _ _ => exact .keeps (sameJobs_refl _) rfl (.inr rfl)

/-! ### Each job is accounted for -/

@[simp] theorem reports_nil : reports [] = [] := rfl

@[simp] theorem reports_append (h h' : List Printed) :
    reports (h ++ h') = reports h ++ reports h' := List.filterMap_append

@[simp] theorem reports_running (job : DoneJob) : reports [.running job] = [] := rfl

@[simp] theorem reports_done (jobs : List DoneJob) : reports (jobs.map .done) = jobs := by
  rw [reports, List.filterMap_map]
  exact List.filterMap_some

/-- The reports that are printed or queued. -/
def recorded (s : Snush) (h : List Printed) : List DoneJob := reports h ++ s.manager.done

/-- Every announced background job is in the table, in the queue or among the reports, and it is
in one place only. -/
structure Ledger (s : Snush) (h : List Printed) : Prop where
  serials : ∀ i ∈ s.manager.slots, ∀ j ∈ s.manager.slots,
    (s.manager.jobs i).serial = (s.manager.jobs j).serial → i = j
  fresh : ∀ i ∈ s.manager.slots, (s.manager.jobs i).serial < s.manager.added
  freshDone : ∀ job ∈ s.recorded h, job.serial < s.manager.added
  once : ((s.recorded h).map DoneJob.serial).Nodup
  gone : ∀ job ∈ s.recorded h, ∀ i ∈ s.manager.slots, (s.manager.jobs i).serial ≠ job.serial
  queued : ∀ job ∈ s.manager.done, .running job ∈ h
  order : ∀ before job after, h = before ++ .done job :: after → .running job ∈ before
  listed : ∀ i ∈ s.manager.slots, (s.manager.jobs i).state = .background →
    s.pc.announcing = some (s.manager.jobs i).serial ∨ .running (s.manager.jobs i).entry ∈ h
  accounted : ∀ job, .running job ∈ h → job ∈ s.recorded h ∨
    ∃ i ∈ s.manager.slots, (s.manager.jobs i).state = .background ∧ (s.manager.jobs i).entry = job

namespace Ledger

variable {h : List Printed}

/-- Before the first move the table, the queue and the output are empty. There is nothing to account
for. -/
theorem init : Snush.init.Ledger [] := by
  have hslots : Snush.init.manager.slots = ∅ := by
    ext i
    simp [Snush.init, JobManager.init, Job.zero]
  have hrecorded : Snush.init.recorded [] = [] := rfl
  have hdone : Snush.init.manager.done = [] := rfl
  constructor <;> simp [hslots, hrecorded, hdone]

/-- The table has the same jobs, and each report that is printed or queued was so before. What is
new is at most the line about the start of a job, and then the job is in the table. -/
theorem keep (hl : s.Ledger h) (hjobs : s.manager.SameJobs s'.manager)
    (hrecorded : s'.recorded (h ++ es) = s.recorded h)
    (hqueued : ∀ job ∈ s'.manager.done, job ∈ s.manager.done)
    (horder : ∀ before job after, h ++ es = before ++ .done job :: after → .running job ∈ before)
    (hlisted : ∀ i ∈ s.manager.slots, (s.manager.jobs i).state = .background →
      s'.pc.announcing = some (s.manager.jobs i).serial ∨
        .running (s.manager.jobs i).entry ∈ h ++ es)
    (haccounted : ∀ job, .running job ∈ es → ∃ i ∈ s.manager.slots,
      (s.manager.jobs i).state = .background ∧ (s.manager.jobs i).entry = job) :
    s'.Ledger (h ++ es) := by
  have hserial : ∀ i ∈ s.manager.slots, (s'.manager.jobs i).serial = (s.manager.jobs i).serial :=
    fun i hi => (hjobs.jobs i hi).serial
  refine ⟨?_, ?_, ?_, ?_, ?_,
    fun job hjob => List.mem_append_left es (hl.queued job (hqueued job hjob)), horder, ?_, ?_⟩ <;>
    simp only [hjobs.slots, hjobs.added, hrecorded]
  · intro i hi j hj
    rw [hserial i hi, hserial j hj]
    exact hl.serials i hi j hj
  · intro i hi
    rw [hserial i hi]
    exact hl.fresh i hi
  · exact hl.freshDone
  · exact hl.once
  · intro job hjob i hi
    rw [hserial i hi]
    exact hl.gone job hjob i hi
  · intro i hi
    rw [hserial i hi, (hjobs.jobs i hi).entry, (hjobs.jobs i hi).state]
    exact hlisted i hi
  · intro job hjob
    have hcase : job ∈ s.recorded h ∨ ∃ i ∈ s.manager.slots,
        (s.manager.jobs i).state = .background ∧ (s.manager.jobs i).entry = job := by
      obtain hjob | hjob := List.mem_append.mp hjob
      · exact hl.accounted job hjob
      · exact .inr (haccounted job hjob)
    obtain hjob | ⟨i, hi, hstate, hentry⟩ := hcase
    · exact .inl hjob
    · refine .inr ⟨i, hi, ?_, ?_⟩
      · rw [(hjobs.jobs i hi).state, hstate]
      · rw [(hjobs.jobs i hi).entry, hentry]

/-- A job leaves the table, and `new` is queued: the job if it is a background job, and nothing
else. The job was in the table only, so it is in the queue only. -/
theorem erase (hl : s.Ledger h) {i : Fin maxJobs} (hi : i ∈ s.manager.slots)
    (herases : s.manager.Erases s'.manager i) {new : List DoneJob}
    (hdone : s'.manager.done = s.manager.done ++ new) (hpc : s.pc.announcing = none)
    (hnew : (s.manager.jobs i).state = .background ∧ new = [(s.manager.jobs i).entry] ∨
      (s.manager.jobs i).state = .foreground ∧ new = []) :
    s'.Ledger h := by
  have hmem : ∀ {j}, j ∈ s'.manager.slots → j ≠ i ∧ j ∈ s.manager.slots := fun hj =>
    Finset.mem_erase.mp (herases.slots ▸ hj)
  have hserial : ∀ j ∈ s'.manager.slots, (s'.manager.jobs j).serial = (s.manager.jobs j).serial :=
    fun j hj => (herases.jobs j hj).serial
  have hrecorded : s'.recorded h = s.recorded h ++ new := by
    rw [recorded, recorded, hdone, List.append_assoc]
  have hentry : ∀ job ∈ new, job = (s.manager.jobs i).entry := by
    obtain ⟨-, rfl⟩ | ⟨-, rfl⟩ := hnew <;> simp
  -- A background job is announced before the shell comes to `handle_sigchld`.
  have hlisted : ∀ j ∈ s.manager.slots, (s.manager.jobs j).state = .background →
      .running (s.manager.jobs j).entry ∈ h := by
    intro j hj hbg
    obtain hann | hann := hl.listed j hj hbg
    · rw [hpc] at hann
      cases hann
    · exact hann
  refine ⟨fun j hj k hk => ?_, fun j hj => ?_, fun job hjob => ?_, ?_, fun job hjob j hj => ?_,
    fun job hjob => ?_, hl.order, fun j hj => ?_, fun job hjob => ?_⟩
  · rw [hserial j hj, hserial k hk]
    exact hl.serials j (hmem hj).2 k (hmem hk).2
  · rw [hserial j hj, herases.added]
    exact hl.fresh j (hmem hj).2
  · rw [herases.added]
    obtain hjob | hjob := List.mem_append.mp (hrecorded ▸ hjob)
    · exact hl.freshDone job hjob
    · rw [hentry job hjob]
      exact hl.fresh i hi
  · rw [hrecorded, List.map_append, List.nodup_append]
    refine ⟨hl.once, ?_, ?_⟩
    · obtain ⟨-, rfl⟩ | ⟨-, rfl⟩ := hnew <;> simp
    · intro k hk l hl'
      obtain ⟨job, hjob, rfl⟩ := List.mem_map.mp hk
      obtain ⟨job', hjob', rfl⟩ := List.mem_map.mp hl'
      rw [hentry job' hjob']
      exact (hl.gone job hjob i hi).symm
  · rw [hserial j hj]
    obtain hjob | hjob := List.mem_append.mp (hrecorded ▸ hjob)
    · exact hl.gone job hjob j (hmem hj).2
    · rw [hentry job hjob]
      exact fun heq => (hmem hj).1 (hl.serials j (hmem hj).2 i hi heq)
  · obtain hjob | hjob := List.mem_append.mp (hdone ▸ hjob)
    · exact hl.queued job hjob
    · obtain ⟨hbg, rfl⟩ | ⟨-, rfl⟩ := hnew
      · rw [hentry job hjob]
        exact hlisted i hi hbg
      · cases hjob
  · rw [(herases.jobs j hj).entry, (herases.jobs j hj).state]
    exact fun hbg => .inr (hlisted j (hmem hj).2 hbg)
  · rw [hrecorded, List.mem_append]
    obtain hjob | ⟨j, hj, hbg, rfl⟩ := hl.accounted job hjob
    · exact .inl (.inl hjob)
    · by_cases hji : j = i
      · subst hji
        obtain ⟨-, rfl⟩ | ⟨hfg, -⟩ := hnew
        · exact .inl (.inr List.mem_cons_self)
        · rw [hfg] at hbg
          cases hbg
      · have hj' : j ∈ s'.manager.slots := herases.slots ▸ Finset.mem_erase.mpr ⟨hji, hj⟩
        refine .inr ⟨j, hj', ?_, (herases.jobs j hj').entry⟩
        rw [(herases.jobs j hj').state, hbg]

/-- A job is added. Its number is new, so no report that is printed or queued is about it. A
background job is announced next. -/
theorem add (hl : s.Ledger h) {bg : Bool} {slot : Fin maxJobs} {job : Job}
    (hadds : JobManager.Adds s.manager s'.manager slot job) (hserial : job.serial = s.manager.added)
    (hused : job.inUse = true) (hstate : job.state = if bg then .background else .foreground)
    (hold : s.pc.announcing = none) (hpc : bg = true → s'.pc.announcing = some s.manager.added) :
    s'.Ledger h := by
  obtain ⟨hempty, hm⟩ := hadds
  have hslots : ∀ {j}, j ∈ s'.manager.slots ↔ j = slot ∨ j ∈ s.manager.slots := by
    intro j
    rw [hm, ← Finset.mem_insert, ← JobManager.slots_setJob_inUse hused]
    rfl
  have hself : s'.manager.jobs slot = job := by
    rw [hm]
    exact JobManager.setJob_jobs_self job
  have hjobs : ∀ j ∈ s.manager.slots, s'.manager.jobs j = s.manager.jobs j := by
    intro j hj
    rw [hm]
    exact JobManager.setJob_jobs_of_ne job fun hjs => hempty (hjs ▸ hj)
  have hadded : s'.manager.added = s.manager.added + 1 := by rw [hm]
  have hdone : s'.manager.done = s.manager.done := by
    rw [hm]
    rfl
  have hrecorded : s'.recorded h = s.recorded h := by rw [recorded, recorded, hdone]
  refine ⟨fun j hj k hk heq => ?_, fun j hj => ?_, fun job' hjob => ?_, ?_,
    fun job' hjob j hj => ?_, ?_, hl.order, fun j hj hbg => ?_, fun job' hjob => ?_⟩
  · obtain rfl | hj := hslots.mp hj
    · obtain rfl | hk := hslots.mp hk
      · rfl
      · rw [hself, hjobs k hk, hserial] at heq
        exact absurd heq (hl.fresh k hk).ne'
    · obtain rfl | hk := hslots.mp hk
      · rw [hself, hjobs j hj, hserial] at heq
        exact absurd heq (hl.fresh j hj).ne
      · rw [hjobs j hj, hjobs k hk] at heq
        exact hl.serials j hj k hk heq
  · rw [hadded]
    obtain rfl | hj := hslots.mp hj
    · rw [hself, hserial]
      exact Nat.lt_succ_self _
    · rw [hjobs j hj]
      exact Nat.lt_succ_of_lt (hl.fresh j hj)
  · rw [hadded]
    exact Nat.lt_succ_of_lt (hl.freshDone job' (hrecorded ▸ hjob))
  · rw [hrecorded]
    exact hl.once
  · obtain rfl | hj := hslots.mp hj
    · rw [hself, hserial]
      exact (hl.freshDone job' (hrecorded ▸ hjob)).ne'
    · rw [hjobs j hj]
      exact hl.gone job' (hrecorded ▸ hjob) j hj
  · rw [hdone]
    exact hl.queued
  · obtain rfl | hj := hslots.mp hj
    · rw [hself] at hbg ⊢
      refine .inl (hserial ▸ hpc ?_)
      by_contra hne
      rw [hstate, if_neg hne] at hbg
      cases hbg
    · rw [hjobs j hj] at hbg ⊢
      obtain hann | hann := hl.listed j hj hbg
      · rw [hold] at hann
        cases hann
      · exact .inr hann
  · rw [hrecorded]
    obtain hjob | ⟨j, hj, hbg, hentry⟩ := hl.accounted job' hjob
    · exact .inl hjob
    · exact .inr ⟨j, hslots.mpr (.inr hj), by rw [hjobs j hj, hbg], by rw [hjobs j hj, hentry]⟩

/-- Reports of queued jobs come behind the lines about their start. A queued job was announced
before it was queued, so its line is in the output already. -/
theorem order_append (hl : s.Ledger h) {es : List Printed}
    (hes : ∀ job, .done job ∈ es → job ∈ s.manager.done) (before : List Printed) (job : DoneJob)
    (after : List Printed) (heq : h ++ es = before ++ .done job :: after) :
    .running job ∈ before := by
  obtain ⟨mid, rfl, hmid⟩ | ⟨mid, rfl, hmid⟩ := List.append_eq_append_iff.mp heq
  · exact List.mem_append_left mid (hl.queued job (hes job (hmid ▸ by simp)))
  · cases mid with
    | nil =>
        rw [List.append_nil] at hl
        rw [List.nil_append] at hmid
        exact hl.queued job (hes job (hmid ▸ List.mem_cons_self))
    | cons line mid =>
        rw [List.cons_append, List.cons.injEq] at hmid
        obtain ⟨rfl, -⟩ := hmid
        exact hl.order before job mid rfl

end Ledger

/-! ### The queue -/

/-- The queue of the finished jobs is empty outside `handle_sigchld` and `check_bg_status`, and in
`handle_sigchld` it has no more jobs than slots are passed. -/
def Room (s : Snush) : Prop :=
  match s.pc with
  | .reap i => s.manager.done.length ≤ i
  | .checkBgStatus => True
  | _ => s.manager.done = []

/-- At the start of the shell the queue is empty, and the shell is not in `handle_sigchld`. -/
theorem Room.init : Snush.init.Room := rfl

/-- A move keeps the bound on the queue. Only `handle_sigchld` queues jobs, at most one for each
slot that it passes, and `check_bg_status` empties the queue. -/
theorem Room.move (hroom : s.Room) (hmove : s.Move s' es) : s'.Room := by
  cases hmove with
  | scan hpc _ =>
      rw [Room, hpc] at hroom
      exact (congrArg List.length hroom).le
  | skip i hpc _ =>
      rw [Room, hpc] at hroom
      exact Nat.le_succ_of_le hroom
  | leavesBg i hpc =>
      rw [Room, hpc] at hroom
      exact Nat.le_succ_of_le hroom
  | endsBg i hpc =>
      rw [Room, hpc] at hroom
      have hlen : (s.manager.enqueueDone (s.manager.jobs i).entry).done.length ≤ i + 1 := by
        rw [JobManager.enqueueDone]
        split
        case isTrue => exact Nat.le_succ_of_le hroom
        case isFalse =>
          rw [List.length_append, List.length_singleton]
          exact Nat.succ_le_succ hroom
      exact hlen
  | registers bg pids hpc _ m slot hadds =>
      rw [Room, hpc] at hroom
      obtain ⟨-, rfl⟩ := hadds
      exact hroom
  | unflagged => trivial
  | scanned => trivial
  | prints => rfl
  | returns hpc | quits hpc | command n bg hpc | forks n bg pids pid hpc
  | announces jobId pgid serial hpc | waits i pgid serial _ hpc =>
      simpa only [Room, hpc] using hroom
  | reapsBg i c hpc | reapsFg i c hpc | stays | exits | raises | delivers => exact hroom
  | endsFg i c hpc =>
      rw [Room, hpc] at hroom
      exact hroom

/-- There is room in the queue for the job in the slot at which `handle_sigchld` is. So
`enqueue_done` never drops a job. -/
theorem Room.enqueueDone (hroom : s.Room) {i : Fin maxJobs} (hpc : s.pc = .reap i) (job : DoneJob) :
    (s.manager.enqueueDone job).done = s.manager.done ++ [job] := by
  rw [Room, hpc] at hroom
  have hlt := i.isLt
  rw [JobManager.enqueueDone, if_neg (by omega)]

namespace Ledger

variable {h : List Printed}

/-- A move keeps the ledger. By the kind of the move, a job stays where it is, or it goes from the
table to the queue, from the queue to the output, or into the table. -/
theorem move (hl : s.Ledger h) (hinv : s.Inv) (hroom : s.Room) (hmove : s.Move s' es) :
    s'.Ledger (h ++ es) := by
  cases hinv.tableMove hmove with
  | keeps hjobs hdone hpc =>
      refine hl.keep hjobs ?_ (fun job hjob => hdone ▸ hjob) (hl.order_append (by simp)) ?_
        (by simp)
      · rw [recorded, recorded, List.append_nil, hdone]
      · intro i hi hbg
        rw [List.append_nil]
        obtain hann | hann := hl.listed i hi hbg
        · obtain hnone | hsame := hpc
          · rw [hnone] at hann
            cases hann
          · exact .inl (hsame ▸ hann)
        · exact .inr hann
  | prints hjobs hdone hpc =>
      refine hl.keep hjobs ?_ (by simp [hdone]) (hl.order_append (by simp)) ?_ (by simp)
      · rw [recorded, recorded, hdone, List.append_nil, reports_append, reports_done]
      · intro i hi hbg
        obtain hann | hann := hl.listed i hi hbg
        · rw [hpc] at hann
          cases hann
        · exact .inr (List.mem_append_left _ hann)
  | announces hjobs hdone i hi job hjob hstate hpc =>
      subst hjob
      refine hl.keep hjobs ?_ (fun job hjob => hdone ▸ hjob) (hl.order_append (by simp)) ?_ ?_
      · rw [recorded, recorded, hdone, reports_append, reports_running, List.append_nil]
      · intro j hj hbg
        obtain hann | hann := hl.listed j hj hbg
        · rw [hpc, Option.some.injEq] at hann
          rw [hl.serials i hi j hj hann]
          exact .inr (by simp)
        · exact .inr (List.mem_append_left _ hann)
      · intro job hjob
        obtain rfl : job = (s.manager.jobs i).entry := by simpa using hjob
        exact ⟨i, hi, hstate, rfl⟩
  | registers bg slot job hadds hserial hused hstate hold hpc =>
      rw [List.append_nil]
      exact hl.add hadds hserial hused hstate hold hpc
  | endsFg i hi hstate herases hdone hpc =>
      rw [List.append_nil]
      exact hl.erase hi herases (hdone.trans (List.append_nil _).symm) hpc (.inr ⟨hstate, rfl⟩)
  | endsBg i hi hstate herases hdone hpc =>
      rw [List.append_nil]
      exact hl.erase hi herases (hdone.trans (hroom.enqueueDone hpc _)) (by rw [hpc]; rfl)
        (.inl ⟨hstate, rfl⟩)

end Ledger

end Snush

end SysProg.Shell
