import SysProg.Shell.SnushSpec
import Mathlib.Data.Finset.Card

/-!
# `SysProg.Proofs.Shell.JobTable`: the functions of `job.c`

What `add_job`, `find_job_by_jid`, `remove_pid_from_job` and `delete_job` do to a table whose job
IDs are distinct. `TableOk` is what such a table satisfies on its own, without the children.
-/

set_option autoImplicit false

namespace SysProg.Shell

/-! ### The process IDs of a job -/

/-- `remove_pid_from_job` takes the process out of the ones that are left. It writes `-1` over the
first entry with the ID, and entries with `-1` do not count. The induction follows its loop. -/
theorem filter_clearPid {pid : Int} (hpid : pid ≠ -1) :
    ∀ {n : Nat} {pids pids' : List Int}, clearPid pid n pids = some pids' →
      (pids'.take n).filter (· ≠ -1) = ((pids.take n).filter (· ≠ -1)).erase pid
  | 0, _, _, h => by simp [clearPid] at h
  | _ + 1, [], _, h => by simp [clearPid] at h
  | n + 1, p :: pids, pids', h => by
      rw [clearPid] at h
      split at h
      case isTrue hp =>
        obtain rfl := Option.some.inj h
        subst hp
        simp [hpid]
      case isFalse hp =>
        obtain ⟨ps, hps, rfl⟩ := Option.map_eq_some_iff.mp h
        have ih := filter_clearPid hpid hps
        by_cases hneg : p = -1
        · simpa [hneg] using ih
        · simpa [hneg, List.erase_cons_tail, hp] using ih

/-- `remove_pid_from_job` finds a process of the job. The loop runs to `n_processes`, so only the
entries in front of it matter. -/
theorem exists_clearPid {pid : Int} :
    ∀ {n : Nat} {pids : List Int}, pid ∈ pids.take n → ∃ pids', clearPid pid n pids = some pids'
  | 0, _, h => by simp at h
  | _ + 1, [], h => by simp at h
  | n + 1, p :: pids, h => by
      by_cases hp : p = pid
      · exact ⟨-1 :: pids, by rw [clearPid, if_pos hp]⟩
      · have hmem : pid ∈ pids.take n := by
          simpa [Ne.symm hp] using h
        obtain ⟨ps, hps⟩ := exists_clearPid hmem
        exact ⟨p :: ps, by rw [clearPid, if_neg hp, hps, Option.map_some]⟩

/-- The processes that are left of a job are those it holds. An entry of `-1` stands for one that is
gone. -/
theorem Job.mem_live {job : Job} {pid : Int} : pid ∈ job.live ↔ job.Holds pid ∧ pid ≠ -1 := by
  simp [Job.live, Job.Holds]

/-- The number of the entries other than `-1` is the number of the processes that are left.
`remove_pid_from_job` writes `-1` over the entry of a process, and it counts one process less. -/
theorem Job.length_live (job : Job) :
    (job.pids.take job.nProcesses).countP (· ≠ -1) = job.live.length := by
  simp only [Job.live, List.countP_eq_length_filter]

/-- What `remove_pid_from_job` does when the process is one of the job. -/
structure Removes (job job' : Job) (pid : Int) : Prop where
  live : job'.live = job.live.erase pid
  remaining : job'.remainingProcesses = job.remainingProcesses - 1
  inUse : job'.inUse = job.inUse
  jobId : job'.jobId = job.jobId
  pgid : job'.pgid = job.pgid
  state : job'.state = job.state
  serial : job'.serial = job.serial

/-- `remove_pid_from_job` of a process that is left. It takes this process away, counts one less,
and leaves the rest of the job as it is. -/
theorem removePidFromJob_spec {job : Job} {pid : Int} (h : pid ∈ job.live) :
    Removes job (removePidFromJob job pid) pid := by
  obtain ⟨hmem, hne⟩ := Job.mem_live.mp h
  obtain ⟨pids', hclear⟩ := exists_clearPid hmem
  have hjob : removePidFromJob job pid
      = { job with pids := pids', remainingProcesses := job.remainingProcesses - 1 } := by
    rw [removePidFromJob, hclear]
  rw [hjob]
  exact ⟨filter_clearPid hne hclear, rfl, rfl, rfl, rfl, rfl, rfl⟩

/-! ### The slots -/

namespace JobManager

variable {m : JobManager} {i j slot : Fin maxJobs}

@[simp] theorem mem_slots : i ∈ m.slots ↔ (m.jobs i).inUse = true := by simp [slots]

@[simp] theorem setJob_jobs_self (job : Job) : (m.setJob slot job).jobs slot = job := by
  simp [setJob]

/-- A write to one slot leaves the jobs in the other slots alone. -/
theorem setJob_jobs_of_ne (job : Job) (h : i ≠ slot) : (m.setJob slot job).jobs i = m.jobs i := by
  simp [setJob, h]

@[simp] theorem setJob_nJobs (job : Job) : (m.setJob slot job).nJobs = m.nJobs := rfl

@[simp] theorem setJob_done (job : Job) : (m.setJob slot job).done = m.done := rfl

@[simp] theorem setJob_added (job : Job) : (m.setJob slot job).added = m.added := rfl

/-- The slots in use after a job in use is written into a slot. That slot is one of them then,
whether it was one before or not. -/
theorem slots_setJob_inUse {job : Job} (h : job.inUse = true) :
    (m.setJob slot job).slots = insert slot m.slots := by
  ext i
  by_cases hi : i = slot
  · simp [hi, h]
  · simp [setJob_jobs_of_ne job hi, hi]

/-- The slots in use after a slot is cleared. A zeroed job is not in use. -/
theorem slots_setJob_zero : (m.setJob slot .zero).slots = m.slots.erase slot := by
  ext i
  by_cases hi : i = slot
  · simp [hi, Job.zero]
  · simp [setJob_jobs_of_ne _ hi, hi]

/-- The table with the slot `slot` cleared. -/
def clear (m : JobManager) (slot : Fin maxJobs) : JobManager :=
  { m.setJob slot .zero with nJobs := m.nJobs - 1 }

/-- Clearing a slot leaves the jobs in the other slots alone. -/
theorem clear_jobs_of_ne (h : i ≠ slot) : (m.clear slot).jobs i = m.jobs i :=
  setJob_jobs_of_ne _ h

/-- A cleared slot is not in use any more. All other slots are as they were. -/
theorem slots_clear : (m.clear slot).slots = m.slots.erase slot := slots_setJob_zero

/-- The slots in use after one of them is cleared, one by one. -/
theorem mem_slots_clear : i ∈ (m.clear slot).slots ↔ i ≠ slot ∧ i ∈ m.slots := by
  rw [slots_clear, Finset.mem_erase]

@[simp] theorem clear_done : (m.clear slot).done = m.done := rfl

@[simp] theorem clear_added : (m.clear slot).added = m.added := rfl

/-- The table with the process `pid` removed from the job in `slot`. -/
def remove (m : JobManager) (slot : Fin maxJobs) (pid : Int) : JobManager :=
  m.setJob slot (removePidFromJob (m.jobs slot) pid)

/-- Removing a process of one job leaves the other jobs alone. -/
theorem remove_jobs_of_ne {pid : Int} (h : i ≠ slot) : (m.remove slot pid).jobs i = m.jobs i :=
  setJob_jobs_of_ne _ h

@[simp] theorem remove_jobs_self {pid : Int} :
    (m.remove slot pid).jobs slot = removePidFromJob (m.jobs slot) pid := setJob_jobs_self _

/-- The slots in use stay the same when a process is removed. The job keeps its slot until
`delete_job`, even when no process is left of it. -/
theorem slots_remove {pid : Int} (hslot : slot ∈ m.slots) (hpid : pid ∈ (m.jobs slot).live) :
    (m.remove slot pid).slots = m.slots := by
  rw [remove, slots_setJob_inUse ((removePidFromJob_spec hpid).inUse.trans (mem_slots.mp hslot)),
    Finset.insert_eq_of_mem hslot]

@[simp] theorem remove_done {pid : Int} : (m.remove slot pid).done = m.done := rfl

@[simp] theorem remove_added {pid : Int} : (m.remove slot pid).added = m.added := rfl

/-- What a table satisfies on its own: the counters are right, and job IDs and process groups are
those of one job. -/
structure TableOk (m : JobManager) : Prop where
  count : m.nJobs = m.slots.card
  range : ∀ i ∈ m.slots, 0 ≤ (m.jobs i).jobId ∧ (m.jobs i).jobId ≤ intMax
  ids : ∀ i ∈ m.slots, ∀ j ∈ m.slots, (m.jobs i).jobId = (m.jobs j).jobId → i = j
  groups : ∀ i ∈ m.slots, ∀ j ∈ m.slots, (m.jobs i).pgid = (m.jobs j).pgid → i = j
  group : ∀ i ∈ m.slots, 1 < (m.jobs i).pgid
  remaining : ∀ i ∈ m.slots, (m.jobs i).remainingProcesses = (m.jobs i).live.length
  nodup : ∀ i ∈ m.slots, (m.jobs i).live.Nodup

section
variable (job : DoneJob)

@[simp] theorem enqueueDone_jobs : (m.enqueueDone job).jobs = m.jobs := by
  rw [enqueueDone]
  split <;> rfl

@[simp] theorem enqueueDone_nJobs : (m.enqueueDone job).nJobs = m.nJobs := by
  rw [enqueueDone]
  split <;> rfl

@[simp] theorem enqueueDone_added : (m.enqueueDone job).added = m.added := by
  rw [enqueueDone]
  split <;> rfl

@[simp] theorem enqueueDone_slots : (m.enqueueDone job).slots = m.slots := by
  simp [slots]

end

namespace TableOk

/-- The empty table is right. It has no job, so there is nothing to be in conflict. -/
theorem init : TableOk .init := by
  have hslots : JobManager.init.slots = ∅ := by
    ext i
    simp [JobManager.init, Job.zero]
  constructor <;> simp [hslots]
  rfl

/-- There are at most as many jobs as slots. The counter of the jobs is the number of slots in use.
-/
theorem nJobs_le (h : m.TableOk) : m.nJobs ≤ maxJobs := by
  rw [h.count]
  exact_mod_cast (Finset.card_le_univ m.slots).trans_eq (Fintype.card_fin maxJobs)

/-- The queue of the finished jobs is no part of the table. A report that enters or leaves it
changes nothing here. -/
theorem setDone (h : m.TableOk) (done : List DoneJob) : TableOk { m with done := done } :=
  ⟨h.count, h.range, h.ids, h.groups, h.group, h.remaining, h.nodup⟩

/-- A report for the prompt leaves the table right. When the queue is full it is dropped. -/
theorem enqueueDone (h : m.TableOk) (job : DoneJob) : TableOk (m.enqueueDone job) := by
  rw [JobManager.enqueueDone]
  split
  case isTrue => exact h
  case isFalse => exact h.setDone _

/-- `find_job_by_jid` finds the job with the ID. The loop takes the first slot in use that has it,
and no two jobs share an ID. -/
theorem findJobByJid_eq (h : m.TableOk) (hi : i ∈ m.slots) :
    m.findJobByJid (m.jobs i).jobId = some i := by
  have hsome : (m.findJobByJid (m.jobs i).jobId).isSome := by
    rw [findJobByJid, List.find?_isSome]
    exact ⟨i, List.mem_finRange i, by simpa using mem_slots.mp hi⟩
  obtain ⟨j, hj⟩ := Option.isSome_iff_exists.mp hsome
  have hfound := List.find?_some hj
  simp only [Bool.and_eq_true, beq_iff_eq] at hfound
  rw [hj, h.ids j (mem_slots.mpr hfound.1) i hi hfound.2]

/-- `delete_job` clears the slot of the job with the ID, and no other one. The counter of the jobs
goes down by one. -/
theorem deleteJob_eq (h : m.TableOk) (hi : i ∈ m.slots) :
    m.deleteJob (m.jobs i).jobId = m.clear i := by
  rw [deleteJob, h.findJobByJid_eq hi, JobManager.clear]

/-- A table stays right when one of its jobs is cleared. The slot is free again, and the number of
the jobs goes down by one. -/
theorem clear (h : m.TableOk) (hi : i ∈ m.slots) : (m.clear i).TableOk := by
  have hmem : ∀ j ∈ m.slots.erase i, j ∈ m.slots := fun j hj => Finset.mem_of_mem_erase hj
  have hjobs : ∀ j ∈ m.slots.erase i, (m.clear i).jobs j = m.jobs j :=
    fun j hj => clear_jobs_of_ne (Finset.ne_of_mem_erase hj)
  refine ⟨?_, ?_, ?_, ?_, ?_, ?_, ?_⟩ <;> rw [slots_clear]
  · have hpos : 0 < m.slots.card := Finset.card_pos.mpr ⟨i, hi⟩
    show m.nJobs - 1 = _
    rw [Finset.card_erase_of_mem hi, h.count]
    omega
  · intro j hj
    simpa only [hjobs j hj] using h.range j (hmem j hj)
  · intro j hj k hk
    simpa only [hjobs j hj, hjobs k hk] using h.ids j (hmem j hj) k (hmem k hk)
  · intro j hj k hk
    simpa only [hjobs j hj, hjobs k hk] using h.groups j (hmem j hj) k (hmem k hk)
  · intro j hj
    simpa only [hjobs j hj] using h.group j (hmem j hj)
  · intro j hj
    simpa only [hjobs j hj] using h.remaining j (hmem j hj)
  · intro j hj
    simpa only [hjobs j hj] using h.nodup j (hmem j hj)

/-- A table stays right when a process of one of its jobs is removed. The count of its processes
goes down with their list. -/
theorem remove (h : m.TableOk) (hi : i ∈ m.slots) {pid : Int} (hpid : pid ∈ (m.jobs i).live) :
    (m.remove i pid).TableOk := by
  have hjob := removePidFromJob_spec hpid
  have hid : ∀ j, ((m.remove i pid).jobs j).jobId = (m.jobs j).jobId := by
    intro j
    by_cases hj : j = i
    · simp [hj, hjob.jobId]
    · rw [remove_jobs_of_ne hj]
  have hpgid : ∀ j, ((m.remove i pid).jobs j).pgid = (m.jobs j).pgid := by
    intro j
    by_cases hj : j = i
    · simp [hj, hjob.pgid]
    · rw [remove_jobs_of_ne hj]
  refine ⟨?_, ?_, ?_, ?_, ?_, ?_, ?_⟩ <;> simp only [slots_remove hi hpid, hid, hpgid]
  · exact h.count
  · exact h.range
  · exact h.ids
  · exact h.groups
  · exact h.group
  · intro j hj
    by_cases hji : j = i
    · subst hji
      have hpos := List.length_pos_of_mem hpid
      rw [remove_jobs_self, hjob.remaining, hjob.live, List.length_erase_of_mem hpid,
        h.remaining j hj]
      omega
    · rw [remove_jobs_of_ne hji]
      exact h.remaining j hj
  · intro j hj
    by_cases hji : j = i
    · subst hji
      rw [remove_jobs_self, hjob.live]
      exact (h.nodup j hj).erase pid
    · rw [remove_jobs_of_ne hji]
      exact h.nodup j hj

end TableOk

/-! ### `add_job` -/

/-- The loop of `allocate_jid` keeps a bound on the IDs. A bound on its start and on all jobs in use
is one on its result. -/
theorem maxJid_le {b : Int} :
    ∀ {is : List (Fin maxJobs)} {max : Int}, max ≤ b →
      (∀ i ∈ is, (m.jobs i).inUse = true → (m.jobs i).jobId ≤ b) → m.maxJid is max ≤ b
  | [], _, hmax, _ => hmax
  | i :: is, max, hmax, his => by
      have hrest : ∀ j ∈ is, (m.jobs j).inUse = true → (m.jobs j).jobId ≤ b :=
        fun j hj => his j (List.mem_cons_of_mem i hj)
      rw [maxJid]
      split
      case isTrue h => exact maxJid_le (his i List.mem_cons_self h.1) hrest
      case isFalse => exact maxJid_le hmax hrest

/-- The loop of `allocate_jid` never goes below its start or below a job in use. So its result is
the largest ID, or the start when there is no job. -/
theorem le_maxJid :
    ∀ (is : List (Fin maxJobs)) (max : Int), max ≤ m.maxJid is max ∧
      ∀ i ∈ is, (m.jobs i).inUse = true → (m.jobs i).jobId ≤ m.maxJid is max
  | [], max => ⟨le_rfl, by simp⟩
  | i :: is, max => by
      rw [maxJid]
      split
      case isTrue h =>
        obtain ⟨hstart, hall⟩ := le_maxJid is (m.jobs i).jobId
        refine ⟨by omega, fun j hj hused => ?_⟩
        obtain rfl | hj := List.mem_cons.mp hj
        · exact hstart
        · exact hall j hj hused
      case isFalse h =>
        obtain ⟨hstart, hall⟩ := le_maxJid is max
        refine ⟨hstart, fun j hj hused => ?_⟩
        obtain rfl | hj := List.mem_cons.mp hj
        · have : (m.jobs j).jobId ≤ max := not_lt.mp fun hlt => h ⟨hused, hlt⟩
          omega
        · exact hall j hj hused

/-- `allocate_jid` gives an ID above those in use, when none of them is the largest `int`. With that
one in use the sum wraps around, and the ID is negative. -/
theorem allocateJid_spec (h : m.TableOk) (hmax : ∀ i ∈ m.slots, (m.jobs i).jobId ≠ intMax) :
    0 ≤ m.allocateJid ∧ m.allocateJid ≤ intMax ∧
      ∀ i ∈ m.slots, (m.jobs i).jobId < m.allocateJid := by
  obtain ⟨hstart, hall⟩ := m.le_maxJid (List.finRange maxJobs) (-1)
  have hle : m.maxJid (List.finRange maxJobs) (-1) ≤ intMax - 1 := by
    refine maxJid_le (by decide) fun i _ hused => ?_
    have hi := mem_slots.mpr hused
    have := (h.range i hi).2
    have := hmax i hi
    omega
  have heq : m.allocateJid = m.maxJid (List.finRange maxJobs) (-1) + 1 := by
    rw [allocateJid, wrapInt]
    simp only [intMax] at hle
    exact Int.bmod_eq_of_le (by omega) (by omega)
  refine ⟨by omega, by omega, fun i hi => ?_⟩
  have := hall i (List.mem_finRange i) (mem_slots.mp hi)
  omega

/-- What `add_job` does when there is an empty slot. -/
structure Adds (m m' : JobManager) (slot : Fin maxJobs) (job : Job) : Prop where
  empty : slot ∉ m.slots
  manager : m' = { m.setJob slot job with nJobs := m.nJobs + 1, added := m.added + 1 }

/-- `add_job` when a slot is empty. It takes the first empty slot, writes the job with its new ID
into it, and answers with the ID. -/
theorem addJob_spec (h : m.TableOk) (hfree : m.nJobs + 1 ≤ maxJobs) (pgid : Int) (pids : List Int)
    {n : Nat} (hn : n ≤ maxProcPerJob) (state : JobState) :
    ∃ slot, Adds m (m.addJob pgid pids n state).1 slot (m.newJob pgid pids n state) ∧
      (m.addJob pgid pids n state).2 = m.allocateJid := by
  have hsome : m.emptySlot.isSome := by
    rw [emptySlot, List.find?_isSome]
    have hcard : m.slots.card < Fintype.card (Fin maxJobs) := by
      have := h.count
      rw [Fintype.card_fin]
      omega
    obtain ⟨i, hi⟩ := Finset.exists_mem_notMem_of_card_lt_card (t := Finset.univ) hcard
    exact ⟨i, List.mem_finRange i, by simpa using hi.2⟩
  obtain ⟨slot, hslot⟩ := Option.isSome_iff_exists.mp hsome
  have hempty : slot ∉ m.slots := by
    have := List.find?_some hslot
    simpa using this
  refine ⟨slot, ⟨hempty, ?_⟩, ?_⟩ <;>
    rw [addJob, if_neg (by omega), if_neg (by omega), hslot]
  rfl

/-- The processes of a new job are all left. The shell adds a job after it has forked all of them,
and process IDs are above 1. -/
theorem live_newJob {pgid : Int} {pids : List Int} {state : JobState}
    (hpos : ∀ pid ∈ pids, 1 < pid) : (m.newJob pgid pids pids.length state).live = pids := by
  have hall : ∀ pid ∈ pids, decide (pid ≠ -1) = true := by
    intro pid hpid
    have := hpos pid hpid
    simp
    omega
  simp only [Job.live, newJob, List.take_length]
  exact List.filter_eq_self.mpr hall

/-- A table stays right when a job is added that is in no process group of a job. The ID is new
because it is above all others. -/
theorem TableOk.add (h : m.TableOk) {m' : JobManager} {pgid : Int} {pids : List Int}
    {state : JobState} (hadds : Adds m m' slot (m.newJob pgid pids pids.length state))
    (hmax : ∀ i ∈ m.slots, (m.jobs i).jobId ≠ intMax) (hpos : ∀ pid ∈ pids, 1 < pid)
    (hnodup : pids.Nodup) (hpgid : 1 < pgid) (hapart : ∀ i ∈ m.slots, (m.jobs i).pgid ≠ pgid) :
    m'.TableOk := by
  obtain ⟨hempty, rfl⟩ := hadds
  obtain ⟨hzero, hle, habove⟩ := allocateJid_spec h hmax
  have hjobs : ∀ j ∈ m.slots,
      (m.setJob slot (m.newJob pgid pids pids.length state)).jobs j = m.jobs j :=
    fun j hj => setJob_jobs_of_ne _ fun hjs => hempty (hjs ▸ hj)
  have hslots : JobManager.slots { m.setJob slot (m.newJob pgid pids pids.length state) with
      nJobs := m.nJobs + 1, added := m.added + 1 } = insert slot m.slots :=
    slots_setJob_inUse rfl
  refine ⟨?_, ?_, ?_, ?_, ?_, ?_, ?_⟩ <;>
    simp only [hslots, Finset.forall_mem_insert, setJob_jobs_self]
  · rw [Finset.card_insert_of_notMem hempty, h.count]
    push_cast
    rfl
  · refine ⟨⟨hzero, hle⟩, fun j hj => ?_⟩
    simpa only [hjobs j hj] using h.range j hj
  · refine ⟨⟨fun _ => trivial, fun j hj hid => ?_⟩, fun j hj => ⟨fun hid => ?_, fun k hk => ?_⟩⟩
    · rw [hjobs j hj] at hid
      exact absurd hid (habove j hj).ne'
    · rw [hjobs j hj] at hid
      exact absurd hid (habove j hj).ne
    · simpa only [hjobs j hj, hjobs k hk] using h.ids j hj k hk
  · refine ⟨⟨fun _ => trivial, fun j hj hid => ?_⟩, fun j hj => ⟨fun hid => ?_, fun k hk => ?_⟩⟩
    · rw [hjobs j hj] at hid
      exact absurd hid.symm (hapart j hj)
    · rw [hjobs j hj] at hid
      exact absurd hid (hapart j hj)
    · simpa only [hjobs j hj, hjobs k hk] using h.groups j hj k hk
  · refine ⟨hpgid, fun j hj => ?_⟩
    simpa only [hjobs j hj] using h.group j hj
  · refine ⟨by rw [live_newJob hpos]; rfl, fun j hj => ?_⟩
    simpa only [hjobs j hj] using h.remaining j hj
  · refine ⟨by rwa [live_newJob hpos], fun j hj => ?_⟩
    simpa only [hjobs j hj] using h.nodup j hj

end JobManager

end SysProg.Shell
