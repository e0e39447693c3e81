import Mathlib.Algebra.Group.Int.Defs
import Mathlib.Algebra.Group.Nat.Defs
import Mathlib.Data.Fintype.Card
import Mathlib.Data.List.FinRange
import Mathlib.Logic.Function.Basic
import SysProg.Shell.Execute

/-!
# `SysProg.Shell.Job`: the table of the jobs

The model of `job.c`. A pointer to a job is the number of its slot. `pids` holds the entries of
the array that `add_job` has written.

Two fields are no fields of the source, and no function reads them to decide anything. `added`
counts the jobs that were added since the start, and `serial` is the number of a job in this count.
They tell apart the jobs that were in the same slot, or had the same job ID, one after the other.
-/

set_option autoImplicit false

namespace SysProg.Shell

/-- `MAX_JOBS`. -/
def maxJobs : Nat := 16

/-- `INT_MAX`. -/
def intMax : Int := 2147483647

/-- The value of an `int` after an arithmetic operation with the exact result `n`. -/
def wrapInt (n : Int) : Int := Int.bmod n (2 ^ 32)

/-- `job_state`. -/
inductive JobState where
  | unknown
  | foreground
  | background
  | stopped
deriving DecidableEq, Repr

/-- `struct job`, with its serial number. -/
structure Job where
  inUse : Bool
  jobId : Int
  pgid : Int
  nProcesses : Nat
  remainingProcesses : Int
  pids : List Int
  state : JobState
  serial : Nat
deriving DecidableEq, Repr

namespace Job

/-- A job with all bytes `0`. -/
def zero : Job := ⟨false, 0, 0, 0, 0, [], .unknown, 0⟩

/-- The `j`th process ID, for `j < n_processes`, is that of the process `pid`. -/
def Holds (job : Job) (pid : Int) : Prop := pid ∈ job.pids.take job.nProcesses

instance (job : Job) (pid : Int) : Decidable (job.Holds pid) :=
  inferInstanceAs (Decidable (_ ∈ _))

end Job

/-- An entry of `done_jids` and `done_pgids`, with the serial number of the job. -/
structure DoneJob where
  serial : Nat
  jobId : Int
  pgid : Int
deriving DecidableEq, Repr

/-- `struct job_manager`. The length of `done` is `n_done`. -/
structure JobManager where
  nJobs : Int
  jobs : Fin maxJobs → Job
  done : List DoneJob
  added : Nat

namespace JobManager

/-- `init_job_manager`. -/
def init : JobManager := ⟨0, fun _ => .zero, [], 0⟩

/-- The manager with another job in one of the slots. -/
def setJob (m : JobManager) (slot : Fin maxJobs) (job : Job) : JobManager :=
  { m with jobs := Function.update m.jobs slot job }

/-- The loop of `allocate_jid`, over the slots that are left. -/
def maxJid (m : JobManager) : List (Fin maxJobs) → Int → Int
  | [], max => max
  | i :: rest, max =>
      if (m.jobs i).inUse ∧ (m.jobs i).jobId > max then m.maxJid rest (m.jobs i).jobId
      else m.maxJid rest max

/-- `allocate_jid`. -/
def allocateJid (m : JobManager) : Int := wrapInt (m.maxJid (List.finRange maxJobs) (-1) + 1)

/-- The loop of `add_job` that looks for an empty slot. -/
def emptySlot (m : JobManager) : Option (Fin maxJobs) :=
  (List.finRange maxJobs).find? fun i => !(m.jobs i).inUse

/-- The job that `add_job` writes. -/
def newJob (m : JobManager) (pgid : Int) (pids : List Int) (nProcesses : Nat) (state : JobState) :
    Job where
  inUse := true
  jobId := m.allocateJid
  pgid := pgid
  nProcesses := nProcesses
  remainingProcesses := nProcesses
  pids := pids.take nProcesses
  state := state
  serial := m.added

/-- `add_job`. -/
def addJob (m : JobManager) (pgid : Int) (pids : List Int) (nProcesses : Nat) (state : JobState) :
    JobManager × Int :=
  if m.nJobs ≥ maxJobs then (m, -1)
  else if nProcesses > maxProcPerJob then (m, -1)
  else
    match m.emptySlot with
    | none => (m, -1)
    | some slot =>
        let job := m.newJob pgid pids nProcesses state
        ({ m.setJob slot job with nJobs := m.nJobs + 1, added := m.added + 1 }, job.jobId)

/-- `find_job_by_jid`. -/
def findJobByJid (m : JobManager) (jobId : Int) : Option (Fin maxJobs) :=
  (List.finRange maxJobs).find? fun i => (m.jobs i).inUse && (m.jobs i).jobId == jobId

/-- `delete_job`. -/
def deleteJob (m : JobManager) (jobId : Int) : JobManager :=
  match m.findJobByJid jobId with
  | none => m
  | some slot => { m.setJob slot .zero with nJobs := m.nJobs - 1 }

/-- `enqueue_done`. -/
def enqueueDone (m : JobManager) (job : DoneJob) : JobManager :=
  if m.done.length ≥ maxJobs then m else { m with done := m.done ++ [job] }

end JobManager

/-- The loop of `remove_pid_from_job`, for the next `n` entries of `pids`. -/
def clearPid (pid : Int) : Nat → List Int → Option (List Int)
  | 0, _ => none
  | _ + 1, [] => none
  | n + 1, p :: pids => if p = pid then some (-1 :: pids) else (clearPid pid n pids).map (p :: ·)

/-- `remove_pid_from_job`. -/
def removePidFromJob (job : Job) (pid : Int) : Job :=
  match clearPid pid job.nProcesses job.pids with
  | none => job
  | some pids => { job with pids := pids, remainingProcesses := job.remainingProcesses - 1 }

end SysProg.Shell
