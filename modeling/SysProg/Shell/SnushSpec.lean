import SysProg.Lib.Run
import SysProg.Shell.Snush

/-!
# `SysProg.Shell.SnushSpec`: what holds of the job table in every run

* `Consistent` relates the job table, the counters in it and the children of the shell.
* `ReportedOnce` says of a run that it reports each background job once, and not too late.
* `Orderly` is the condition on a step: the new job gets the ID that `allocate_jid` means to give
  it, and a new process does not take the number of a process group that has members.
-/

set_option autoImplicit false

namespace SysProg.Shell

open SysProg.Lib

namespace Job

/-- The processes of the job that are not reaped. -/
def live (job : Job) : List Int := (job.pids.take job.nProcesses).filter (· ≠ -1)

/-- The job as `print_job` and `enqueue_done` see it. -/
def entry (job : Job) : DoneJob := ⟨job.serial, job.jobId, job.pgid⟩

end Job

namespace JobManager

/-- The slots in use. -/
def slots (m : JobManager) : Finset (Fin maxJobs) := Finset.univ.filter fun i => (m.jobs i).inUse

end JobManager

/-- The children that are started for a job that is not in the table yet. -/
def Pc.forked : Pc → List Int
  | .forking _ _ pids => pids
  | _ => []

/-- The reports of finished jobs among the lines. -/
def reports (h : List Printed) : List DoneJob :=
  h.filterMap fun
    | .running _ => none
    | .done job => some job

namespace Snush

/-- The job table, its counters and the children of the shell fit together. -/
structure Consistent (s : Snush) : Prop where
  count : s.manager.nJobs = s.manager.slots.card
  bound : s.manager.nJobs ≤ maxJobs
  ids : ∀ i ∈ s.manager.slots, ∀ j ∈ s.manager.slots,
    (s.manager.jobs i).jobId = (s.manager.jobs j).jobId → i = j
  remaining : ∀ i ∈ s.manager.slots, (s.manager.jobs i).remainingProcesses =
    ((s.manager.jobs i).pids.take (s.manager.jobs i).nProcesses).countP (· ≠ -1)
  owner : ∀ c ∈ s.children, c.pid ∉ s.pc.forked →
    ∃! i, i ∈ s.manager.slots ∧ (s.manager.jobs i).Holds c.pid
  prompt : s.pc = .prompt → ∀ i ∈ s.manager.slots,
    (s.manager.jobs i).state = .background ∧ 0 < (s.manager.jobs i).remainingProcesses

/-- The background job with the serial number `k` is in the table. -/
def InTable (s : Snush) (k : Nat) : Prop :=
  ∃ i ∈ s.manager.slots, (s.manager.jobs i).serial = k ∧ (s.manager.jobs i).state = .background

/-- The processes of the job with the serial number `k` that are not reaped have exited. -/
def Exited (s : Snush) (k : Nat) : Prop :=
  ∀ i ∈ s.manager.slots, (s.manager.jobs i).serial = k →
    ∀ c ∈ s.children, (s.manager.jobs i).Holds c.pid → c.exited = true

/-- The action calls `enqueue_done`. -/
def Enqueues (s : Snush) : ShellAction → Prop
  | .noChild => ∃ i : Fin maxJobs, s.pc = .reap i ∧ Reapable (s.manager.jobs i) ∧
      (s.manager.jobs i).remainingProcesses = 0
  | _ => False

/-- Every background job of the run is reported once.

* `once`: no job is reported twice.
* `announced`: a report names a job ID and a process group that were announced before for the same
  job.
* `queued`: a background job leaves the table in the step in which its report is queued.
* `room`: `enqueue_done` never finds the queue full.
* `reported`: when the processes of the job have exited and no `SIGCHLD` is left to deliver, and
  the shell is at `check_signals` and then behind `check_bg_status`, the job is reported. -/
structure ReportedOnce (as : List ShellAction) : Prop where
  once : ∀ s h, run step init as = some (s, h) → ((reports h).map DoneJob.serial).Nodup
  announced : ∀ s h, run step init as = some (s, h) → ∀ before job after,
    h = before ++ .done job :: after → .running job ∈ before
  queued : ∀ n s s', StateAt step init as n s → StateAt step init as (n + 1) s' → ∀ k,
    (s.InTable k ∧ ¬ s'.InTable k) ↔
      ∃ job ∈ s'.manager.done, job.serial = k ∧ job ∉ s.manager.done
  room : ∀ n s a, StateAt step init as n s → as[n]? = some a → s.Enqueues a →
    s.manager.done.length < maxJobs
  reported : ∀ l m n s₁ s₂ s₃ h₃, l ≤ m → m ≤ n → StateAt step init as l s₁ →
    StateAt step init as m s₂ → run step init (as.take n) = some (s₃, h₃) →
    ∀ job, job.serial < s₁.manager.added → s₁.Exited job.serial → s₁.sigchldPending = false →
      s₂.pc = .checkSignals → s₃.pc = .prompt → .running job ∈ h₃ → .done job ∈ h₃

/-- No job has the largest job ID when another one is added, and no new process gets the number of
a process group that a child is in. -/
def Orderly (s : Snush) : ShellAction → Prop
  | .advance => ∀ n bg pids, s.pc = .forking n bg pids →
      ∀ i ∈ s.manager.slots, (s.manager.jobs i).jobId ≠ intMax
  | .fork pid => ∀ c ∈ s.children, c.pgid ≠ pid
  | _ => True

/-- `Orderly` can be tested on a run. Only between the last fork and `add_job` is there something
to look up in the table. -/
instance (s : Snush) : (a : ShellAction) → Decidable (Orderly s a)
  | .advance =>
      match hpc : s.pc with
      | .forking n bg pids =>
          decidable_of_iff (∀ i ∈ s.manager.slots, (s.manager.jobs i).jobId ≠ intMax)
            ⟨fun h _ _ _ _ => h, fun h => h n bg pids hpc⟩
      | .checkSignals | .reap _ | .checkBgStatus | .prompt | .started _ _ _ _ | .waitFg _
      | .exited => isTrue fun _ _ _ h => Pc.noConfusion (hpc.symm.trans h)
  | .fork pid => inferInstanceAs (Decidable (∀ c ∈ s.children, c.pgid ≠ pid))
  | .readLine _ _ | .endOfFile | .interrupted | .reaped _ | .noChild | .waitInterrupted
  | .exits _ | .raise | .deliver => inferInstanceAs (Decidable True)

end Snush

end SysProg.Shell
