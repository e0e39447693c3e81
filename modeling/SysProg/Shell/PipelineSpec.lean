import SysProg.Shell.Pipeline

/-!
# `SysProg.Shell.PipelineSpec`: what the processes of a job have to keep

`startSpec` says what holds at each operation of the shell and of its children. `Wired` are the
descriptors of a child at its command, and `Returns` is what the shell has when it returns.

* `AllSucceed`, `FailsAt`: no call of `pipe` and `fork` fails, or the first one is at a stage.
* `Starts`: the programs that start jobs.
-/

set_option autoImplicit false

namespace SysProg.Shell

open Lib

/-- The descriptors at the entry stand for files, and those from 0 to 2 are open. -/
structure StdTable (entry : Table) : Prop where
  files : ∀ fd e, entry fd = some e → ∃ name, e = .file name
  std : ∀ fd, fd ≤ 2 → entry fd ≠ none

/-- `sync_pipe`. It is the first pipe of the shell. -/
def syncPipe : PipeId := ⟨0, 0⟩

/-- The pipe behind the stage `i`. -/
def stagePipe (i : Nat) : PipeId := ⟨0, i + 1⟩

/-- The descriptors of the child with the stage `i`. -/
structure Wired (entry : Table) (nCmd i : Nat) (t : Table) : Prop where
  stdin : t 0 = if i = 0 then entry 0 else some (.reader (stagePipe (i - 1)))
  stdout : t 1 = if i = nCmd - 1 then entry 1 else some (.writer (stagePipe i))
  others : ∀ fd, fd ≠ 0 → fd ≠ 1 → t fd = entry fd

/-- The signal is blocked behind the events. -/
def blockedAfter (sig : Signal) (events : List StartEvent) : Bool :=
  events.foldl (fun b e => match e with
    | .block sig' on => if sig' = sig then on else b
    | _ => b) false

/-- All calls succeed. -/
def AllSucceed (pattern : Pattern) : Prop :=
  ∀ pid k, pattern.pipe pid k = true ∧ pattern.fork pid k = true

/-- The calls for the stage `i` succeed. -/
def StageStarts (pattern : Pattern) (nCmd i : Nat) : Prop :=
  (i < nCmd - 1 → pattern.pipe 0 (i + 1) = true) ∧ pattern.fork 0 i = true

/-- The first call that fails is the `pipe` or the `fork` of the stage `i`. -/
structure FailsAt (pattern : Pattern) (nCmd i : Nat) : Prop where
  lt : i < nCmd
  sync : pattern.pipe 0 0 = true
  before : ∀ k, k < i → StageStarts pattern nCmd k
  fails : ¬ StageStarts pattern nCmd i

/-- `add_job` has been called. -/
def JobAdded (l : Local StartEvent) : Prop :=
  ∃ pgid pids isBackground, .addJob pgid pids isBackground ∈ l.events

/-- The process is in the job table. -/
def Registered (l : Local StartEvent) (pid : Nat) : Prop :=
  ∃ pgid pids isBackground, .addJob pgid pids isBackground ∈ l.events ∧ pid ∈ pids

/-- All pipes are closed and all signals unblocked. The children are those of all stages, and they
are in the job table, or they are those in front of the stage that has failed. -/
structure Returns (pattern : Pattern) (nCmd : Nat) (entry : Table) (l : Local StartEvent)
    (value : Int) : Prop where
  table : l.table = entry
  balance : l.closed.Perm l.opened
  unblocked : ∀ sig, blockedAfter sig l.events = false
  started : nCmd ≤ maxProcPerJob → AllSucceed pattern →
    l.children.length = nCmd ∧ ∀ pid ∈ l.children, Registered l pid
  failed : nCmd ≤ maxProcPerJob → ∀ i, FailsAt pattern nCmd i →
    value = -1 ∧ ¬ JobAdded l ∧ l.children.length = i

/-- What has to hold at each operation. The shell has the process ID 0 here. -/
def startSpec (pattern : Pattern) (nCmd : Nat) (entry : Table) : Spec StartEvent
  | pid, l, .emit (.ret value) => pid = 0 ∧ Returns pattern nCmd entry l value
  | pid, l, .emit (.run i) =>
      0 < pid ∧ i < nCmd ∧ Wired entry nCmd i l.table ∧ syncPipe ∈ l.eofs
  | pid, l, .emit (.addJob _ pids _) => pid = 0 ∧ pids = l.children
  | _, _, .emit _ => True
  | pid, _, .pipe => pid = 0
  | pid, l, .fork =>
      pid = 0 ∧ l.HasWriter syncPipe ∧ l.forkCalls = l.children.length ∧
        (l.children.length < nCmd - 1 → pattern.pipe 0 (l.children.length + 1) = true)
  -- Only open descriptors are closed, and the barrier falls behind `add_job`.
  | pid, l, .close fd =>
      ∃ e, l.table fd = some e ∧
        (pid = 0 → e = .writer syncPipe → JobAdded l ∨ ¬ AllSucceed pattern)
  | pid, _, .dup2 _ _ => 0 < pid
  | pid, l, .readEof fd =>
      0 < pid ∧ l.table fd = some (.reader syncPipe) ∧ ¬ l.HasWriter syncPipe
  | pid, l, .done =>
      ¬ l.HasWriter syncPipe ∧
        (pid = 0 → ∃ value, .ret value ∈ l.events ∧ Returns pattern nCmd entry l value) ∧
        (0 < pid → ∃ i, .run i ∈ l.events)

/-- No child comes to its command, and when the shell is back, all children are in the job table. A
child that is not there stays: nothing but the job table tells the shell for whom to wait. -/
def LeavesNothing (pattern : Pattern) (prog : Prog StartEvent) (entry : Table) : Prop :=
  ∀ s, Reachable pattern (.init prog entry) s →
    (∀ j i, j < s.count → .run i ∉ (s.proc j).locals.events) ∧
      ∀ value, .ret value ∈ (s.proc 0).locals.events →
        ∀ j, 0 < j → j < s.count → Registered (s.proc 0).locals j

/-- The programs that start a job, with the number of its processes. -/
inductive Starts : Prog StartEvent → Nat → Prop
  | single (isBackground : Bool) (jobId : Int) : Starts (forkExec isBackground jobId) 1
  | pipeline (nPipe : Nat) (isBackground : Bool) (jobId : Int) :
      1 ≤ nPipe → nPipe + 1 ≤ maxProcPerJob →
      Starts (iterPipeForkExec nPipe isBackground jobId) (nPipe + 1)

end SysProg.Shell
