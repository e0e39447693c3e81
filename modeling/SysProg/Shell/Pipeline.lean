import SysProg.Lib.Processes
import SysProg.Shell.Calls

/-!
# `SysProg.Shell.Pipeline`: how the processes of a job are started

The model of `fork_exec` and `iter_pipe_fork_exec`, behind the split into segments, as programs of
the shell and of its children. Each call that makes, closes or duplicates a descriptor is an
operation, and so are `fork` and the loop around `read`. All else is a `StartEvent`.

`jobId` is what `add_job` answers. The commands of the children, and the shell in `wait_fg`, are
not followed any further: the events `run` and `waitFg` stand for them.
-/

set_option autoImplicit false

namespace SysProg.Shell

open Lib

/-- The two signals that the shell blocks. -/
inductive Signal where
  | sigchld
  | sigint
deriving DecidableEq, Repr

/-- What a process does apart from its descriptors and forks.

* `block sig on`: `block_signal`.
* `resetSignals`: the calls of `signal` in `child_reset_signals`.
* `setpgid`, `error`: the functions `setpgid` and `error_print`.
* `addJob`, `printJob`, `waitFg`: the functions of these names.
* `run i`: the child gets to the command of the stage `i`, which may be a built-in.
* `ret`: the function returns. -/
inductive StartEvent where
  | block (sig : Signal) (on : Bool)
  | resetSignals
  | setpgid (pid pgid : Nat)
  | error (e : ErrorPrint)
  | addJob (pgid : Nat) (pids : List Nat) (isBackground : Bool)
  | printJob (jobId : Int)
  | waitFg (jobId : Int)
  | run (i : Nat)
  | ret (value : Int)
deriving DecidableEq, Repr

/-- `block_signal` for both signals. -/
def blockSignals (on : Bool) (next : Prog StartEvent) : Prog StartEvent :=
  .emit (.block .sigchld on) (.emit (.block .sigint on) next)

/-- `child_reset_signals`. -/
def childResetSignals (next : Prog StartEvent) : Prog StartEvent :=
  .emit .resetSignals (blockSignals false next)

/-- `close(p[0])` and `close(p[1])`. -/
def closeBoth (p : Nat × Nat) (next : Prog StartEvent) : Prog StartEvent :=
  .close p.1 (.close p.2 next)

/-- The same under a condition. -/
def closeIf (b : Bool) (p : Nat × Nat) (next : Prog StartEvent) : Prog StartEvent :=
  if b then closeBoth p next else next

/-- `error_print(NULL, PERROR)` and `return -1`. -/
def fail : Prog StartEvent := .emit (.error .errno) (.emit (.ret (-1)) .done)

/-- The child waits until the parent has registered the job. -/
def awaitParent (sync : Nat × Nat) (i : Nat) : Prog StartEvent :=
  .close sync.2 (.readEof sync.1 (.close sync.1 (.emit (.run i) .done)))

/-- The end of the parent: the children are released behind `add_job`. -/
def release (sync : Nat × Nat) (isBackground : Bool) (jobId : Int) : Prog StartEvent :=
  closeBoth sync <| blockSignals false <|
    .emit (if isBackground then .printJob jobId else .waitFg jobId) (.emit (.ret jobId) .done)

/-! ### `fork_exec` -/

/-- The child of `fork_exec`. -/
def forkExecChild (sync : Nat × Nat) : Prog StartEvent :=
  .emit (.setpgid 0 0) (childResetSignals (awaitParent sync 0))

/-- `fork_exec`. -/
def forkExec (isBackground : Bool) (jobId : Int) : Prog StartEvent :=
  .pipe fun
    | none => fail
    | some sync =>
        blockSignals true <| .fork (forkExecChild sync) fun
          | none => closeBoth sync (blockSignals false fail)
          | some pid =>
              .emit (.setpgid pid pid) <| .emit (.addJob pid [pid] isBackground) <|
                let next := release sync isBackground jobId
                if jobId < 0 then .emit (.error (.text "Failed to register job")) next else next

/-! ### `iter_pipe_fork_exec` -/

/-- The standard input of the child, from the pipe in front of its stage. -/
def stdinFrom (i : Nat) (prev : Nat × Nat) (next : Prog StartEvent) : Prog StartEvent :=
  if i > 0 then .dup2 prev.1 0 (closeBoth prev next) else next

/-- The standard output of the child, to the pipe behind its stage. -/
def stdoutTo (nCmd i : Nat) (cur : Nat × Nat) (next : Prog StartEvent) : Prog StartEvent :=
  if i < nCmd - 1 then .dup2 cur.2 1 (closeBoth cur next) else next

/-- The child with the stage `i`. -/
def stageChild (nCmd i : Nat) (sync prev cur : Nat × Nat) (pgid : Nat) : Prog StartEvent :=
  .emit (.setpgid 0 (if i = 0 then 0 else pgid)) <| childResetSignals <|
    stdinFrom i prev <| stdoutTo nCmd i cur <| awaitParent sync i

/-- The `fork` of the stage `i`, and what the child does. `next` is what the parent does with the
process ID of the child. -/
def forkStage (nCmd i : Nat) (sync prev cur : Nat × Nat) (pgid : Nat)
    (next : Nat → Prog StartEvent) : Prog StartEvent :=
  .fork (stageChild nCmd i sync prev cur pgid) fun
    | none =>
        closeBoth sync <| closeIf (i > 0) prev <| closeIf (i < nCmd - 1) cur <|
          blockSignals false fail
    | some pid => next pid

/-- The loop over the stages, with `left` of them to go, and what comes behind it. -/
def forkStages (nCmd : Nat) (isBackground : Bool) (jobId : Int) (sync : Nat × Nat) :
    Nat → Nat → Nat × Nat → Nat × Nat → Nat → List Nat → Prog StartEvent
  | 0, _, _, _, pgid, pids =>
      .emit (.addJob pgid pids isBackground) (release sync isBackground jobId)
  | left + 1, i, prev, cur, pgid, pids =>
      let parent (cur : Nat × Nat) (pid : Nat) : Prog StartEvent :=
        let pgid := if i = 0 then pid else pgid
        .emit (.setpgid pid pgid) <| closeIf (i > 0) prev <|
          forkStages nCmd isBackground jobId sync left (i + 1)
            (if i < nCmd - 1 then cur else prev) cur pgid (pids ++ [pid])
      if i < nCmd - 1 then
        .pipe fun
          | none => closeBoth sync <| closeIf (i > 0) prev <| blockSignals false fail
          | some cur => forkStage nCmd i sync prev cur pgid (parent cur)
      else forkStage nCmd i sync prev cur pgid (parent cur)

/-- The descriptors of a pipe that is not made yet. They are not used. -/
def unmade : Nat × Nat := (0, 0)

/-- `iter_pipe_fork_exec`, but for the split. -/
def iterPipeForkExec (nPipe : Nat) (isBackground : Bool) (jobId : Int) : Prog StartEvent :=
  let nCmd := nPipe + 1
  if nCmd > maxProcPerJob then
    .emit (.error (.text "Too many pipeline stages")) (.emit (.ret (-1)) .done)
  else
    .pipe fun
      | none => fail
      | some sync =>
          blockSignals true (forkStages nCmd isBackground jobId sync nCmd 0 unmade unmade 0 [])

end SysProg.Shell
