import SysProg.Lib.Run
import SysProg.Shell.Snush

/-!
# `SysProg.Shell.WaitFg`: a foreground job and `SIGINT`

The model of `handle_sigint`, of `wait_fg` and of the end of `fork_exec` and `iter_pipe_fork_exec`
in the parent, from `add_job` on. It refines the steps of `Snush`: a `Point` is a place between two
calls of the source, and the signals `SIGINT` and `SIGCHLD` are blocked and delivered one by one.

A signal is delivered at any point at which it is not blocked. The handler of `SIGINT` is installed
without `SA_RESTART`, so that a `waitpid` that sleeps gives `-1` with `EINTR`. After the handler of
`SIGCHLD` it starts again.
-/

set_option autoImplicit false

namespace SysProg.Shell

/-- Where the shell is.

* `unblockChld`, `unblockInt`: behind `add_job`, in front of the two calls of `block_signal`.
* `call`: in front of `wait_fg`.
* `loop`: in front of `waitpid`.
* `asleep`: in `waitpid`, which has found no child that has exited.
* `eintr`: `waitpid` has given `-1` with `EINTR`.
* `blockInt`, `blockChld`, `clear`: in `handle_sigint`, in front of the two calls of `block_signal`
  and of `sigint_flag = 0`.
* `kill i`: in front of the slot `i` in its loop.
* `allowInt`, `allowChld`: in front of the two last calls of `block_signal`.
* `returned`: `wait_fg` has returned. -/
inductive Point where
  | unblockChld
  | unblockInt
  | call
  | loop
  | asleep
  | eintr
  | blockInt
  | blockChld
  | clear
  | kill (i : Nat)
  | allowInt
  | allowChld
  | returned
deriving DecidableEq, Repr

/-- The shell while it has a foreground job. -/
structure WaitFg where
  shell : Snush
  point : Point
  sigintFlag : Bool
  sigintPending : Bool
  sigintBlocked : Bool
  sigchldBlocked : Bool

/-- What happens to `SIGINT`: the shell receives it, or it sends it to a process group. -/
inductive SigintEvent where
  | received
  | killed (pgid : Int)
deriving DecidableEq, Repr

/-- One action.

* `advance`: the next step of the shell.
* `reaped pid`, `noChild`: `waitpid` gives a child, or `-1` with `ECHILD`.
* `sleep`: `waitpid` finds no child that has exited.
* `exits pid`: a child exits.
* `raiseChld`, `raiseInt`: another cause of a signal, such as a child that is stopped, or Ctrl-C.
* `deliverChld`, `deliverInt`: a handler runs. -/
inductive WaitAction where
  | advance
  | reaped (pid : Int)
  | noChild
  | sleep
  | exits (pid : Int)
  | raiseChld
  | raiseInt
  | deliverChld
  | deliverInt
deriving DecidableEq, Repr

/-- The process group that `wait_fg` waits for, in front of its call and in its loop. -/
def Snush.waitedGroup (s : Snush) : Option Int :=
  match s.pc with
  | .started _ jobId _ _ =>
      (s.manager.findJobByJid jobId).map fun slot => (s.manager.jobs slot).pgid
  | .waitFg slot => some (s.manager.jobs slot).pgid
  | _ => none

namespace WaitFg

/-- The next point is in the loop of `wait_fg`, or `wait_fg` has returned. -/
def pointOf (shell : Snush) : Point :=
  match shell.pc with
  | .waitFg _ => .loop
  | _ => .returned

/-- The next step of the shell. -/
def advance (s : WaitFg) : Option (WaitFg × List SigintEvent) :=
  match s.point with
  | .unblockChld => some ({ s with sigchldBlocked := false, point := .unblockInt }, [])
  | .unblockInt => some ({ s with sigintBlocked := false, point := .call }, [])
  | .call =>
      s.shell.advance.map fun r => ({ s with shell := r.1, point := pointOf r.1 }, [])
  | .eintr =>
      if s.sigintFlag then some ({ s with point := .blockInt }, [])
      else some ({ s with point := .loop }, [])
  | .blockInt => some ({ s with sigintBlocked := true, point := .blockChld }, [])
  | .blockChld => some ({ s with sigchldBlocked := true, point := .clear }, [])
  | .clear => some ({ s with sigintFlag := false, point := .kill 0 }, [])
  | .kill i =>
      if h : i < maxJobs then
        let job := s.shell.manager.jobs ⟨i, h⟩
        some ({ s with point := .kill (i + 1) },
          if job.inUse = true ∧ job.state = .foreground then [.killed job.pgid] else [])
      else some ({ s with point := .allowInt }, [])
  | .allowInt => some ({ s with sigintBlocked := false, point := .allowChld }, [])
  | .allowChld => some ({ s with sigchldBlocked := false, point := .loop }, [])
  | _ => none

/-- `waitpid` gives the process ID of a child, at once or after it has slept. -/
def reaped (s : WaitFg) (pid : Int) : Option WaitFg :=
  if s.point = .loop ∨ s.point = .asleep then
    (s.shell.reaped pid).map fun shell => { s with shell := shell, point := pointOf shell }
  else none

/-- `waitpid` gives `-1` with `ECHILD`. -/
def noChild (s : WaitFg) : Option WaitFg :=
  if s.point = .loop then
    s.shell.noChild.map fun shell => { s with shell := shell, point := pointOf shell }
  else none

/-- `waitpid` sleeps: there are children of the process group, and none of them has exited. -/
def sleep (s : WaitFg) : Option WaitFg :=
  match s.shell.waitedGroup with
  | none => none
  | some pgid =>
      if s.point = .loop ∧ (∃ c ∈ s.shell.children, c.Selected (-pgid)) ∧
          ∀ c ∈ s.shell.children, c.Selected (-pgid) → c.exited = false then
        some { s with point := .asleep }
      else none

/-- `sigchld_handler` runs. -/
def deliverChld (s : WaitFg) : Option WaitFg :=
  if s.shell.sigchldPending ∧ s.sigchldBlocked = false then
    some { s with
      shell := { s.shell with sigchldPending := false, sigchldFlag := true }
      point := if s.point = .asleep then .loop else s.point }
  else none

/-- `sigint_handler` runs. -/
def deliverInt (s : WaitFg) : Option (WaitFg × List SigintEvent) :=
  if s.sigintPending ∧ s.sigintBlocked = false then
    some ({ s with
      sigintPending := false
      sigintFlag := true
      point := if s.point = .asleep then .eintr else s.point }, [.received])
  else none

/-- One action of the shell or of the kernel. -/
def step (s : WaitFg) : WaitAction → Option (WaitFg × List SigintEvent)
  | .advance => s.advance
  | .reaped pid => (s.reaped pid).map (·, [])
  | .noChild => s.noChild.map (·, [])
  | .sleep => s.sleep.map (·, [])
  | .exits pid => (s.shell.childExits pid).map fun shell => ({ s with shell := shell }, [])
  | .raiseChld => some ({ s with shell := { s.shell with sigchldPending := true } }, [])
  | .raiseInt => some ({ s with sigintPending := true }, [])
  | .deliverChld => s.deliverChld.map (·, [])
  | .deliverInt => s.deliverInt

/-! ### Ctrl-C -/

/-- A foreground job of the process group `pgid` is in the slot. -/
def JobAt (m : JobManager) (slot : Fin maxJobs) (pgid : Int) : Prop :=
  (m.jobs slot).inUse = true ∧ (m.jobs slot).state = .foreground ∧ (m.jobs slot).pgid = pgid

/-- `add_job` has registered a foreground job of the process group `pgid`, and both signals are
blocked. -/
structure Registered (s : WaitFg) (pgid : Int) : Prop where
  pc : ∃ jobId serial, s.shell.pc = .started false jobId pgid serial
  job : ∃ slot, JobAt s.shell.manager slot pgid
  point : s.point = .unblockChld
  sigintBlocked : s.sigintBlocked = true
  sigchldBlocked : s.sigchldBlocked = true

/-- Each `SIGINT` that was received was sent to the process group `pgid` afterwards. -/
def Forwarded (pgid : Int) (h : List SigintEvent) : Prop :=
  ∀ h₁ h₂, h = h₁ ++ .received :: h₂ → .killed pgid ∈ h₂

/-- When the shell is blocked in `waitpid`, the flag is not set, and each `SIGINT` was forwarded. -/
def NeverLost (pgid : Int) (s : WaitFg) (h : List SigintEvent) : Prop :=
  s.point = .asleep → s.sigintFlag = false ∧ Forwarded pgid h

/-- All processes of the job that are not reaped have exited. -/
def NoneRuns (s : WaitFg) : Prop :=
  ∀ pgid, s.shell.waitedGroup = some pgid →
    ∀ c ∈ s.shell.children, c.Selected (-pgid) → c.exited = true

/-- `SIGINT` is delivered only while `waitpid` sleeps, or on the way from its end to the flag, or
when no process of the job runs any more. -/
def Attended (s : WaitFg) (a : WaitAction) : Prop :=
  a = .deliverInt → s.point = .asleep ∨ s.point = .eintr ∨ s.point = .blockInt ∨ s.NoneRuns

end WaitFg

end SysProg.Shell
