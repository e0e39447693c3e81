import SysProg.Lib.Run
import SysProg.Shell.Snush

/-!
# `SysProg.Shell.EndOfInput`: the main loop and `errno`

The model of the main loop of `snush.c` with the variable `errno`, on top of `Snush`. A call that
fails sets `errno`, and no other step changes it: a call that succeeds does not, and the end of the
input does not either. When `fgets` gives `NULL`, `main` looks at `errno` to find out why.
-/

set_option autoImplicit false

namespace SysProg.Shell

/-- `EINTR`. -/
def eintr : Nat := 4

/-- `ECHILD`. -/
def echild : Nat := 10

/-- The shell, and `errno`. -/
structure Main where
  shell : Snush
  errno : Nat

/-- One action.

* `shell a`: an action of `Snush` other than that `fgets` gives `NULL`.
* `endOfFile`: `fgets` gives `NULL` at the end of the input.
* `readFails e`: `fgets` gives `NULL` since its `read` fails, with `EINTR` when a signal has
  interrupted it.
* `startFails e`: `pipe` or `fork` fails in `fork_exec` or `iter_pipe_fork_exec`.
* `callFails e`: another call fails that the shell goes on after, such as `kill` in `handle_sigint`
  or `chdir` in `cd`. -/
inductive MainAction where
  | shell (a : ShellAction)
  | endOfFile
  | readFails (e : Nat)
  | startFails (e : Nat)
  | callFails (e : Nat)

namespace Main

/-- The start of the main loop. -/
def init : Main := ⟨.init, 0⟩

/-- The first argument of the `waitpid` that comes next. -/
def waitpidArg (s : Snush) : Option Int :=
  match s.pc with
  | .reap i => if h : i < maxJobs then some (-(s.manager.jobs ⟨i, h⟩).pgid) else none
  | .waitFg slot => some (-(s.manager.jobs slot).pgid)
  | _ => none

/-- What `errno` is set to in an action of `Snush`, if a call fails in it. `waitpid` fails when it
is interrupted, and when there is no child that it looks at. With `WNOHANG` it gives `0` when there
are such children. -/
def failure (s : Snush) : ShellAction → Option Nat
  | .waitInterrupted => some eintr
  | .noChild =>
      if ∀ which, waitpidArg s = some which → ∀ c ∈ s.children, ¬c.Selected which then some echild
      else none
  | _ => none

/-- The branch of `main` for `fgets(c_line, MAX_LINE_SIZE, stdin) == NULL`. -/
def nullLine (s : Main) : Option Main :=
  let a : ShellAction := if s.errno = eintr then .interrupted else .endOfFile
  (s.shell.step a).map fun r => { s with shell := r.1 }

/-- One action. The events are the values that `errno` is set to. -/
def step (s : Main) : MainAction → Option (Main × List Nat)
  | .shell .endOfFile | .shell .interrupted => none
  | .shell a =>
      (s.shell.step a).map fun r =>
        (⟨r.1, (failure s.shell a).getD s.errno⟩, (failure s.shell a).toList)
  | .endOfFile => s.nullLine.map (·, [])
  | .readFails e => (nullLine { s with errno := e }).map (·, [e])
  | .startFails e =>
      match s.shell.pc with
      | .forking _ _ _ => some (⟨{ s.shell with pc := .checkSignals }, e⟩, [e])
      | _ => none
  | .callFails e => some ({ s with errno := e }, [e])

/-- The last call that has failed has set `errno` to `e`. -/
def LastFailed (e : Nat) (h : List Nat) : Prop := h.getLast? = some e

/-- At the end of the input the shell exits. -/
def ExitsAtEnd (s : Main) : Prop :=
  ∃ s', step s .endOfFile = some (s', []) ∧ s'.shell.pc = .exited

end Main

end SysProg.Shell
