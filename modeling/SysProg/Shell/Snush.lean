import SysProg.Shell.Job
import SysProg.Shell.Lexsyn

/-!
# `SysProg.Shell.Snush`: the main loop and its child processes

The model of the main loop of `snush.c`, with `shell_helper` and `check_bg_status`, and of
`handle_sigchld`, `wait_fg`, `fork_exec` and `iter_pipe_fork_exec` of `execute.c`, as a step
function of the shell together with the kernel.

The kernel keeps the children that are not reaped, and the signal `SIGCHLD`. A child may exit at
any time, and a pending signal may be delivered at any time at which the shell does not block it.
`fork` and `pipe` succeed. `Pc` says where the shell is. What one action does between two points is
done in one step where no answer of the kernel comes in between.

`handle_sigint` only sends signals to processes, so it has no step of its own.
-/

set_option autoImplicit false

namespace SysProg.Shell

/-- A child that is not reaped. `exited` says that it is a zombie. -/
structure Child where
  pid : Int
  pgid : Int
  exited : Bool
deriving DecidableEq, Repr

/-- The children that `waitpid(which, …)` looks at. The shell itself has a process group of its
own, so that `0` stands for no child. -/
def Child.Selected (which : Int) (c : Child) : Prop :=
  if which < -1 then c.pgid = -which
  else if which = -1 then True
  else if which = 0 then False
  else c.pid = which

instance (which : Int) (c : Child) : Decidable (c.Selected which) :=
  inferInstanceAs (Decidable (ite _ _ _))

/-- `enum BuiltinType`. -/
inductive BuiltinType where
  | normal
  | exit
  | cd
deriving DecidableEq, Repr

/-- `check_builtin`. The first token of a command is a word. -/
def checkBuiltin : Token → BuiltinType
  | .word value =>
      if value = [99, 100] then .cd
      else if value = [101, 120, 105, 116] then .exit
      else .normal
  | _ => .normal

/-- Where the shell is.

* `checkSignals`: at the start of the body of the main loop.
* `reap i`: in `handle_sigchld`, in front of the slot `i` or in its loop of `waitpid`.
* `checkBgStatus`: behind `check_signals`.
* `prompt`: in `fgets`, behind the prompt.
* `forking n bg pids`: between `block_signal(SIGCHLD, TRUE)` and `add_job`, with `n` processes to
  start in all and the ones that are started.
* `started bg jobId pgid serial`: behind `add_job` and `block_signal(SIGCHLD, FALSE)`.
* `waitFg slot`: in the loop of `wait_fg`.
* `exited`: behind `exit`. -/
inductive Pc where
  | checkSignals
  | reap (i : Nat)
  | checkBgStatus
  | prompt
  | forking (n : Nat) (bg : Bool) (pids : List Int)
  | started (bg : Bool) (jobId pgid : Int) (serial : Nat)
  | waitFg (slot : Fin maxJobs)
  | exited
deriving DecidableEq, Repr

/-- `SIGCHLD` is blocked. -/
def Pc.blocked : Pc → Bool
  | .reap _ => true
  | .forking _ _ _ => true
  | _ => false

/-- The shell and the part of the kernel that it sees. -/
structure Snush where
  manager : JobManager
  pc : Pc
  sigchldFlag : Bool
  sigchldPending : Bool
  children : List Child

/-- The two kinds of lines about a background job that the shell prints. -/
inductive Printed where
  | running (job : DoneJob)
  | done (job : DoneJob)
deriving DecidableEq, Repr

/-- One action.

* `advance`: the next step of the shell, where it waits for no answer.
* `readLine line mem`: `fgets` gives a line, and `shell_helper` runs until it returns or forks.
  `mem` holds the answers of the allocator, as in `lex_line`.
* `endOfFile`, `interrupted`: `fgets` gives `NULL`, with an `errno` other than `EINTR` or not.
* `fork pid`: `fork` gives `pid`, and the child is in its process group.
* `reaped pid`: `waitpid` gives the process ID of a child.
* `noChild`: `waitpid` gives `0`, or `-1` with `ECHILD`.
* `waitInterrupted`: `waitpid` gives `-1` with `EINTR`.
* `exits pid`: a child exits.
* `raise`: another cause of `SIGCHLD`, such as a child that is stopped.
* `deliver`: `sigchld_handler` runs. -/
inductive ShellAction where
  | advance
  | readLine (line : List UInt8) (mem : Nat → Bool)
  | endOfFile
  | interrupted
  | fork (pid : Int)
  | reaped (pid : Int)
  | noChild
  | waitInterrupted
  | exits (pid : Int)
  | raise
  | deliver

namespace Snush

/-- The start of the main loop. -/
def init : Snush := ⟨.init, .checkSignals, false, false, []⟩

/-- `shell_helper`, up to the first fork: where the shell is then. -/
def shellHelper (m : JobManager) (line : List UInt8) (mem : Nat → Bool) : Except Fault Pc := do
  match ← lexLine mem line [] with
  | (.success, []) => return .checkSignals
  | (.success, first :: rest) =>
      let oTokens := first :: rest
      if syntaxCheck oTokens ≠ .success then return .checkSignals
      if m.nJobs + 1 > maxJobs then return .checkSignals
      let isBackground := checkBg oTokens
      let nPipe := countPipe oTokens
      if nPipe > 0 then
        match ← splitSegments nPipe oTokens isBackground with
        | .segments bounds => return .forking bounds.length isBackground []
        | _ => return .checkSignals
      else
        match checkBuiltin first with
        | .normal => return .forking 1 isBackground []
        | .exit => if rest = [] then return .exited else return .checkSignals
        | .cd => return .checkSignals
  | _ => return .checkSignals

/-- The job whose slot is `i` is one that `handle_sigchld` reaps. -/
def Reapable (job : Job) : Prop := job.inUse = true ∧ job.state = .background

instance (job : Job) : Decidable (Reapable job) := inferInstanceAs (Decidable (_ ∧ _))

/-- The end of the body of the loop of `handle_sigchld`, behind the loop of `waitpid`. -/
def reapEnd (m : JobManager) (job : Job) : JobManager :=
  if job.remainingProcesses = 0 then
    (m.enqueueDone ⟨job.serial, job.jobId, job.pgid⟩).deleteJob job.jobId
  else m

/-- The end of `wait_fg`. -/
def waitEnd (m : JobManager) (job : Job) : JobManager :=
  if job.remainingProcesses = 0 then m.deleteJob job.jobId else m

/-- The next step of the shell, where it waits for no answer. -/
def advance (s : Snush) : Option (Snush × List Printed) :=
  match s.pc with
  | .checkSignals =>
      if s.sigchldFlag then some ({ s with pc := .reap 0, sigchldFlag := false }, [])
      else some ({ s with pc := .checkBgStatus }, [])
  | .reap i =>
      if h : i < maxJobs then
        if Reapable (s.manager.jobs ⟨i, h⟩) then none
        else some ({ s with pc := .reap (i + 1) }, [])
      else some ({ s with pc := .checkBgStatus }, [])
  | .checkBgStatus =>
      some ({ s with pc := .prompt, manager := { s.manager with done := [] } },
        s.manager.done.map .done)
  | .forking n bg pids =>
      if pids.length < n then none
      else
        let pgid := pids.headD 0
        let state : JobState := if bg then .background else .foreground
        let r := s.manager.addJob pgid pids n state
        some ({ s with manager := r.1, pc := .started bg r.2 pgid s.manager.added }, [])
  | .started bg jobId pgid serial =>
      if bg then some ({ s with pc := .checkSignals }, [.running ⟨serial, jobId, pgid⟩])
      else
        match s.manager.findJobByJid jobId with
        | none => some ({ s with pc := .checkSignals }, [])
        | some slot => some ({ s with pc := .waitFg slot }, [])
  | _ => none

/-- The kernel takes the child from the table, if it is a zombie that `waitpid(which, …)` looks
at. -/
def takeChild (s : Snush) (which pid : Int) : Option (List Child) :=
  if ∃ c ∈ s.children, c.pid = pid ∧ c.exited = true ∧ c.Selected which then
    some (s.children.filter fun c => c.pid ≠ pid)
  else none

/-- `waitpid` gives the process ID of a child. -/
def reaped (s : Snush) (pid : Int) : Option Snush :=
  match s.pc with
  | .reap i =>
      if h : i < maxJobs then
        let job := s.manager.jobs ⟨i, h⟩
        if Reapable job then
          (s.takeChild (-job.pgid) pid).map fun children =>
            { s with
              manager := s.manager.setJob ⟨i, h⟩ (removePidFromJob job pid)
              children := children }
        else none
      else none
  | .waitFg slot =>
      let job := s.manager.jobs slot
      (s.takeChild (-job.pgid) pid).map fun children =>
        let job := removePidFromJob job pid
        let m := s.manager.setJob slot job
        if job.remainingProcesses = 0 then
          { s with manager := waitEnd m job, children := children, pc := .checkSignals }
        else { s with manager := m, children := children }
  | _ => none

/-- `waitpid` gives no child. With `WNOHANG` this means that no child it looks at has exited, and
without that there is no such child. -/
def noChild (s : Snush) : Option Snush :=
  match s.pc with
  | .reap i =>
      if h : i < maxJobs then
        let job := s.manager.jobs ⟨i, h⟩
        if Reapable job ∧ ∀ c ∈ s.children, c.Selected (-job.pgid) → c.exited = false then
          some { s with manager := reapEnd s.manager job, pc := .reap (i + 1) }
        else none
      else none
  | .waitFg slot =>
      let job := s.manager.jobs slot
      if ∀ c ∈ s.children, ¬ c.Selected (-job.pgid) then
        some { s with manager := waitEnd s.manager job, pc := .checkSignals }
      else none
  | _ => none

/-- `fork` gives the process ID `pid`: positive, not `1`, which is that of the first process of the
system, and not that of a child that is not reaped. The child is put into the process group of the
first process of its job. -/
def forked (s : Snush) (pid : Int) : Option Snush :=
  match s.pc with
  | .forking n bg pids =>
      if pids.length < n ∧ 1 < pid ∧ ∀ c ∈ s.children, c.pid ≠ pid then
        some { s with
          pc := .forking n bg (pids ++ [pid])
          children := s.children ++ [⟨pid, pids.headD pid, false⟩] }
      else none
  | _ => none

/-- A child exits, and `SIGCHLD` is pending. -/
def childExits (s : Snush) (pid : Int) : Option Snush :=
  if ∃ c ∈ s.children, c.pid = pid ∧ c.exited = false then
    some { s with
      children := s.children.map fun c => if c.pid = pid then { c with exited := true } else c
      sigchldPending := true }
  else none

/-- One action of the shell or of the kernel. A state in which the shell has run into a fault has
no next state. -/
def step (s : Snush) : ShellAction → Option (Snush × List Printed)
  | .advance => s.advance
  | .readLine line mem =>
      if s.pc = .prompt then
        match shellHelper s.manager line mem with
        | .error _ => none
        | .ok pc => some ({ s with pc := pc }, [])
      else none
  | .endOfFile => if s.pc = .prompt then some ({ s with pc := .exited }, []) else none
  | .interrupted => if s.pc = .prompt then some ({ s with pc := .checkSignals }, []) else none
  | .fork pid => (s.forked pid).map (·, [])
  | .reaped pid => (s.reaped pid).map (·, [])
  | .noChild => s.noChild.map (·, [])
  | .waitInterrupted =>
      match s.pc with
      | .waitFg _ => some (s, [])
      | _ => none
  | .exits pid => (s.childExits pid).map (·, [])
  | .raise => some ({ s with sigchldPending := true }, [])
  | .deliver =>
      if s.sigchldPending ∧ s.pc.blocked = false then
        some ({ s with sigchldPending := false, sigchldFlag := true }, [])
      else none

end Snush

end SysProg.Shell
