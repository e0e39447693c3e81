import SysProg.Shell.Snush
import SysProg.Shell.Stages

/-!
# `SysProg.Shell.Calls`: what is called for an accepted line

`helperCalls` are the calls that get the bounds of a command: `build_command_partial`, which writes
the array `args`, and `execute_builtin_partial`. They are made when all processes can be started.

* `buildWrites`: the indices of `args` that `build_command_partial` writes.
* `executeBuiltinPartial`: a built-in. A variable without a value is `none`.
* `WritesFit`, `DirsAssigned`: no index is out of range, and `chdir` has an argument.
-/

set_option autoImplicit false

namespace SysProg.Shell

/-- `MAX_ARGS_CNT`. -/
def maxArgsCnt : Nat := 64

/-- A call with the bounds of a command. -/
inductive Call where
  | build (start stop : Nat)
  | builtin (btype : BuiltinType) (start stop : Nat) (inChild : Bool)
deriving DecidableEq, Repr

/-- The child of `iter_pipe_fork_exec`, behind the barrier. -/
def childCall (oTokens : List Token) (bounds : Nat × Nat) : Except Fault Call := do
  let first ← dynarrayGet oTokens bounds.1
  match checkBuiltin first with
  | .normal => return .build bounds.1 bounds.2
  | btype => return .builtin btype bounds.1 bounds.2 true

/-- `shell_helper` on the tokens of an accepted line, with `fork_exec`, `iter_pipe_fork_exec` and
`execute_builtin`. -/
def helperCalls : List Token → Except Fault (List Call)
  | [] => .ok []
  | first :: rest => do
      let oTokens := first :: rest
      let isBackground := checkBg oTokens
      let nPipe := countPipe oTokens
      if nPipe > 0 then
        match ← splitSegments nPipe oTokens isBackground with
        | .segments bounds => bounds.mapM (childCall oTokens)
        | _ => return []
      else
        match checkBuiltin first with
        | .normal => return [.build 0 (totalTokens oTokens isBackground)]
        | btype => return [.builtin btype 0 oTokens.length false]

/-! ### The writes to `args` -/

/-- `args[cnt++] = t->token_value`, if the token is an argument. -/
def argWrites (vars : BuildVars) : Token → List Nat
  | .word _ => if vars.redin || vars.redout then [] else [vars.args.length]
  | _ => []

/-- The writes of the loop of `build_command_partial`, and `args[cnt] = NULL` behind it. A child
that cannot open a file exits. -/
def writesLoop (openOk : Redirect → Bool) (oTokens : List Token) : Nat → Nat → BuildVars → List Nat
  | 0, _, vars => [vars.args.length]
  | n + 1, i, vars =>
      match dynarrayGet oTokens i with
      | .error _ => []
      | .ok t =>
          argWrites vars t ++
            match buildStep openOk vars t with
            | .error _ => []
            | .ok vars => writesLoop openOk oTokens n (i + 1) vars

/-- The indices at which `build_command_partial` writes `args`. -/
def buildWrites (openOk : Redirect → Bool) (oTokens : List Token) (start stop : Nat) : List Nat :=
  writesLoop openOk oTokens (stop - start) start ⟨false, false, [], []⟩

/-! ### The built-ins -/

/-- What `error_print` writes: a text of the program, or the one for `errno`. -/
inductive ErrorPrint where
  | text (message : String)
  | errno
deriving DecidableEq, Repr

/-- How `execute_builtin_partial` ends. -/
inductive BuiltinEnd where
  | exit
  | ret (value : Int)
deriving DecidableEq, Repr

/-- A call of `execute_builtin_partial`. `chdir` is the argument of `chdir`, if that is called. -/
structure BuiltinRun where
  chdir : Option (Option (List UInt8))
  error : Option ErrorPrint
  result : BuiltinEnd
deriving DecidableEq, Repr

/-- `ret = chdir(dir)`, and what comes behind it. -/
def chdirRun (chdirOk : Option (List UInt8) → Bool) (dir : Option (List UInt8)) : BuiltinRun :=
  if chdirOk dir then ⟨some dir, none, .ret 0⟩ else ⟨some dir, some .errno, .ret (-1)⟩

/-- An error in front of `chdir`. -/
def refused (message : String) : BuiltinRun := ⟨none, some (.text message), .ret (-1)⟩

/-- `execute_builtin_partial`. `home` is the variable `HOME`, and `chdirOk` tells whether `chdir`
succeeds. -/
def executeBuiltinPartial (home : Option (List UInt8)) (chdirOk : Option (List UInt8) → Bool)
    (toks : List Token) (start stop : Nat) (btype : BuiltinType) (inChild : Bool) :
    Except Fault BuiltinRun :=
  let argc := stop - start
  match btype with
  | .exit =>
      if inChild then .ok ⟨none, none, .ret 0⟩
      else if argc = 1 then .ok ⟨none, none, .exit⟩
      else .ok (refused "exit does not take any parameters")
  | .cd =>
      if argc = 1 then
        match home with
        | none => .ok (refused "cd: HOME variable not set")
        | some dir => .ok (chdirRun chdirOk (some dir))
      else if argc = 2 then do
        let t1 ← dynarrayGet toks (start + 1)
        -- Without a word the variable `dir` has no value.
        let dir := match t1 with
          | .word value => some value
          | _ => none
        return chdirRun chdirOk dir
      else .ok (refused "cd: Too many parameters")
  | .normal => .ok (refused "Bug found in execute_builtin_partial")

/-! ### The properties -/

/-- A line that `lex_line` and `syntax_check` accept, with its tokens. -/
structure Accepted (mem : Nat → Bool) (line : List UInt8) (oTokens : List Token) : Prop where
  length_lt : line.length < maxLineSize
  lexed : lexLine mem line [] = .ok (.success, oTokens)
  checked : syntaxCheck oTokens = .success

/-- All writes of `build_command_partial` are inside of the array. -/
def WritesFit (oTokens : List Token) : Prop :=
  ∃ calls, helperCalls oTokens = .ok calls ∧
    ∀ openOk start stop, .build start stop ∈ calls →
      ∀ i ∈ buildWrites openOk oTokens start stop, i < maxArgsCnt

/-- The words of a segment that are not the targets of redirections. -/
def Segment.argc (s : Segment) : Nat :=
  1 + s.items.countP fun item => match item with
    | .word _ => true
    | _ => false

/-- The segments that a child builds have at most 63 words. -/
def ArgsFit (oTokens : List Token) : Prop :=
  ∀ segments bg, Command segments bg oTokens → segments.length ≤ maxProcPerJob →
    ∀ s ∈ segments, checkBuiltin (.word s.command) = .normal → s.argc ≤ 63

/-- A `chdir` goes to `HOME` or to the one argument of the command. -/
def DirsAssigned (oTokens : List Token) : Prop :=
  ∃ calls, helperCalls oTokens = .ok calls ∧
    ∀ home chdirOk start stop inChild, .builtin .cd start stop inChild ∈ calls →
      ∃ run, executeBuiltinPartial home chdirOk oTokens start stop .cd inChild = .ok run ∧
        ∀ dir, run.chdir = some dir → ∃ value, dir = some value ∧
          (home = some value ∨
            commandWords none (tokensBetween oTokens (start, stop)) = [[99, 100], value])

end SysProg.Shell
