import SysProg.Shell.Lexsyn

/-!
# `SysProg.Shell.Execute`: from the tokens of a line to the commands

The model of `count_pipe` and `check_bg` of `util.c`, and of the parts of `execute.c` that cut the
tokens into segments and build the arguments of one command. `openOk` tells whether a file can be
opened. The array `args` has no upper bound here.
-/

set_option autoImplicit false

namespace SysProg.Shell

/-- `MAX_PROC_PER_JOB`. -/
def maxProcPerJob : Nat := 16

/-- `count_pipe`. -/
def countPipe : List Token → Nat
  | [] => 0
  | t :: rest => if t = .pipe then countPipe rest + 1 else countPipe rest

/-- `check_bg`. -/
def checkBg : List Token → Bool
  | [] => false
  | t :: rest => if t = .bg then true else checkBg rest

/-- `total_tokens`, in `fork_exec` and `iter_pipe_fork_exec`. -/
def totalTokens (oTokens : List Token) (isBackground : Bool) : Nat :=
  if isBackground then oTokens.length - 1 else oTokens.length

/-- `dynarray_get`, with its assertion on the index. -/
def dynarrayGet (oTokens : List Token) (i : Nat) : Except Fault Token :=
  match oTokens[i]? with
  | some t => .ok t
  | none => .error .outOfBounds

/-! ### The segments of a pipeline -/

/-- `seg_start[seg_count] = start; seg_end[seg_count] = end; seg_count++`. -/
def addSegment (segs : List (Nat × Nat)) (start stop : Nat) : Except Fault (List (Nat × Nat)) :=
  if segs.length < maxProcPerJob then .ok (segs ++ [(start, stop)]) else .error .outOfBounds

/-- The loop that cuts at `TOKEN_PIPE`, for the next `n` tokens from `i` on. The answer is the
segments and `start` behind the loop. -/
def splitLoop (oTokens : List Token) :
    Nat → Nat → Nat → List (Nat × Nat) → Except Fault (List (Nat × Nat) × Nat)
  | 0, _, start, segs => .ok (segs, start)
  | n + 1, i, start, segs => do
      let t ← dynarrayGet oTokens i
      if t = .pipe then
        let segs ← addSegment segs start i
        splitLoop oTokens n (i + 1) (i + 1) segs
      else splitLoop oTokens n (i + 1) start segs

/-- The first part of `iter_pipe_fork_exec`: it returns with an error message, or it goes on with
the bounds of the segments. -/
inductive SplitResult where
  | tooManyStages
  | inconsistent
  | segments (bounds : List (Nat × Nat))
deriving DecidableEq, Repr

/-- `iter_pipe_fork_exec` in front of the first `pipe`. -/
def splitSegments (nPipe : Nat) (oTokens : List Token) (isBackground : Bool) :
    Except Fault SplitResult :=
  let nCmd := nPipe + 1
  let total := totalTokens oTokens isBackground
  if maxProcPerJob < nCmd then .ok .tooManyStages
  else do
    let (segs, start) ← splitLoop oTokens total 0 0 []
    let segs ← addSegment segs start total
    if segs.length ≠ nCmd then return .inconsistent else return .segments segs

/-! ### The arguments of a command -/

/-- A file that is opened for the standard input or the standard output. -/
inductive Redirect where
  | input (file : List UInt8)
  | output (file : List UInt8)
deriving DecidableEq, Repr

/-- Why a child does not get to its command. -/
inductive ChildStop where
  | fault (f : Fault)
  | exit (status : Nat)
deriving DecidableEq, Repr

/-- The variables of `build_command_partial`, and the files it has opened. -/
structure BuildVars where
  redin : Bool
  redout : Bool
  args : List (List UInt8)
  opened : List Redirect
deriving DecidableEq, Repr

/-- `redin_handler` and `redout_handler`. If the file cannot be opened, the child exits. -/
def redirectHandler (openOk : Redirect → Bool) (r : Redirect) (vars : BuildVars) :
    Except ChildStop BuildVars :=
  if openOk r then .ok { vars with opened := vars.opened ++ [r] } else .error (.exit 127)

/-- The body of the loop of `build_command_partial`. -/
def buildStep (openOk : Redirect → Bool) (vars : BuildVars) (t : Token) :
    Except ChildStop BuildVars :=
  match t with
  | .word value =>
      if vars.redin then do
        let vars ← redirectHandler openOk (.input value) vars
        return { vars with redin := false }
      else if vars.redout then do
        let vars ← redirectHandler openOk (.output value) vars
        return { vars with redout := false }
      else .ok { vars with args := vars.args ++ [value] }
  | .redin => .ok { vars with redin := true }
  | .redout => .ok { vars with redout := true }
  | _ => .ok vars

/-- The loop of `build_command_partial`, for the next `n` tokens from `i` on. -/
def buildLoop (openOk : Redirect → Bool) (oTokens : List Token) :
    Nat → Nat → BuildVars → Except ChildStop BuildVars
  | 0, _, vars => .ok vars
  | n + 1, i, vars =>
      match dynarrayGet oTokens i with
      | .error f => .error (.fault f)
      | .ok t => do
          let vars ← buildStep openOk vars t
          buildLoop openOk oTokens n (i + 1) vars

/-- `build_command_partial`. The answer is `args` in front of the final `NULL`, and the files that
are opened. -/
def buildCommandPartial (openOk : Redirect → Bool) (oTokens : List Token) (start stop : Nat) :
    Except ChildStop (List (List UInt8) × List Redirect) := do
  let vars ← buildLoop openOk oTokens (stop - start) start ⟨false, false, [], []⟩
  return (vars.args, vars.opened)

end SysProg.Shell
