import SysProg.Decomment.Main

/-!
# `SysProg.Decomment.Lines`: where the bytes of the output come from

`emits` are the bytes that one step writes, each with its source. `trace` puts the positions in the
input to them, over a run, and `LinesKept` says that the copies stay on their lines.
-/

set_option autoImplicit false

namespace SysProg.Decomment

/-- A byte of the output is the byte that was just read, or the slash that was held back, or it
stands for a comment. -/
inductive Source where
  | read
  | held
  | comment
deriving DecidableEq, Repr

/-- The position of the byte in the input, when the byte at `n` was just read. -/
def Source.position (n : Nat) : Source → Option Nat
  | .read => some n
  | .held => some (n - 1)
  | .comment => none

/-- What `dispatch` writes. -/
def emits : State → UInt8 → List (UInt8 × Source)
  | .normal, ch => if ch = slash then [] else [(ch, .read)]
  | .slash, ch =>
      if ch = star ∨ ch = slash then [(space, .comment)] else [(slash, .held), (ch, .read)]
  | .inBlockComment, ch | .blockCommentStar, ch | .inLineComment, ch =>
      if ch = newline then [(ch, .read)] else []
  | .inString, ch | .stringEscape, ch | .inChar, ch | .charEscape, ch => [(ch, .read)]

/-- The output of a run from `m` on, with the positions of the bytes. The first byte of the input
is at the position `n`. -/
def traceFrom (m : Machine) (n : Nat) : List UInt8 → List (UInt8 × Option Nat)
  | [] => []
  | ch :: input =>
      (emits m.state ch).map (fun e => (e.1, e.2.position n)) ++
        traceFrom (step m ch) (n + 1) input

/-- The output of the loop, with the positions of the bytes. -/
def trace (input : List UInt8) : List (UInt8 × Option Nat) := traceFrom Machine.init 0 input

/-- The whole output. A slash that is held back at the end of the input is the last byte. -/
def stdoutTrace (input : List UInt8) : List (UInt8 × Option Nat) :=
  trace input ++
    if (input.foldl step Machine.init).state = .slash then [(slash, some (input.length - 1))]
    else []

/-- The line of the byte at `k`. -/
def lineOf (text : List UInt8) (k : Nat) : Nat := 1 + (text.take k).count newline

/-- The output has as many newlines as the input, and its bytes are copies from the same line, in
the order of the input, or spaces for comments. -/
structure LinesKept (input output : List UInt8) (copies : List (UInt8 × Option Nat)) : Prop where
  newlines : output.count newline = input.count newline
  bytes : copies.map Prod.fst = output
  copied : ∀ (k : Nat) (c : UInt8) (i : Nat), copies[k]? = some (c, some i) →
    input[i]? = some c ∧ lineOf output k = lineOf input i
  ordered : (copies.filterMap Prod.snd).Pairwise (· < ·)
  spaces : ∀ c, (c, none) ∈ copies → c = space

end SysProg.Decomment
