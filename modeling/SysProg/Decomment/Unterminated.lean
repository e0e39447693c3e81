import Mathlib.Algebra.Group.Int.Defs
import Mathlib.Algebra.Group.Nat.Defs
import SysProg.Decomment.Segments

/-!
# `SysProg.Decomment.Unterminated`: comments that do not end

`EndsInComment` says of a text that its last segment is a block comment without an end. The line
counters of the source are of the type `int`, so `stepInt` keeps them in 32 bits.
-/

set_option autoImplicit false

namespace SysProg.Decomment

/-- The machine is in a block comment. -/
def State.InComment : State → Prop
  | .inBlockComment | .blockCommentStar => True
  | _ => False

/-- A block comment without its end. -/
def Segment.IsOpen : Segment → Prop
  | .block text => ∃ body, text = slash :: star :: body ∧ ¬ close <:+: body
  | _ => False

/-- The input ends in a block comment, and `before` is what stands in front of the comment. -/
def EndsInComment (input before : List UInt8) : Prop :=
  ∃ segments s, Cuts input (segments ++ [s]) ∧ s.IsOpen ∧
    before = segments.flatMap Segment.text

/-- The number of lines. The last one may be without a newline. -/
def lineCount (input : List UInt8) : Nat :=
  input.count newline +
    if input.getLast? = none ∨ input.getLast? = some newline then 0 else 1

/-- A value of the type `int`. -/
def int (n : Int) : Int := n.bmod (2 ^ 32)

/-- The body of the loop, with the line number as an `int`. -/
def stepInt (m : Machine) (ch : UInt8) : Machine :=
  let m := dispatch m ch
  if ch = newline then { m with lineCur := int (m.lineCur + 1) } else m

/-- `main`, with the line numbers as `int`s. -/
def decommentInt (input : List UInt8) : Result := finish (input.foldl stepInt Machine.init)

end SysProg.Decomment
