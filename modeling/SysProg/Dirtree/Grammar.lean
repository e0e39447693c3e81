import SysProg.Lib.Regular
import SysProg.Dirtree.Pattern

/-!
# `SysProg.Dirtree.Grammar`: the pattern grammar, and the calls of `submatch`

`grammar` is the language of the valid patterns: a sequence of elements, and an element is an atom,
perhaps with a star behind it.

`submatchLog` and `isMatchLog` are `submatch` and `is_match` with a list of the pattern offsets at
which `submatch` is called.
-/

set_option autoImplicit false

namespace SysProg.Dirtree

open SysProg.Lib Computability

/-! ### The grammar -/

/-- A character that has no meaning of its own in a pattern. -/
def Plain (c : UInt8) : Prop := c ≠ lparen ∧ c ≠ rparen ∧ c ≠ star

/-- A word of `l`, perhaps with a star behind it. -/
def starred (l : Language UInt8) : Language UInt8 := l * (1 + letter (· = star))

/-- What may stand between the parentheses of a group. -/
def groupContent : Language UInt8 := several (starred (letter Plain))

/-- A character or a group. -/
def atomText : Language UInt8 :=
  letter Plain + letter (· = lparen) * groupContent * letter (· = rparen)

/-- What a pattern is made of. -/
def element : Language UInt8 := starred atomText

/-- The valid patterns. -/
def grammar : Language UInt8 := several element

/-- A whole number of elements stands in front of the offset `p` of a pattern, and another one
behind it. -/
def AtBoundary (pat : List UInt8) (p : Nat) : Prop :=
  ∃ u ∈ element∗, ∃ v ∈ element∗, pat = u ++ v ∧ u.length = p

/-- The loop of `submatch` that looks for the end of the group at `p` ends behind the matching
parenthesis. There is something in front of it. -/
def ScansGroup (pat : List UInt8) (p : Nat) : Prop :=
  ∃ len, scanGroup pat p (pat.length + 1) 1 0 = .ok (len + 1) ∧ 0 < len ∧
    charAt pat (p + 1 + len) = .ok rparen ∧
    ∀ i < len, charAt pat (p + 1 + i) ≠ .ok lparen ∧ charAt pat (p + 1 + i) ≠ .ok rparen

/-! ### The calls -/

/-- `submatch`, with the offset of each call. -/
def submatchLog (str pat : List UInt8) :
    Nat → Nat → Nat → ExceptT Fault (StateM (List Nat)) Bool
  | 0, _, _ => throw .outOfFuel
  | fuel + 1, s, p => do
      modify (p :: ·)
      let c ← charAt pat p
      if c = 0 then return true
      let len ← atomLen pat p c
      let next := (p + (if c = lparen then len + 2 else len)).toNat
      let d ← charAt pat next
      if d = star then
        if ← submatchLog str pat fuel s (next + 1) then return true
        if ← atomMatches str pat s p c len then
          if ← submatchLog str pat fuel (s + len).toNat p then return true
        return false
      else
        if ← atomMatches str pat s p c len then
          return ← submatchLog str pat fuel (s + len).toNat next
        return false

/-- The loop of `is_match`, with the offset of each call of `submatch`. -/
def isMatchLoopLog (str pat : List UInt8) :
    Nat → Nat → ExceptT Fault (StateM (List Nat)) Bool
  | 0, _ => throw .outOfFuel
  | fuel + 1, i => do
      let c ← charAt str i
      if c ≠ 0 then
        if ← submatchLog str pat (matchFuel str pat) i 0 then return true
        isMatchLoopLog str pat fuel (i + 1)
      else submatchLog str pat (matchFuel str pat) str.length 0

/-- `is_match` for a pattern: its answer, and the offsets of the calls of `submatch`. -/
def isMatchLog (str pat : List UInt8) : Except Fault Bool × List Nat :=
  (isMatchLoopLog str pat (str.length + 1) 0).run.run []

end SysProg.Dirtree
