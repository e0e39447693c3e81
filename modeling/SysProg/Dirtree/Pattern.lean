import Mathlib.Data.List.Basic

/-!
# `SysProg.Dirtree.Pattern`: the pattern filter of `dirtree`

The model of the pattern matching in `dirtree.c`. A string is the list of its bytes without the
terminator, and a `const char *` into it is an offset. `charAt` is a read: the byte at the length
of the string is the terminator, and a read behind it is a fault.

* `validatePattern` tells whether `validate_pattern` returns. Otherwise it ends the program.
* `matchLiteral`, `submatch` and `isMatch` are the matching functions. The recursion of
  `submatch` has an argument `fuel`, and running out of it is a fault too.
-/

set_option autoImplicit false

namespace SysProg.Dirtree

/-- Why a function does not return. -/
inductive Fault where
  | outOfBounds
  | outOfFuel
deriving DecidableEq, Repr

/-- The byte at the offset `i` of a string. -/
def charAt (s : List UInt8) (i : Nat) : Except Fault UInt8 :=
  if i < s.length then .ok (s.getD i 0) else if i = s.length then .ok 0 else .error .outOfBounds

/-- `'('`. -/
def lparen : UInt8 := 40

/-- `')'`. -/
def rparen : UInt8 := 41

/-- `'*'`. -/
def star : UInt8 := 42

/-- `'?'`. -/
def question : UInt8 := 63

/-! ### `validate_pattern` -/

/-- The loop of `validate_pattern` over the bytes that are left. `prev` is the byte before them,
and `none` at the start. -/
def validateLoop (prev : Option UInt8) (inGroup : Bool) (groupLen : Nat) : List UInt8 → Bool
  | [] => !inGroup
  | c :: rest =>
      if c = lparen then
        if inGroup then false else validateLoop (some c) true 0 rest
      else if c = rparen then
        if !inGroup || groupLen = 0 then false else validateLoop (some c) false groupLen rest
      else if c = star then
        if prev = none ∨ prev = some star ∨ prev = some lparen then false
        else validateLoop (some c) inGroup groupLen rest
      else validateLoop (some c) inGroup (if inGroup then groupLen + 1 else groupLen) rest

/-- `validate_pattern` accepts the pattern. -/
def validatePattern (pat : List UInt8) : Bool :=
  if pat.isEmpty then false else validateLoop none false 0 pat

/-! ### Matching -/

/-- `match_literal`. The two strings are read from `s` and `p` on. -/
def matchLiteral (str pat : List UInt8) : Nat → Nat → Nat → Except Fault Bool
  | _, _, 0 => .ok true
  | s, p, n + 1 => do
      let c ← charAt str s
      if c = 0 then return false
      let d ← charAt pat p
      if d ≠ question ∧ c ≠ d then return false
      matchLiteral str pat (s + 1) (p + 1) n

/-- The loop of `submatch` that looks for the end of a group. The answer is `p_len` behind the
loop. -/
def scanGroup (pat : List UInt8) (p : Nat) : Nat → Nat → Nat → Except Fault Nat
  | 0, _, _ => .error .outOfFuel
  | fuel + 1, depth, len => do
      let c ← charAt pat (p + 1 + len)
      if c ≠ 0 ∧ 0 < depth then
        let depth := if c = lparen then depth + 1 else if c = rparen then depth - 1 else depth
        scanGroup pat p fuel depth (len + 1)
      else return len

/-- `p_len` of `submatch`, for a pattern with the byte `c` at `p`. -/
def atomLen (pat : List UInt8) (p : Nat) (c : UInt8) : Except Fault Int :=
  if c = lparen then (scanGroup pat p (pat.length + 1) 1 0).map fun len => (len : Int) - 1
  else .ok 1

/-- The test of `submatch` whether the character or the group at `p` matches at `s`. -/
def atomMatches (str pat : List UInt8) (s p : Nat) (c : UInt8) (len : Int) : Except Fault Bool :=
  if c = lparen then matchLiteral str pat s (p + 1) len.toNat
  else do
    let a ← charAt str s
    return a ≠ 0 ∧ (c = question ∨ a = c)

/-- `submatch(str + s, pat + p)`. -/
def submatch (str pat : List UInt8) : Nat → Nat → Nat → Except Fault Bool
  | 0, _, _ => .error .outOfFuel
  | fuel + 1, s, p => do
      let c ← charAt pat p
      if c = 0 then return true
      let len ← atomLen pat p c
      let next := (p + (if c = lparen then len + 2 else len)).toNat
      let d ← charAt pat next
      if d = star then
        if ← submatch str pat fuel s (next + 1) then return true
        if ← atomMatches str pat s p c len then
          if ← submatch str pat fuel (s + len).toNat p then return true
        return false
      else
        if ← atomMatches str pat s p c len then
          return ← submatch str pat fuel (s + len).toNat next
        return false

/-- A depth of recursion that `submatch` does not exceed. -/
def matchFuel (str pat : List UInt8) : Nat := str.length + pat.length + 1

/-- The loop of `is_match` over the start positions, from `i` on. At the terminator the last
suffix, the empty one, is tried. -/
def isMatchLoop (str pat : List UInt8) : Nat → Nat → Except Fault Bool
  | 0, _ => .error .outOfFuel
  | fuel + 1, i => do
      let c ← charAt str i
      if c ≠ 0 then
        if ← submatch str pat (matchFuel str pat) i 0 then return true
        isMatchLoop str pat fuel (i + 1)
      else submatch str pat (matchFuel str pat) str.length 0

/-- `is_match`. -/
def isMatch (str : List UInt8) (pat : Option (List UInt8)) : Except Fault Bool :=
  match pat with
  | none => .ok true
  | some pat => isMatchLoop str pat (str.length + 1) 0

end SysProg.Dirtree
