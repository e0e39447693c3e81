import SysProg.Lib.PrefixMatch
import SysProg.Dirtree.Pattern

/-!
# `SysProg.Dirtree.PatternSpec`: the pattern language

A pattern is a sequence of pieces. A piece is a character, `?` or a group, perhaps with a star
behind it. `render` writes the pieces down, and `lang` is the language they stand for.
-/

set_option autoImplicit false

namespace SysProg.Dirtree

open SysProg.Lib Computability

/-- What a star may stand behind: a character or `?`, or a group. -/
inductive Atom where
  | char (c : UInt8)
  | group (content : List UInt8)
deriving DecidableEq, Repr

/-- An atom, perhaps repeated. -/
structure Piece where
  atom : Atom
  repeated : Bool
deriving DecidableEq, Repr

/-- A byte that is neither a terminator nor a parenthesis. -/
def Inner (c : UInt8) : Prop := c ≠ 0 ∧ c ≠ lparen ∧ c ≠ rparen

namespace Atom

/-- The atom as it is written. -/
def render : Atom → List UInt8
  | char c => [c]
  | group content => lparen :: content ++ [rparen]

/-- A character is not one of the others, and a group has a content without a group in it. -/
def WellFormed : Atom → Prop
  | char c => Inner c ∧ c ≠ star
  | group content => content ≠ [] ∧ ∀ c ∈ content, Inner c

/-- The bytes that an atom matches, one after the other. -/
def content : Atom → List UInt8
  | char c => [c]
  | group content => content

/-- A character matches itself, and `?` matches any character. A group matches its content as a
sequence. -/
def lang (a : Atom) : Language UInt8 :=
  {w | List.Forall₂ (fun c x => c = question ∨ x = c) a.content w}

end Atom

namespace Piece

/-- The piece as it is written. -/
def render (p : Piece) : List UInt8 := p.atom.render ++ if p.repeated then [star] else []

/-- A star repeats zero or more times. -/
def lang (p : Piece) : Language UInt8 := if p.repeated then p.atom.lang∗ else p.atom.lang

end Piece

/-- The pieces as they are written. -/
def render (ps : List Piece) : List UInt8 := ps.flatMap Piece.render

/-- The language of a pattern. -/
def lang (ps : List Piece) : Language UInt8 := (ps.map Piece.lang).prod

/-- The pattern `pat` reads as the pieces `ps`. -/
structure Reads (pat : List UInt8) (ps : List Piece) : Prop where
  wellFormed : ∀ p ∈ ps, p.atom.WellFormed
  render_eq : render ps = pat

end SysProg.Dirtree
