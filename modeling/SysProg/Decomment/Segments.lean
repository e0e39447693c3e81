import SysProg.Decomment.Main

/-!
# `SysProg.Decomment.Segments`: the text as a sequence of comments, literals and characters

`First text s rest` says that a text starts with the segment `s`, which goes as far as it can, and
`Cuts` cuts a whole text from left to right. `Segment.replaced` is what is left of a segment when
the comments are removed.
-/

set_option autoImplicit false

namespace SysProg.Decomment

/-- A part of the text. -/
inductive Segment where
  | block (text : List UInt8)
  | line (text : List UInt8)
  | literal (text : List UInt8)
  | single (c : UInt8)
deriving DecidableEq, Repr

namespace Segment

/-- The bytes of the segment. -/
def text : Segment → List UInt8
  | block text | line text | literal text => text
  | single c => [c]

/-- A comment becomes a space and the newlines that it contains. All else is copied. -/
def replaced : Segment → List UInt8
  | block text | line text => space :: text.filter (· = newline)
  | literal text => text
  | single c => [c]

end Segment

/-- A quote opens a literal. -/
def IsQuote (q : UInt8) : Prop := q = dquote ∨ q = squote

/-- The inside of a literal: no quote, unless a backslash escapes it. -/
inductive Unquoted (q : UInt8) : List UInt8 → Prop
  | nil : Unquoted q []
  | plain {c body} : c ≠ q → c ≠ backslash → Unquoted q body → Unquoted q (c :: body)
  | escape {c body} : Unquoted q body → Unquoted q (backslash :: c :: body)

/-- The mark `*/`. -/
def close : List UInt8 := [star, slash]

/-- A text starts with a segment. -/
inductive First : List UInt8 → Segment → List UInt8 → Prop
  -- The first `*/` behind the start is the one that ends the comment.
  | block {body rest} : ¬ close <:+: body →
      First (slash :: star :: (body ++ close ++ rest)) (.block (slash :: star :: (body ++ close)))
        rest
  | openBlock {body} : ¬ close <:+: body →
      First (slash :: star :: body) (.block (slash :: star :: body)) []
  | line {body rest} : newline ∉ body → rest = [] ∨ rest.head? = some newline →
      First (slash :: slash :: (body ++ rest)) (.line (slash :: slash :: body)) rest
  | literal {q body rest} : IsQuote q → Unquoted q body →
      First (q :: (body ++ q :: rest)) (.literal (q :: (body ++ [q]))) rest
  -- There may be a backslash with nothing behind it.
  | openLiteral {q body} : IsQuote q →
      Unquoted q body ∨ (∃ b, body = b ++ [backslash] ∧ Unquoted q b) →
      First (q :: body) (.literal (q :: body)) []
  | single {c rest} : ¬ IsQuote c →
      (c = slash → rest.head? ≠ some star ∧ rest.head? ≠ some slash) →
      First (c :: rest) (.single c) rest

/-- The segments of a text, from left to right. -/
inductive Cuts : List UInt8 → List Segment → Prop
  | done : Cuts [] []
  | next {text s rest segments} : First text s rest → Cuts rest segments →
      Cuts text (s :: segments)

end SysProg.Decomment
