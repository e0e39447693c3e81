import SysProg.Shell.Lexsyn

/-!
# `SysProg.Shell.LexSpec`: lines as renderings of tokens

A word is written as a sequence of pieces: plain characters and quoted segments. `Renders` says that
a text is a rendering of a list of tokens.
-/

set_option autoImplicit false

namespace SysProg.Shell

/-- A part of a word. -/
inductive WordPiece where
  | plain (c : UInt8)
  | dquoted (segment : List UInt8)
  | squoted (segment : List UInt8)
deriving DecidableEq, Repr

/-- The character of an operator token. -/
def operatorChar : Token → Option UInt8
  | .pipe => some bar
  | .bg => some ampersand
  | .redout => some greater
  | .redin => some less
  | .word _ => none

/-- A character that stands for itself. -/
def IsPlain (c : UInt8) : Prop :=
  isspace c = false ∧ (∀ t, operatorChar t ≠ some c) ∧ c ≠ dquote ∧ c ≠ squote

namespace WordPiece

/-- The piece as it is written. -/
def text : WordPiece → List UInt8
  | plain c => [c]
  | dquoted segment => dquote :: (segment ++ [dquote])
  | squoted segment => squote :: (segment ++ [squote])

/-- What the piece adds to the value of the word. -/
def value : WordPiece → List UInt8
  | plain c => [c]
  | dquoted segment | squoted segment => segment

/-- A segment ends at the first quote of its kind. -/
def WellFormed : WordPiece → Prop
  | plain c => IsPlain c
  | dquoted segment => dquote ∉ segment
  | squoted segment => squote ∉ segment

end WordPiece

/-- White space, perhaps none. -/
def IsBlank (ws : List UInt8) : Prop := ∀ c ∈ ws, isspace c = true

/-- The text is a rendering of the tokens. The flag says that it comes directly behind a word. -/
inductive Renders : Bool → List UInt8 → List Token → Prop
  | done {behindWord ws} : IsBlank ws → Renders behindWord ws []
  | operator {behindWord ws t c rest ts} : IsBlank ws → operatorChar t = some c →
      Renders false rest ts → Renders behindWord (ws ++ c :: rest) (t :: ts)
  | word {behindWord ws pieces rest ts} : IsBlank ws → (behindWord = true → ws ≠ []) →
      pieces ≠ [] → (∀ p ∈ pieces, WordPiece.WellFormed p) → Renders true rest ts →
      Renders behindWord (ws ++ (pieces.flatMap WordPiece.text ++ rest))
        (.word (pieces.flatMap WordPiece.value) :: ts)

/-- The characters in front of the first newline or NUL. -/
def lineText (line : List UInt8) : List UInt8 := line.takeWhile fun c => c ≠ newline ∧ c ≠ 0

end SysProg.Shell
