import SysProg.Shell.Lexsyn

/-!
# `SysProg.Shell.Grammar`: the grammar of the commands

A command is a sequence of segments with `|` between them, and perhaps `&` at the end. A segment
starts with a word, and goes on with words and redirections.
-/

set_option autoImplicit false

namespace SysProg.Shell

/-- What a segment has behind its first word. -/
inductive Item where
  | word (value : List UInt8)
  | redin (target : List UInt8)
  | redout (target : List UInt8)
deriving DecidableEq, Repr

/-- The tokens of an item. -/
def Item.tokens : Item → List Token
  | word value => [.word value]
  | redin target => [.redin, .word target]
  | redout target => [.redout, .word target]

/-- A segment. It cannot be empty. -/
structure Segment where
  command : List UInt8
  items : List Item
deriving DecidableEq, Repr

/-- The tokens of a segment. -/
def Segment.tokens (s : Segment) : List Token := .word s.command :: s.items.flatMap Item.tokens

/-- The segments with `|` between them. -/
def pipeline (segments : List Segment) : List Token :=
  List.intercalate [.pipe] (segments.map Segment.tokens)

/-- The final `&`, if there is one. -/
def background : Bool → List Token
  | true => [.bg]
  | false => []

/-- The tokens are a command with these segments. -/
structure Command (segments : List Segment) (bg : Bool) (tokens : List Token) : Prop where
  ne_nil : segments ≠ []
  tokens_eq : tokens = pipeline segments ++ background bg
  redin_once : tokens.count .redin ≤ 1
  redin_first : ∀ s ∈ segments.tail, Token.redin ∉ s.tokens
  redout_once : tokens.count .redout ≤ 1
  redout_last : ∀ s ∈ segments.dropLast, Token.redout ∉ s.tokens

end SysProg.Shell
