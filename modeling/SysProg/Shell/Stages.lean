import SysProg.Shell.Execute
import SysProg.Shell.Grammar

/-!
# `SysProg.Shell.Stages`: what a stage of a pipeline runs

`Stage` says of two bounds that the tokens between them are a command of its own, and what
`build_command_partial` makes of it. The words and the files are read off the tokens: it is the
token in front of a word that tells what the word is for.
-/

set_option autoImplicit false

namespace SysProg.Shell

/-- The tokens from the first bound up to the second. -/
def tokensBetween (oTokens : List Token) (bounds : Nat × Nat) : List Token :=
  (oTokens.take bounds.2).drop bounds.1

/-- The words that do not directly follow a redirection operator. `prev` is the token in front. -/
def commandWords (prev : Option Token) : List Token → List (List UInt8)
  | [] => []
  | .word value :: rest =>
      if prev = some .redin ∨ prev = some .redout then commandWords (some (.word value)) rest
      else value :: commandWords (some (.word value)) rest
  | t :: rest => commandWords (some t) rest

/-- The words that directly follow a redirection operator, with the operator. -/
def targets (prev : Option Token) : List Token → List Redirect
  | [] => []
  | .word value :: rest =>
      if prev = some .redin then .input value :: targets (some (.word value)) rest
      else if prev = some .redout then .output value :: targets (some (.word value)) rest
      else targets (some (.word value)) rest
  | t :: rest => targets (some t) rest

/-- The tokens between the bounds are one command. If all its files can be opened, the arguments are
its other words. Otherwise the child exits. -/
structure Stage (oTokens : List Token) (bounds : Nat × Nat) : Prop where
  head_word : ∃ w rest, tokensBetween oTokens bounds = .word w :: rest
  no_pipe : Token.pipe ∉ tokensBetween oTokens bounds
  no_bg : Token.bg ∉ tokensBetween oTokens bounds
  argv_ne_nil : commandWords none (tokensBetween oTokens bounds) ≠ []
  builds : ∀ openOk, buildCommandPartial openOk oTokens bounds.1 bounds.2 =
    if (targets none (tokensBetween oTokens bounds)).all openOk then
      .ok (commandWords none (tokensBetween oTokens bounds),
        targets none (tokensBetween oTokens bounds))
    else .error (.exit 127)

end SysProg.Shell
