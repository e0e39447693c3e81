import Mathlib.Data.List.Basic

/-!
# `SysProg.Shell.Lexsyn`: the lexer and the syntax checker of the shell

The model of `lex_line` and `syntax_check` of `lexsyn.c`. A line is the list of its bytes without
the terminator. The buffer `c_value` is the list of the bytes in front of `value_index`. A read or
write behind the end of its array is a fault.

`mem n` tells whether there is memory for the token that becomes number `n` of the array.
-/

set_option autoImplicit false

namespace SysProg.Shell

/-- A token. Only a word has a `token_value` other than `NULL`. -/
inductive Token where
  | pipe
  | redin
  | redout
  | word (value : List UInt8)
  | bg
deriving DecidableEq, Repr

/-- Why a function does not return. -/
inductive Fault where
  | outOfBounds
  | outOfFuel
deriving DecidableEq, Repr

/-- `enum LexResult`. -/
inductive LexResult where
  | success
  | qerror
  | nomem
  | long
deriving DecidableEq, Repr

/-- `enum SyntaxResult`. -/
inductive SyntaxResult where
  | success
  | failNocmd
  | failMultredin
  | failNodestin
  | failMultredout
  | failNodestout
  | failInvalidbg
deriving DecidableEq, Repr

/-- `MAX_LINE_SIZE`. -/
def maxLineSize : Nat := 1024

/-- `'\n'`. -/
def newline : UInt8 := 10

/-- `'"'`. -/
def dquote : UInt8 := 34

/-- `'&'`. -/
def ampersand : UInt8 := 38

/-- `'\''`. -/
def squote : UInt8 := 39

/-- `'<'`. -/
def less : UInt8 := 60

/-- `'>'`. -/
def greater : UInt8 := 62

/-- `'|'`. -/
def bar : UInt8 := 124

/-- `isspace` in the C locale: a space, or one of the controls from the tab to the carriage
return. -/
def isspace (c : UInt8) : Bool := c = 32 ∨ 9 ≤ c ∧ c ≤ 13

/-! ### `lex_line` -/

/-- `enum LexState`. -/
inductive LexState where
  | start
  | inWord
  | inDquote
  | inQuote
deriving DecidableEq, Repr

/-- The variables of `lex_line`. -/
structure LexVars where
  state : LexState
  index : Nat
  value : List UInt8
  tokens : List Token
deriving DecidableEq, Repr

/-- The loop goes on, or the function returns. -/
inductive Flow where
  | more (vars : LexVars)
  | done (result : LexResult) (tokens : List Token)
deriving DecidableEq, Repr

/-- The read `c_line[i]`. -/
def readLine (line : List UInt8) (i : Nat) : Except Fault UInt8 :=
  if maxLineSize ≤ i then .error .outOfBounds
  else if i < line.length then .ok (line.getD i 0)
  else if i = line.length then .ok 0
  else .error .outOfBounds

/-- `c_value[value_index++] = c`, and the next state. -/
def putValue (vars : LexVars) (c : UInt8) (state : LexState) : Except Fault Flow :=
  if vars.value.length < maxLineSize then
    .ok (.more { vars with value := vars.value ++ [c], state })
  else .error .outOfBounds

/-- `add_to_token_array`, and what comes behind it when there is memory. -/
def addToken (mem : Nat → Bool) (t : Token) (vars : LexVars)
    (next : LexVars → Except Fault Flow) : Except Fault Flow :=
  if mem vars.tokens.length then next { vars with tokens := vars.tokens ++ [t] }
  else .ok (.done .nomem vars.tokens)

/-- Create a `WORD` token from the buffer. The write of the terminator has to be inside of it. -/
def addWord (mem : Nat → Bool) (vars : LexVars) (next : LexVars → Except Fault Flow) :
    Except Fault Flow :=
  if vars.value.length < maxLineSize then addToken mem (.word vars.value) vars next
  else .error .outOfBounds

/-- Go to the start state. -/
def toStart (vars : LexVars) : Except Fault Flow := .ok (.more { vars with state := .start })

/-- Set `value_index` to 0, and go to the start state. -/
def resetToStart (vars : LexVars) : Except Fault Flow :=
  .ok (.more { vars with value := [], state := .start })

/-- The `switch` over the state, for the character `c`. -/
def lexSwitch (mem : Nat → Bool) (vars : LexVars) (c : UInt8) : Except Fault Flow :=
  match vars.state with
  | .start =>
      if c = newline ∨ c = 0 then .ok (.done .success vars.tokens)
      else if isspace c then toStart vars
      else if c = bar then addToken mem .pipe vars toStart
      else if c = ampersand then addToken mem .bg vars toStart
      else if c = greater then addToken mem .redout vars toStart
      else if c = less then addToken mem .redin vars toStart
      else if c = dquote then .ok (.more { vars with state := .inDquote })
      else if c = squote then .ok (.more { vars with state := .inQuote })
      else putValue vars c .inWord
  | .inWord =>
      if c = newline ∨ c = 0 then addWord mem vars fun vars => .ok (.done .success vars.tokens)
      else if isspace c then addWord mem vars resetToStart
      else if c = bar then addWord mem vars fun vars => addToken mem .pipe vars resetToStart
      else if c = greater then addWord mem vars fun vars => addToken mem .redout vars resetToStart
      else if c = less then addWord mem vars fun vars => addToken mem .redin vars resetToStart
      else if c = ampersand then addWord mem vars fun vars => addToken mem .bg vars resetToStart
      else if c = dquote then .ok (.more { vars with state := .inDquote })
      else if c = squote then .ok (.more { vars with state := .inQuote })
      else putValue vars c .inWord
  | .inDquote =>
      if c = dquote then .ok (.more { vars with state := .inWord })
      else if c = newline ∨ c = 0 then .ok (.done .qerror vars.tokens)
      else putValue vars c .inDquote
  | .inQuote =>
      if c = squote then .ok (.more { vars with state := .inWord })
      else if c = newline ∨ c = 0 then .ok (.done .qerror vars.tokens)
      else putValue vars c .inQuote

/-- The loop of `lex_line`. -/
def lexLoop (mem : Nat → Bool) (line : List UInt8) :
    Nat → LexVars → Except Fault (LexResult × List Token)
  | 0, _ => .error .outOfFuel
  | fuel + 1, vars =>
      if vars.index = maxLineSize then .ok (.long, vars.tokens)
      else do
        let c ← readLine line vars.index
        match ← lexSwitch mem { vars with index := vars.index + 1 } c with
        | .more vars => lexLoop mem line fuel vars
        | .done result tokens => return (result, tokens)

/-- `lex_line`. The tokens are added to the ones in `oTokens`. -/
def lexLine (mem : Nat → Bool) (line : List UInt8) (oTokens : List Token) :
    Except Fault (LexResult × List Token) :=
  lexLoop mem line (maxLineSize + 1) ⟨.start, 0, [], oTokens⟩

/-! ### `syntax_check` -/

/-- `ri_exist`, `ro_exist` and `p_exist`. -/
structure SyntaxFlags where
  riExist : Bool
  roExist : Bool
  pExist : Bool
deriving DecidableEq, Repr

/-- There is a next token, and it is a word. -/
def nextIsWord : List Token → Bool
  | .word _ :: _ => true
  | _ => false

/-- The loop of `syntax_check` behind the first token. At the last token and in front of a token of
another kind the errors are the same. -/
def syntaxLoop (flags : SyntaxFlags) : List Token → SyntaxResult
  | [] => .success
  | .pipe :: rest =>
      if flags.roExist then .failMultredout
      else if !nextIsWord rest then .failNocmd
      else syntaxLoop { flags with pExist := true } rest
  | .bg :: rest => if rest ≠ [] then .failInvalidbg else syntaxLoop flags rest
  | .redin :: rest =>
      if flags.pExist || flags.riExist then .failMultredin
      else if !nextIsWord rest then .failNodestin
      else syntaxLoop { flags with riExist := true } rest
  | .redout :: rest =>
      if flags.roExist then .failMultredout
      else if !nextIsWord rest then .failNodestout
      else syntaxLoop { flags with roExist := true } rest
  | .word _ :: rest => syntaxLoop flags rest

/-- `syntax_check`. -/
def syntaxCheck : List Token → SyntaxResult
  | [] => .success
  | .word _ :: rest => syntaxLoop ⟨false, false, false⟩ rest
  | _ :: _ => .failNocmd

end SysProg.Shell
