import Mathlib.Data.List.Basic

/-!
# `SysProg.Decomment.Main`: the comment remover

The model of `main` of `decomment.c`. `step` is the body of the loop over the bytes of the standard
input, and `finish` is what comes behind the loop. The line numbers have no upper bound here.
-/

set_option autoImplicit false

namespace SysProg.Decomment

/-- `'\n'`. -/
def newline : UInt8 := 10

/-- `' '`. -/
def space : UInt8 := 32

/-- `'"'`. -/
def dquote : UInt8 := 34

/-- `'\''`. -/
def squote : UInt8 := 39

/-- `'*'`. -/
def star : UInt8 := 42

/-- `'/'`. -/
def slash : UInt8 := 47

/-- `'\\'`. -/
def backslash : UInt8 := 92

/-- `enum State`. -/
inductive State where
  | normal
  | slash
  | inBlockComment
  | blockCommentStar
  | inLineComment
  | inString
  | stringEscape
  | inChar
  | charEscape
deriving DecidableEq, Repr

/-- The variables of `main`, and what it has written to the standard output. -/
structure Machine where
  state : State
  lineCur : Int
  lineCom : Int
  output : List UInt8
deriving DecidableEq, Repr

/-- The machine at the start of the loop. -/
def Machine.init : Machine := ⟨.normal, 1, -1, []⟩

/-- `putchar`. -/
def Machine.putchar (m : Machine) (c : UInt8) : Machine := { m with output := m.output ++ [c] }

/-- An assignment to `state`. -/
def Machine.goto (m : Machine) (state : State) : Machine := { m with state }

/-- The `switch` over the state. -/
def dispatch (m : Machine) (ch : UInt8) : Machine :=
  match m.state with
  | .normal =>
      if ch = slash then m.goto .slash
      else if ch = dquote then (m.putchar ch).goto .inString
      else if ch = squote then (m.putchar ch).goto .inChar
      else m.putchar ch
  | .slash =>
      if ch = star then { (m.putchar space).goto .inBlockComment with lineCom := m.lineCur }
      else if ch = slash then (m.putchar space).goto .inLineComment
      else if ch = dquote then ((m.putchar slash).putchar ch).goto .inString
      else if ch = squote then ((m.putchar slash).putchar ch).goto .inChar
      else ((m.putchar slash).putchar ch).goto .normal
  | .inBlockComment =>
      if ch = star then m.goto .blockCommentStar
      else if ch = newline then m.putchar newline
      else m
  | .blockCommentStar =>
      if ch = slash then m.goto .normal
      else if ch = star then m
      else if ch = newline then (m.putchar newline).goto .inBlockComment
      else m.goto .inBlockComment
  | .inLineComment =>
      if ch = newline then (m.putchar newline).goto .normal else m
  | .inString =>
      if ch = dquote then (m.putchar ch).goto .normal
      else if ch = backslash then (m.putchar ch).goto .stringEscape
      else m.putchar ch
  | .stringEscape => (m.putchar ch).goto .inString
  | .inChar =>
      if ch = squote then (m.putchar ch).goto .normal
      else if ch = backslash then (m.putchar ch).goto .charEscape
      else m.putchar ch
  | .charEscape => (m.putchar ch).goto .inChar

/-- The body of the loop. -/
def step (m : Machine) (ch : UInt8) : Machine :=
  let m := dispatch m ch
  if ch = newline then { m with lineCur := m.lineCur + 1 } else m

/-- What the process leaves behind. -/
structure Result where
  stdout : List UInt8
  stderr : String
  exitCode : Nat
deriving DecidableEq, Repr

/-- The end of `main`. `EXIT_SUCCESS` is 0 and `EXIT_FAILURE` is 1. -/
def finish (m : Machine) : Result :=
  match m.state with
  | .slash => ⟨m.output ++ [slash], "", 0⟩
  | .inBlockComment | .blockCommentStar =>
      ⟨m.output, "Error: line " ++ toString m.lineCom ++ ": unterminated comment\n", 1⟩
  | _ => ⟨m.output, "", 0⟩

/-- `main`, on a standard input. -/
def decomment (input : List UInt8) : Result := finish (input.foldl step Machine.init)

end SysProg.Decomment
