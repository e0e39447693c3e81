import SysProg.Dirtree.PatternSpec
import SysProg.Dirtree.Traverse

/-!
# `SysProg.Dirtree.TraverseSpec`: which lines a listing has

`entriesBelow` is the sequence of the entries in pre-order, down to a depth. Each entry has its
lines in the listing, which `lines` gives without any reference to a stack: an entry that matches
is listed, and a directory that does not match is named if something below it is to be seen.
-/

set_option autoImplicit false

namespace SysProg.Dirtree

open SysProg.Lib Classical

/-- The name has a part in the language of the pattern. Without a pattern each name matches. -/
def Matches (pattern : Option Pattern) (name : FileName) : Prop :=
  ∀ p, pattern = some p → ∃ ps, Reads p.bytes ps ∧ HasInfix (lang ps) name.bytes

/-- Directories come first, and then the names are in the order of their bytes. -/
def Before (e₁ e₂ : Node) : Prop :=
  (e₁.type = .directory ∧ e₂.type ≠ .directory) ∨
    ((e₁.type = .directory ↔ e₂.type = .directory) ∧ e₁.name.bytes ≤ e₂.name.bytes)

/-- An entry that is `depth` levels below the root. -/
structure Visit where
  depth : Nat
  node : Node

/-- The entries of a directory, in the order of the listing. -/
def children : Except Nat (List Node) → List Node
  | .error _ => []
  | .ok entries => sortedEntries entries

/-- The entries on the next `n` levels below a directory at the depth `depth`, in pre-order. -/
def entriesBelow : Nat → Nat → Except Nat (List Node) → List Visit
  | 0, _, _ => []
  | n + 1, depth, contents => (children contents).flatMap fun e =>
      ⟨depth + 1, e⟩ :: entriesBelow n (depth + 1) e.contents

namespace Visit

variable (opts : Options) (v : Visit)

/-- The descendants down to the depth limit. -/
def below : List Visit := entriesBelow (opts.maxDepth - v.depth) v.depth v.node.contents

/-- The entry matches. -/
def Listed : Prop := Matches opts.pattern v.node.name

/-- The entry is a directory above the depth limit that cannot be read. -/
def Fails : Prop := v.depth < opts.maxDepth ∧ ∃ errno, v.node.contents = .error errno

/-- The entry is a directory above the depth limit that does not match, and there is something to be
seen at or below it. -/
def NameOnly : Prop :=
  ¬ v.Listed opts ∧ v.node.type = .directory ∧ v.depth < opts.maxDepth ∧
    (v.Fails opts ∨ ∃ w ∈ v.below opts, w.Listed opts ∨ w.Fails opts)

/-- The line of the entry itself. An entry at the depth `d` is found by the call at `d - 1`. -/
noncomputable def ownLine : List Line :=
  if v.Listed opts then [detailLine (v.depth - 1) v.node]
  else if v.NameOnly opts then [.name (truncName (indName (v.depth - 1) v.node.name.bytes))]
  else []

/-- The line that says that the directory cannot be read. -/
def errorLine : List Line :=
  match v.node.contents with
  | .error errno =>
      if v.depth < opts.maxDepth then [.error (List.replicate (v.depth * 2) space) errno] else []
  | .ok _ => []

/-- The lines of an entry. -/
noncomputable def lines : List Line := v.ownLine opts ++ v.errorLine opts

end Visit

/-- All entries of the tree down to the depth limit, in pre-order. -/
def allEntries (opts : Options) (root : Except Nat (List Node)) : List Visit :=
  entriesBelow opts.maxDepth 0 root

/-- The listing of a tree. For the root there is only the line that says that it cannot be read. -/
noncomputable def listing (opts : Options) (root : Except Nat (List Node)) : List Line :=
  (match root with
    | .error errno => [.error [] errno]
    | .ok _ => []) ++ (allEntries opts root).flatMap (Visit.lines opts)

end SysProg.Dirtree
