import Mathlib.Algebra.Ring.Nat
import SysProg.Dirtree.TraverseSpec

/-!
# `SysProg.Dirtree.Summary`: the directories of the command line, and what is counted

The model of the loop of `main` over the directories. For each one it prints the listing and the
counters of `dstat`, and behind the last one the counters of `tstat`. The frame around the listing
and the words around the numbers are left out.

A `Column` is one of the counters. `worth` is what an entry is worth in it according to the
documentation, which treats a device as a regular file.
-/

set_option autoImplicit false

namespace SysProg.Dirtree

/-! ### `main` -/

/-- A directory of the command line. `lstat` fails, or `opendir` finds this. -/
structure Directory where
  path : List UInt8
  tree : Option (Except Nat (List Node))

/-- `ENOENT`, whose text is printed for each directory that `lstat` fails for. -/
def enoent : Nat := 2

/-- What `main` prints for a directory: its name, the listing, and the numbers of `dstat`. -/
structure Report where
  path : List UInt8
  lines : List Line
  dstat : Summary
deriving DecidableEq, Repr

/-- `struct summary dstat = {0}`. -/
def Summary.zero : Summary := ⟨0, 0, 0, 0, 0, 0, 0⟩

/-- The body of the loop. `output` is the listing of this directory. -/
def analyzeDirectory (opts : Options) (st : State) (d : Directory) :
    Except Fault (Report × State) := do
  let st := { st with output := [], pending := [], dstat := .zero }
  let st ← match d.tree with
    | none => .ok { st with output := [.error [] enoent] }
    | some contents =>
        if 0 < opts.maxDepth then processDirRec opts opts.maxDepth 0 contents st else .ok st
  return (⟨d.path, st.output, st.dstat⟩, st)

/-- The loop over the directories. -/
def analyzeDirectories (opts : Options) :
    State → List Directory → Except Fault (List Report × State)
  | st, [] => .ok ([], st)
  | st, d :: ds => do
      let (report, st) ← analyzeDirectory opts st d
      let (reports, st) ← analyzeDirectories opts st ds
      return (report :: reports, st)

/-- `main` for the directories `ds`: what is printed for each one, and `tstat`. -/
def analyze (opts : Options) (ds : List Directory) : Except Fault (List Report × Summary) :=
  (analyzeDirectories opts .init ds).map fun out => (out.1, out.2.tstat)

/-! ### The counters -/

/-- The counters of a summary. -/
inductive Column where
  | files
  | dirs
  | links
  | fifos
  | socks
  | size
  | blocks
deriving DecidableEq, Repr

/-- The number in a column. -/
def Summary.value (s : Summary) : Column → Nat
  | .files => s.files.toNat
  | .dirs => s.dirs.toNat
  | .links => s.links.toNat
  | .fifos => s.fifos.toNat
  | .socks => s.socks.toNat
  | .size => s.size.toNat
  | .blocks => s.blocks.toNat

/-- The numbers of a column are below its bound. -/
def Column.bound : Column → Nat
  | .size | .blocks => 2 ^ 64
  | _ => 2 ^ 32

/-- A character device or a block device. -/
def Node.IsDevice (e : Node) : Prop := e.type = .charDevice ∨ e.type = .blockDevice

instance (e : Node) : Decidable e.IsDevice := inferInstanceAs (Decidable (_ ∨ _))

/-- What an entry is worth in a column. A device is treated as a regular file. -/
def Node.worth (e : Node) : Column → Nat
  | .files => if e.type = .regular ∨ e.IsDevice then 1 else 0
  | .dirs => if e.type = .directory then 1 else 0
  | .links => if e.type = .link then 1 else 0
  | .fifos => if e.type = .fifo then 1 else 0
  | .socks => if e.type = .socket then 1 else 0
  | .size => e.attr.size.toNat
  | .blocks => e.attr.blocks.toNat

/-- The sum of a column over some entries. -/
def worthOf (es : List Node) (c : Column) : Nat := (es.map fun e => e.worth c).sum

/-- The line is about an entry that matches. -/
def Line.isDetail : Line → Bool
  | .detail .. => true
  | _ => false

/-! ### The printed entries -/

open Classical in
/-- The entries of a directory that match, in the order of the listing. -/
noncomputable def printedVisits (opts : Options) (d : Directory) : List Visit :=
  match d.tree with
  | none => []
  | some contents => (allEntries opts contents).filter fun v => v.Listed opts

noncomputable def printedEntries (opts : Options) (d : Directory) : List Node :=
  (printedVisits opts d).map Visit.node

/-- The detail lines of a report are those of the printed entries. -/
def Lists (opts : Options) (d : Directory) (r : Report) : Prop :=
  r.lines.filter Line.isDetail
    = (printedVisits opts d).map fun v => detailLine (v.depth - 1) v.node

/-- The counters of a directory agree with the listing and with its entries. -/
structure Agrees (opts : Options) (d : Directory) (r : Report) : Prop where
  lines : r.dstat.value .files + r.dstat.value .dirs + r.dstat.value .links + r.dstat.value .fifos
    + r.dstat.value .socks = (r.lines.filter Line.isDetail).length
  columns : ∀ c, r.dstat.value c = worthOf (printedEntries opts d) c

/-- The summaries count every listed entry. -/
structure CountsAll (opts : Options) (ds : List Directory) (rs : List Report) (tstat : Summary) :
    Prop where
  agrees : List.Forall₂ (Agrees opts) ds rs
  totals : ∀ c, tstat.value c = (rs.map fun r => r.dstat.value c).sum

/-- No entry is a device, and the sums are in range. -/
structure FitsCounters (es : List Node) : Prop where
  noDevice : ∀ e ∈ es, ¬e.IsDevice
  inRange : ∀ c, worthOf es c < c.bound

end SysProg.Dirtree
