import Mathlib.Data.List.Infix
import Mathlib.Data.List.Nodup
import Mathlib.Logic.Relation
import SysProg.Lib.Descriptors

/-!
# `SysProg.Lib.Processes`: processes that share pipes

A program makes pipes, forks, closes and duplicates descriptors, and waits for the end of a file.
The calls `pipe` and `fork` may fail, as a pattern says. Everything else that a program does is an
event. The process that does the next step is arbitrary.

* `Prog.Meets` says what holds at each operation of a program, from its first one on. It is the
  weakest precondition of a specification `spec`.
* `meets_reachable`: then it holds of all processes, in each state of each run.
* `Kept`: the invariants of the processes that follow from a specification.
* `Step.family`, `Step.events`, `Step.eofs`: what a step changes.
-/

set_option autoImplicit false

namespace SysProg.Lib

universe u

/-- A program, with the events of the type `ε`. The answer of a call that fails is `none`. -/
inductive Prog (ε : Type u) where
  | done
  | emit (e : ε) (next : Prog ε)
  | pipe (next : Option (Nat × Nat) → Prog ε)
  | fork (child : Prog ε) (next : Option Nat → Prog ε)
  | close (fd : Nat) (next : Prog ε)
  | dup2 (old new : Nat) (next : Prog ε)
  -- Reads until the end of the file. It is interrupted and starts again any number of times.
  | readEof (fd : Nat) (next : Prog ε)

/-- What a program does next. -/
inductive Op (ε : Type u) where
  | done
  | emit (e : ε)
  | pipe
  | fork
  | close (fd : Nat)
  | dup2 (old new : Nat)
  | readEof (fd : Nat)

/-- The first operation. -/
def Prog.op {ε : Type u} : Prog ε → Op ε
  | .done => .done
  | .emit e _ => .emit e
  | .pipe _ => .pipe
  | .fork _ _ => .fork
  | .close fd _ => .close fd
  | .dup2 old new _ => .dup2 old new
  | .readEof fd _ => .readEof fd

/-- What is known of a process: its descriptors, and what it has done. -/
structure Local (ε : Type u) where
  table : Table
  pipeCalls : Nat
  forkCalls : Nat
  children : List Nat
  opened : List End
  closed : List End
  events : List ε
  eofs : List PipeId

namespace Local

variable {ε : Type u}

/-- A process that has done nothing. -/
def start (table : Table) : Local ε := ⟨table, 0, 0, [], [], [], [], []⟩

def emit (l : Local ε) (e : ε) : Local ε := { l with events := l.events ++ [e] }

/-- `pipe` gives the descriptors `r` and `w`. -/
def openPipe (l : Local ε) (pid r w : Nat) : Local ε :=
  let p : PipeId := ⟨pid, l.pipeCalls⟩
  { l with
    table := l.table.withPipe (r, w) p
    pipeCalls := l.pipeCalls + 1
    opened := l.opened ++ [.reader p, .writer p] }

def failPipe (l : Local ε) : Local ε := { l with pipeCalls := l.pipeCalls + 1 }

def fork (l : Local ε) (child : Nat) : Local ε :=
  { l with forkCalls := l.forkCalls + 1, children := l.children ++ [child] }

def failFork (l : Local ε) : Local ε := { l with forkCalls := l.forkCalls + 1 }

def close (l : Local ε) (fd : Nat) : Local ε :=
  match l.table fd with
  | some e => { l with table := l.table.set fd none, closed := l.closed ++ [e] }
  | none => l

def dup2 (l : Local ε) (old new : Nat) : Local ε :=
  { l with table := l.table.set new (l.table old) }

def readEof (l : Local ε) (p : PipeId) : Local ε := { l with eofs := l.eofs ++ [p] }

/-- What a `close` does to an open descriptor. The entry is free again, and its end is the last one
of those that are closed. -/
theorem close_eq {l : Local ε} {fd : Nat} {e : End} (h : l.table fd = some e) :
    l.close fd = { l with table := l.table.set fd none, closed := l.closed ++ [e] } := by
  unfold close
  rw [h]

/-- Both ends of a pipe are closed. The table is as in front of the pipe, and both ends are recorded
in order. -/
theorem close_close {l : Local ε} {t : Table} {p : Nat × Nat} {a : PipeId}
    (htable : l.table = t.withPipe p a) (hfree : t.Free p) :
    (l.close p.1).close p.2
      = { l with table := t, closed := l.closed ++ [.reader a, .writer a] } := by
  have hfst : l.table p.1 = some (.reader a) := by rw [htable, Table.withPipe_fst hfree.ne]
  have hsnd : (l.close p.1).table p.2 = some (.writer a) := by
    rw [close_eq hfst]
    show l.table.set p.1 none p.2 = _
    rw [htable, Table.set_of_ne _ _ hfree.ne.symm, Table.withPipe_snd]
  rw [close_eq hsnd, close_eq hfst, htable]
  dsimp only
  rw [Table.withPipe_close hfree, List.append_assoc, List.singleton_append]

/-- The process has the write end of the pipe. -/
def HasWriter (l : Local ε) (p : PipeId) : Prop := ∃ fd, l.table fd = some (.writer p)

end Local

/-- Which calls succeed: those of `pipe` and those of `fork`, for each process by their number. -/
structure Pattern where
  pipe : Nat → Nat → Bool
  fork : Nat → Nat → Bool

/-- A process. -/
structure Process (ε : Type u) where
  prog : Prog ε
  locals : Local ε

/-- The processes have the process IDs below `count`. -/
structure Processes (ε : Type u) where
  count : Nat
  proc : Nat → Process ε

namespace Processes

variable {ε : Type u}

/-- One process is alone. -/
def init (prog : Prog ε) (table : Table) : Processes ε := ⟨1, fun _ => ⟨prog, .start table⟩⟩

/-- One process is changed. -/
def set (s : Processes ε) (j : Nat) (p : Process ε) : Processes ε :=
  { s with proc := fun i => if i = j then p else s.proc i }

/-- There is a new process. -/
def add (s : Processes ε) (p : Process ε) : Processes ε :=
  { count := s.count + 1, proc := fun i => if i = s.count then p else s.proc i }

/-- No process has the write end of the pipe: a read gets the end of the file. -/
def NoWriter (s : Processes ε) (p : PipeId) : Prop :=
  ∀ j, j < s.count → ¬ (s.proc j).locals.HasWriter p

end Processes

open Processes

/-- One process does its next operation. -/
inductive Step {ε : Type u} (pattern : Pattern) : Processes ε → Processes ε → Prop
  | emit {s : Processes ε} {j : Nat} {e : ε} {next : Prog ε} {l : Local ε} :
      j < s.count → s.proc j = ⟨.emit e next, l⟩ →
      Step pattern s (s.set j ⟨next, l.emit e⟩)
  | pipe {s : Processes ε} {j r w : Nat} {next : Option (Nat × Nat) → Prog ε} {l : Local ε} :
      j < s.count → s.proc j = ⟨.pipe next, l⟩ → pattern.pipe j l.pipeCalls = true →
      r ≠ w → l.table r = none → l.table w = none →
      Step pattern s (s.set j ⟨next (some (r, w)), l.openPipe j r w⟩)
  | failPipe {s : Processes ε} {j : Nat} {next : Option (Nat × Nat) → Prog ε} {l : Local ε} :
      j < s.count → s.proc j = ⟨.pipe next, l⟩ → pattern.pipe j l.pipeCalls = false →
      Step pattern s (s.set j ⟨next none, l.failPipe⟩)
  | fork {s : Processes ε} {j : Nat} {child : Prog ε} {next : Option Nat → Prog ε} {l : Local ε} :
      j < s.count → s.proc j = ⟨.fork child next, l⟩ → pattern.fork j l.forkCalls = true →
      Step pattern s ((s.set j ⟨next (some s.count), l.fork s.count⟩).add
        ⟨child, .start l.table⟩)
  | failFork {s : Processes ε} {j : Nat} {child : Prog ε} {next : Option Nat → Prog ε}
      {l : Local ε} :
      j < s.count → s.proc j = ⟨.fork child next, l⟩ → pattern.fork j l.forkCalls = false →
      Step pattern s (s.set j ⟨next none, l.failFork⟩)
  | close {s : Processes ε} {j fd : Nat} {next : Prog ε} {l : Local ε} :
      j < s.count → s.proc j = ⟨.close fd next, l⟩ →
      Step pattern s (s.set j ⟨next, l.close fd⟩)
  | dup2 {s : Processes ε} {j old new : Nat} {next : Prog ε} {l : Local ε} :
      j < s.count → s.proc j = ⟨.dup2 old new next, l⟩ → l.table old ≠ none →
      Step pattern s (s.set j ⟨next, l.dup2 old new⟩)
  -- The process exits.
  | failDup2 {s : Processes ε} {j old new : Nat} {next : Prog ε} {l : Local ε} :
      j < s.count → s.proc j = ⟨.dup2 old new next, l⟩ → l.table old = none →
      Step pattern s (s.set j ⟨.done, { l with table := fun _ => none }⟩)
  | readEof {s : Processes ε} {j fd : Nat} {next : Prog ε} {l : Local ε} {p : PipeId} :
      j < s.count → s.proc j = ⟨.readEof fd next, l⟩ → l.table fd = some (.reader p) →
      s.NoWriter p → Step pattern s (s.set j ⟨next, l.readEof p⟩)
  -- What is not the read end of a pipe does not hold the process up.
  | failRead {s : Processes ε} {j fd : Nat} {next : Prog ε} {l : Local ε} :
      j < s.count → s.proc j = ⟨.readEof fd next, l⟩ →
      (∀ p, l.table fd ≠ some (.reader p)) → Step pattern s (s.set j ⟨next, l⟩)

/-- The states of the runs. -/
def Reachable {ε : Type u} (pattern : Pattern) : Processes ε → Processes ε → Prop :=
  Relation.ReflTransGen (Step pattern)

variable {ε : Type u} {pattern : Pattern} {s s' : Processes ε} {i j : Nat} {l : Local ε}
  {prog : Prog ε} {table : Table} {p : Process ε}

namespace Processes

@[simp] theorem set_count (s : Processes ε) (j : Nat) (p : Process ε) :
    (s.set j p).count = s.count := rfl

/-- The processes behind a step of `j`. The others are as they were. -/
theorem set_proc (s : Processes ε) (j : Nat) (p : Process ε) (i : Nat) :
    (s.set j p).proc i = if i = j then p else s.proc i := rfl

@[simp] theorem set_proc_self (s : Processes ε) (j : Nat) (p : Process ε) :
    (s.set j p).proc j = p := if_pos rfl

@[simp] theorem add_count (s : Processes ε) (p : Process ε) : (s.add p).count = s.count + 1 := rfl

/-- The processes behind a fork. The new one has the first ID that was free. -/
theorem add_proc (s : Processes ε) (p : Process ε) (i : Nat) :
    (s.add p).proc i = if i = s.count then p else s.proc i := rfl

end Processes

/-! ### What holds at each operation -/

/-- What has to hold when a process, given by its process ID and its data, does an operation. -/
abbrev Spec (ε : Type u) : Type u := Nat → Local ε → Op ε → Prop

/-- The specification holds at each operation of the program, and at those of its children. -/
def Prog.Meets (spec : Spec ε) (pattern : Pattern) : Prog ε → Nat → Local ε → Prop
  | .done, pid, l => spec pid l .done
  | .emit e next, pid, l => spec pid l (.emit e) ∧ next.Meets spec pattern pid (l.emit e)
  | .pipe next, pid, l =>
      spec pid l .pipe ∧
        (pattern.pipe pid l.pipeCalls = true → ∀ r w, r ≠ w → l.table r = none →
          l.table w = none → (next (some (r, w))).Meets spec pattern pid (l.openPipe pid r w)) ∧
        (pattern.pipe pid l.pipeCalls = false → (next none).Meets spec pattern pid l.failPipe)
  | .fork child next, pid, l =>
      spec pid l .fork ∧
        (pattern.fork pid l.forkCalls = true → ∀ pid', pid < pid' →
          child.Meets spec pattern pid' (.start l.table) ∧
          (next (some pid')).Meets spec pattern pid (l.fork pid')) ∧
        (pattern.fork pid l.forkCalls = false → (next none).Meets spec pattern pid l.failFork)
  | .close fd next, pid, l => spec pid l (.close fd) ∧ next.Meets spec pattern pid (l.close fd)
  | .dup2 old new next, pid, l =>
      spec pid l (.dup2 old new) ∧ l.table old ≠ none ∧
        next.Meets spec pattern pid (l.dup2 old new)
  | .readEof fd next, pid, l =>
      spec pid l (.readEof fd) ∧
        ∃ p, l.table fd = some (.reader p) ∧ next.Meets spec pattern pid (l.readEof p)

/-- At the first operation. This is what the specification says at once, whatever comes behind it.
-/
theorem Prog.Meets.op {spec : Spec ε} (h : prog.Meets spec pattern j l) : spec j l prog.op := by
  cases prog with
  | done => exact h
  | emit | pipe | fork | close | dup2 | readEof => exact h.1

/-- What is kept by all processes but one, and holds of that one. Each step but a fork is of this
form. -/
theorem forall_set {P : Nat → Process ε → Prop} (h : ∀ i, i < s.count → P i (s.proc i))
    (hp : P j p) : ∀ i, i < (s.set j p).count → P i ((s.set j p).proc i) := by
  intro i hi
  rw [set_proc]
  by_cases hij : i = j
  · rw [if_pos hij, hij]
    exact hp
  · rw [if_neg hij]
    exact h i hi

/-- The same for a new process. A fork is a `set` of its parent and an `add`. -/
theorem forall_add {P : Nat → Process ε → Prop} (h : ∀ i, i < s.count → P i (s.proc i))
    (hp : P s.count p) : ∀ i, i < (s.add p).count → P i ((s.add p).proc i) := by
  intro i hi
  rw [add_proc]
  by_cases hij : i = s.count
  · rw [if_pos hij, hij]
    exact hp
  · rw [if_neg hij]
    rw [add_count] at hi
    exact h i (by omega)

/-- A step keeps the specification. The process goes on with the rest of its program, and a child
starts with its own, and both meet it. -/
theorem step_meets {spec : Spec ε} (hstep : Step pattern s s')
    (h : ∀ i, i < s.count → (s.proc i).prog.Meets spec pattern i (s.proc i).locals) :
    ∀ i, i < s'.count → (s'.proc i).prog.Meets spec pattern i (s'.proc i).locals := by
  cases hstep with
  | emit hj hproc | close hj hproc =>
      have hmeets := h _ hj
      rw [hproc] at hmeets
      exact forall_set (P := fun i q => q.prog.Meets spec pattern i q.locals) h hmeets.2
  | pipe hj hproc hok hne hr hw =>
      have hmeets := h _ hj
      rw [hproc] at hmeets
      exact forall_set (P := fun i q => q.prog.Meets spec pattern i q.locals) h
        (hmeets.2.1 hok _ _ hne hr hw)
  | failPipe hj hproc hfail | failFork hj hproc hfail =>
      have hmeets := h _ hj
      rw [hproc] at hmeets
      exact forall_set (P := fun i q => q.prog.Meets spec pattern i q.locals) h
        (hmeets.2.2 hfail)
  | fork hj hproc hok =>
      have hmeets := h _ hj
      rw [hproc] at hmeets
      obtain ⟨hchild, hnext⟩ := hmeets.2.1 hok s.count hj
      exact forall_add (P := fun i q => q.prog.Meets spec pattern i q.locals)
        (forall_set (P := fun i q => q.prog.Meets spec pattern i q.locals) h hnext) hchild
  | dup2 hj hproc hold =>
      have hmeets := h _ hj
      rw [hproc] at hmeets
      exact forall_set (P := fun i q => q.prog.Meets spec pattern i q.locals) h hmeets.2.2
  | failDup2 hj hproc hold =>
      have hmeets := h _ hj
      rw [hproc] at hmeets
      exact absurd hold hmeets.2.1
  | readEof hj hproc hp _ =>
      have hmeets := h _ hj
      rw [hproc] at hmeets
      obtain ⟨p', hp', hnext⟩ := hmeets.2
      obtain rfl : p' = _ := End.reader.inj (Option.some.inj (hp'.symm.trans hp))
      exact forall_set (P := fun i q => q.prog.Meets spec pattern i q.locals) h hnext
  | failRead hj hproc hnone =>
      have hmeets := h _ hj
      rw [hproc] at hmeets
      obtain ⟨p', hp', -⟩ := hmeets.2
      exact absurd hp' (hnone p')

/-- In each state of each run the specification holds at the next operation of each process. It is
enough that the program of the first process meets it. -/
theorem meets_reachable {spec : Spec ε} (hrun : Reachable pattern (Processes.init prog table) s)
    (h : prog.Meets spec pattern 0 (.start table)) :
    ∀ i, i < s.count → (s.proc i).prog.Meets spec pattern i (s.proc i).locals := by
  induction hrun with
  | refl =>
      intro i hi
      obtain rfl : i = 0 := Nat.lt_one_iff.mp hi
      exact h
  | tail _ hstep ih => exact step_meets hstep ih

/-! ### Invariants of the processes -/

/-- What each operation keeps that the specification allows, whatever the program is. -/
structure Kept (spec : Spec ε) (P : Nat → Local ε → Prop) : Prop where
  emit : ∀ i l e, spec i l (.emit e) → P i l → P i (l.emit e)
  openPipe : ∀ i l r w, spec i l .pipe → l.table r = none → l.table w = none → P i l →
    P i (l.openPipe i r w)
  failPipe : ∀ i l, spec i l .pipe → P i l → P i l.failPipe
  fork : ∀ i l child, spec i l .fork → P i l → P i (l.fork child)
  start : ∀ i l child, i < child → spec i l .fork → P i l → P child (.start l.table)
  failFork : ∀ i l, spec i l .fork → P i l → P i l.failFork
  close : ∀ i l fd, spec i l (.close fd) → P i l → P i (l.close fd)
  dup2 : ∀ i l old new, spec i l (.dup2 old new) → P i l → P i (l.dup2 old new)
  exit : ∀ i l old new, spec i l (.dup2 old new) → P i l → P i { l with table := fun _ => none }
  readEof : ∀ i l fd p, spec i l (.readEof fd) → l.table fd = some (.reader p) → P i l →
    P i (l.readEof p)

/-- A step keeps an invariant of the processes. The operation is one that the specification allows,
so it is one of the cases of `Kept`. -/
theorem Kept.step {spec : Spec ε} {P : Nat → Local ε → Prop} (hP : Kept spec P)
    (hstep : Step pattern s s')
    (hspec : ∀ i, i < s.count → spec i (s.proc i).locals (s.proc i).prog.op)
    (h : ∀ i, i < s.count → P i (s.proc i).locals) :
    ∀ i, i < s'.count → P i (s'.proc i).locals := by
  have hone {j : Nat} {q q' : Process ε} (hj : j < s.count) (hproc : s.proc j = q)
      (hkeep : spec j q.locals q.prog.op → P j q.locals → P j q'.locals) :=
    forall_set (s := s) (P := fun i q => P i q.locals) (p := q') h
      (hkeep (hproc ▸ hspec j hj) (hproc ▸ h j hj))
  cases hstep with
  | emit hj hproc => exact hone hj hproc (hP.emit _ _ _)
  | pipe hj hproc _ _ hr hw => exact hone hj hproc fun hop => hP.openPipe _ _ _ _ hop hr hw
  | failPipe hj hproc => exact hone hj hproc (hP.failPipe _ _)
  | @fork j child next l hj hproc =>
      have hop := hspec j hj
      have hl := h j hj
      rw [hproc] at hop hl
      exact forall_add (P := fun i q => P i q.locals) (hone hj hproc (hP.fork _ _ _))
        (hP.start _ _ _ hj hop hl)
  | failFork hj hproc => exact hone hj hproc (hP.failFork _ _)
  | close hj hproc => exact hone hj hproc (hP.close _ _ _)
  | dup2 hj hproc => exact hone hj hproc (hP.dup2 _ _ _ _)
  | failDup2 hj hproc => exact hone hj hproc (hP.exit _ _ _ _)
  | readEof hj hproc hp => exact hone hj hproc fun hop => hP.readEof _ _ _ _ hop hp
  | failRead hj hproc => exact hone hj hproc fun _ => id

/-- The invariant holds of all processes in each state of each run. The induction is on the run, and
a child gets it from its parent at the fork. -/
theorem Kept.reachable {spec : Spec ε} {P : Nat → Local ε → Prop} (hP : Kept spec P)
    (hrun : Reachable pattern (.init prog table) s)
    (hspec : ∀ s, Reachable pattern (.init prog table) s →
      ∀ i, i < s.count → spec i (s.proc i).locals (s.proc i).prog.op)
    (h : P 0 (.start table)) : ∀ i, i < s.count → P i (s.proc i).locals := by
  induction hrun with
  | refl =>
      intro i hi
      obtain rfl : i = 0 := Nat.lt_one_iff.mp hi
      exact h
  | tail hrun hstep ih => exact hP.step hstep (hspec _ hrun) ih

/-- Any operation is allowed. -/
def anySpec : Spec ε := fun _ _ _ => True

/-! ### What a step changes -/

/-- A part of the data that the step does not change is as it was, for all processes. -/
theorem set_locals {α : Type} {f : Local ε → α} {next : Prog ε} {l' : Local ε}
    (hl : f l' = f (s.proc j).locals) (i : Nat) :
    f ((s.set j ⟨next, l'⟩).proc i).locals = f (s.proc i).locals := by
  rw [set_proc]
  by_cases hij : i = j
  · rw [if_pos hij, hij]
    exact hl
  · rw [if_neg hij]

/-- Only a fork makes a process. It is recorded as a child of the one that forks, and nothing else
changes the children. -/
theorem Step.family (h : Step pattern s s') :
    (s'.count = s.count ∧
        ∀ i, (s'.proc i).locals.children = (s.proc i).locals.children) ∨
      ∃ j, j < s.count ∧ (s.proc j).prog.op = .fork ∧
        pattern.fork j (s.proc j).locals.forkCalls = true ∧ s'.count = s.count + 1 ∧ ∀ i,
          i < s.count → (s'.proc i).locals.children
            = (s.proc i).locals.children ++ if i = j then [s.count] else [] := by
  have hone {j : Nat} {q : Process ε} {next : Prog ε} {l' : Local ε} (hproc : s.proc j = q)
      (hl : l'.children = q.locals.children) (i : Nat) :
      ((s.set j ⟨next, l'⟩).proc i).locals.children = (s.proc i).locals.children :=
    set_locals (f := Local.children) (by rw [hproc, hl]) i
  cases h with
  | emit hj hproc | pipe hj hproc | failPipe hj hproc | failFork hj hproc | dup2 hj hproc
    | failDup2 hj hproc | readEof hj hproc | failRead hj hproc =>
      exact Or.inl ⟨rfl, hone hproc rfl⟩
  | close hj hproc =>
      refine Or.inl ⟨rfl, hone hproc ?_⟩
      unfold Local.close
      split <;> rfl
  | @fork j child next l hj hproc hok =>
      refine Or.inr ⟨j, hj, by rw [hproc]; rfl, by rw [hproc]; exact hok, rfl, fun i hi => ?_⟩
      rw [add_proc, set_count, if_neg (Nat.ne_of_lt hi), set_proc]
      by_cases hij : i = j
      · rw [if_pos hij, if_pos hij, hij, hproc]
        rfl
      · rw [if_neg hij, if_neg hij, List.append_nil]

/-- The events stay. A step adds at most one at the end. -/
theorem Step.events (h : Step pattern s s') (hi : i < s.count) :
    (s.proc i).locals.events <+: (s'.proc i).locals.events := by
  have hone {j : Nat} {next : Prog ε} {l' : Local ε}
      (hl : (s.proc j).locals.events <+: l'.events) :
      (s.proc i).locals.events <+: ((s.set j ⟨next, l'⟩).proc i).locals.events := by
    rw [set_proc]
    by_cases hij : i = j
    · rw [if_pos hij, hij]
      exact hl
    · rw [if_neg hij]
  cases h with
  | emit hj hproc =>
      refine hone ?_
      rw [hproc]
      exact List.prefix_append _ _
  | pipe hj hproc | failPipe hj hproc | failFork hj hproc | dup2 hj hproc | failDup2 hj hproc
    | readEof hj hproc | failRead hj hproc =>
      exact hone (hproc ▸ List.prefix_rfl)
  | close hj hproc =>
      refine hone ?_
      rw [hproc, Local.close]
      split <;> exact List.prefix_rfl
  | fork hj hproc =>
      rw [add_proc, set_count, if_neg (Nat.ne_of_lt hi)]
      exact hone (hproc ▸ List.prefix_rfl)

/-- The end of a pipe is read when no process has its write end. So a process that has read it did
so before, or at a state without a writer. -/
theorem Step.eofs {p : PipeId} (h : Step pattern s s') (hi : i < s'.count)
    (hp : p ∈ (s'.proc i).locals.eofs) :
    i < s.count ∧ (p ∈ (s.proc i).locals.eofs ∨ s.NoWriter p) := by
  have hone {j : Nat} {next : Prog ε} {l' : Local ε} (hj : i < s.count)
      (hmem : p ∈ ((s.set j ⟨next, l'⟩).proc i).locals.eofs)
      (hl : p ∈ l'.eofs → p ∈ (s.proc j).locals.eofs ∨ s.NoWriter p) :
      i < s.count ∧ (p ∈ (s.proc i).locals.eofs ∨ s.NoWriter p) := by
    rw [set_proc] at hmem
    by_cases hij : i = j
    · rw [if_pos hij] at hmem
      exact ⟨hj, hij ▸ hl hmem⟩
    · rw [if_neg hij] at hmem
      exact ⟨hj, Or.inl hmem⟩
  cases h with
  | emit hj hproc | pipe hj hproc | failPipe hj hproc | failFork hj hproc | dup2 hj hproc
    | failDup2 hj hproc | failRead hj hproc =>
      exact hone hi hp fun hmem => Or.inl (by rw [hproc]; exact hmem)
  | close hj hproc =>
      refine hone hi hp fun hmem => Or.inl ?_
      rw [hproc]
      unfold Local.close at hmem
      split at hmem <;> exact hmem
  | readEof hj hproc hfd hnone =>
      refine hone hi hp fun hmem => ?_
      rcases List.mem_append.mp hmem with hmem | hmem
      · exact Or.inl (by rw [hproc]; exact hmem)
      · exact Or.inr (List.mem_singleton.mp hmem ▸ hnone)
  | fork hj hproc =>
      rw [add_proc, set_count] at hp
      by_cases hnew : i = s.count
      · rw [if_pos hnew] at hp
        exact absurd hp List.not_mem_nil
      · rw [if_neg hnew] at hp
        rw [add_count, set_count] at hi
        exact hone (by omega) hp fun hmem => Or.inl (by rw [hproc]; exact hmem)

/-! ### The pipes that were made -/

@[simp] theorem Local.close_opened (l : Local ε) (fd : Nat) : (l.close fd).opened = l.opened := by
  unfold Local.close
  split <;> rfl

@[simp] theorem Local.close_pipeCalls (l : Local ε) (fd : Nat) :
    (l.close fd).pipeCalls = l.pipeCalls := by
  unfold Local.close
  split <;> rfl

/-- The ends that a process has opened are all different. -/
structure Local.Fresh (pid : Nat) (l : Local ε) : Prop where
  mem : ∀ e ∈ l.opened, ∃ k, k < l.pipeCalls ∧ (e = .reader ⟨pid, k⟩ ∨ e = .writer ⟨pid, k⟩)
  nodup : l.opened.Nodup

/-- A process at its start has opened nothing. -/
theorem Local.fresh_start (pid : Nat) (table : Table) : (start table : Local ε).Fresh pid :=
  ⟨fun _ he => absurd he List.not_mem_nil, List.nodup_nil⟩

/-- The ends of a new pipe are different from those before. The pipe has the number of the call,
which goes up. -/
theorem Local.Fresh.openPipe {pid r w : Nat} (h : l.Fresh pid) :
    (l.openPipe pid r w).Fresh pid where
  mem := by
    intro e he
    rcases List.mem_append.mp he with he | he
    · obtain ⟨k, hk, he⟩ := h.mem e he
      exact ⟨k, Nat.lt_succ_of_lt hk, he⟩
    · refine ⟨l.pipeCalls, Nat.lt_succ_self _, ?_⟩
      simpa using he
  nodup := by
    refine List.nodup_append.mpr ⟨h.nodup, by simp, fun e he e' he' heq => ?_⟩
    obtain ⟨k, hk, hek⟩ := h.mem e he
    subst heq
    have hnew : e = .reader ⟨pid, l.pipeCalls⟩ ∨ e = .writer ⟨pid, l.pipeCalls⟩ := by
      simpa using he'
    rcases hek with rfl | rfl <;> rcases hnew with hnew | hnew <;>
      simp only [End.reader.injEq, End.writer.injEq, PipeId.mk.injEq, reduceCtorEq] at hnew <;>
      omega

/-- A call of `pipe` that fails opens nothing, and the number goes up. -/
theorem Local.Fresh.failPipe {pid : Nat} (h : l.Fresh pid) : l.failPipe.Fresh pid where
  mem := by
    intro e he
    obtain ⟨k, hk, he⟩ := h.mem e he
    exact ⟨k, Nat.lt_succ_of_lt hk, he⟩
  nodup := h.nodup

/-- Each operation keeps the ends different. Only `pipe` opens ends, and a child starts with none.
-/
theorem kept_fresh : Kept (anySpec : Spec ε) fun i l => l.Fresh i where
  emit _ _ _ _ h := ⟨h.mem, h.nodup⟩
  openPipe _ _ _ _ _ _ _ h := h.openPipe
  failPipe _ _ _ h := h.failPipe
  fork _ _ _ _ h := ⟨h.mem, h.nodup⟩
  start _ l child _ _ _ := Local.fresh_start child l.table
  failFork _ _ _ h := ⟨h.mem, h.nodup⟩
  close _ l fd _ h := ⟨by simpa using h.mem, by simpa using h.nodup⟩
  dup2 _ _ _ _ _ h := ⟨h.mem, h.nodup⟩
  exit _ _ _ _ _ h := ⟨h.mem, h.nodup⟩
  readEof _ _ _ _ _ _ h := ⟨h.mem, h.nodup⟩

/-- In each state of each run the ends that a process has opened are all different. So a pipe is
never confused with another one. -/
theorem fresh_reachable (hrun : Reachable pattern (.init prog table) s) :
    ∀ i, i < s.count → (s.proc i).locals.Fresh i :=
  kept_fresh.reachable hrun (fun _ _ _ _ => trivial) (Local.fresh_start 0 table)

end SysProg.Lib
