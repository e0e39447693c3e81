import Mathlib.Data.Multiset.Range
import Mathlib.Logic.Hydra
import SysProg.Lib.Processes

/-!
# `SysProg.Lib.Barrier`: processes that wait for the end of a pipe

* `wellFounded_step`: no run is infinite.
* `exists_final`: each state leads to one from which there is no step.
* `all_done_of_stuck`: processes that wait for the end of a pipe do not wait for each other, if none
  of them has its write end.
-/

set_option autoImplicit false

namespace SysProg.Lib

universe u

open Processes

variable {ε : Type u} {pattern : Pattern} {s s' : Processes ε} {j : Nat} {prog : Prog ε}
  {table : Table}

/-! ### No run is infinite -/

/-- A step goes on with a part of the program. -/
inductive Prog.Below : Prog ε → Prog ε → Prop
  | emit (e : ε) (next : Prog ε) : Below next (.emit e next)
  | pipe (next : Option (Nat × Nat) → Prog ε) (r : Option (Nat × Nat)) :
      Below (next r) (.pipe next)
  | fork (child : Prog ε) (next : Option Nat → Prog ε) (r : Option Nat) :
      Below (next r) (.fork child next)
  | child (child : Prog ε) (next : Option Nat → Prog ε) : Below child (.fork child next)
  | close (fd : Nat) (next : Prog ε) : Below next (.close fd next)
  | dup2 (old new : Nat) (next : Prog ε) : Below next (.dup2 old new next)
  | exit (old new : Nat) (next : Prog ε) : Below .done (.dup2 old new next)
  | readEof (fd : Nat) (next : Prog ε) : Below next (.readEof fd next)

/-- A program cannot go on forever. It is a tree, and each step leads to a smaller one. -/
theorem Prog.acc_below (prog : Prog ε) : Acc Prog.Below prog := by
  have hdone : Acc Prog.Below (.done : Prog ε) := ⟨_, fun _ h => by cases h⟩
  induction prog with
  | done => exact hdone
  | emit e next ih | close e next ih | readEof e next ih =>
      refine ⟨_, fun q hq => ?_⟩
      cases hq
      exact ih
  | pipe next ih =>
      refine ⟨_, fun q hq => ?_⟩
      cases hq with
      | pipe _ r => exact ih r
  | fork child next ihchild ih =>
      refine ⟨_, fun q hq => ?_⟩
      cases hq with
      | fork _ _ r => exact ih r
      | child => exact ihchild
  | dup2 old new next ih =>
      refine ⟨_, fun q hq => ?_⟩
      cases hq with
      | dup2 => exact ih
      | exit => exact hdone

/-- The programs of all processes. -/
def Processes.progs (s : Processes ε) : Multiset (Prog ε) :=
  (Multiset.range s.count).map fun i => (s.proc i).prog

/-- One program takes the place of another one. -/
theorem Processes.progs_set (hj : j < s.count) (p : Process ε) :
    (s.set j p).progs + {(s.proc j).prog} = s.progs + {p.prog} := by
  have hrange : Multiset.range s.count = j ::ₘ (Multiset.range s.count).erase j :=
    (Multiset.cons_erase (Multiset.mem_range.mpr hj)).symm
  have hrest : ((Multiset.range s.count).erase j).map (fun i => ((s.set j p).proc i).prog)
      = ((Multiset.range s.count).erase j).map fun i => (s.proc i).prog := by
    refine Multiset.map_congr rfl fun i hi => ?_
    have hne : i ≠ j := ((Multiset.nodup_range s.count).mem_erase_iff.mp hi).1
    rw [set_proc, if_neg hne]
  unfold Processes.progs
  rw [set_count, hrange, Multiset.map_cons, Multiset.map_cons, hrest, set_proc_self,
    ← Multiset.singleton_add, ← Multiset.singleton_add]
  ac_rfl

/-- A new process adds its program to those that are still to run. -/
theorem Processes.progs_add (s : Processes ε) (p : Process ε) :
    (s.add p).progs = s.progs + {p.prog} := by
  have hrest : (Multiset.range s.count).map (fun i => ((s.add p).proc i).prog)
      = (Multiset.range s.count).map fun i => (s.proc i).prog := by
    refine Multiset.map_congr rfl fun i hi => ?_
    have hne : i ≠ s.count := (Multiset.mem_range.mp hi).ne
    rw [add_proc, if_neg hne]
  unfold Processes.progs
  rw [add_count, Multiset.range_succ, Multiset.map_cons, hrest, add_proc, if_pos rfl, add_comm,
    Multiset.singleton_add]

/-- A step puts parts of one program into its place. A fork puts two parts there, the rest of the
parent and the child, and every other step puts one. -/
theorem Step.cutExpand (h : Step pattern s s') :
    Relation.CutExpand Prog.Below s'.progs s.progs := by
  -- Each step but a fork changes one process.
  have hone {j : Nat} {next : Prog ε} (hj : j < s.count) (l : Local ε)
      (hbelow : Prog.Below next (s.proc j).prog) :
      Relation.CutExpand Prog.Below (s.set j ⟨next, l⟩).progs s.progs :=
    ⟨{next}, (s.proc j).prog, fun q hq => Multiset.mem_singleton.mp hq ▸ hbelow,
      Processes.progs_set hj _⟩
  cases h with
  | emit hj hproc => exact hone hj _ (by rw [hproc]; exact .emit _ _)
  | pipe hj hproc => exact hone hj _ (by rw [hproc]; exact .pipe _ _)
  | failPipe hj hproc => exact hone hj _ (by rw [hproc]; exact .pipe _ _)
  | @fork j child next l hj hproc =>
      refine ⟨{next (some s.count)} + {child}, .fork child next, fun q hq => ?_, ?_⟩
      · rcases Multiset.mem_add.mp hq with hq | hq
        · exact Multiset.mem_singleton.mp hq ▸ .fork _ _ _
        · exact Multiset.mem_singleton.mp hq ▸ .child _ _
      · have hset := Processes.progs_set hj ⟨next (some s.count), l.fork s.count⟩
        rw [hproc] at hset
        rw [Processes.progs_add, add_right_comm, hset, add_assoc]
  | failFork hj hproc => exact hone hj _ (by rw [hproc]; exact .fork _ _ _)
  | close hj hproc => exact hone hj _ (by rw [hproc]; exact .close _ _)
  | dup2 hj hproc => exact hone hj _ (by rw [hproc]; exact .dup2 _ _ _)
  | failDup2 hj hproc => exact hone hj _ (by rw [hproc]; exact .exit _ _ _)
  | readEof hj hproc => exact hone hj _ (by rw [hproc]; exact .readEof _ _)
  | failRead hj hproc => exact hone hj _ (by rw [hproc]; exact .readEof _ _)

/-- The steps go down. -/
theorem wellFounded_step (pattern : Pattern) :
    WellFounded fun s' s : Processes ε => Step pattern s s' :=
  Subrelation.wf (fun h => h.cutExpand)
    (InvImage.wf Processes.progs (WellFounded.cutExpand ⟨Prog.acc_below⟩))

/-- No run is infinite. -/
theorem not_infinite (run : Nat → Processes ε) : ¬ ∀ t, Step pattern (run t) (run (t + 1)) :=
  fun h =>
    (wellFounded_iff_isEmpty_descending_chain.mp (wellFounded_step pattern)).elim ⟨run, h⟩

/-- Each state leads to one from which there is no step. -/
theorem exists_final (pattern : Pattern) (s : Processes ε) :
    ∃ s', Reachable pattern s s' ∧ ∀ s'', ¬ Step pattern s' s'' := by
  induction s using (wellFounded_step pattern).induction with
  | _ s ih =>
      by_cases hstep : ∃ s', Step pattern s s'
      · obtain ⟨s', hs'⟩ := hstep
        obtain ⟨s'', hrun, hfinal⟩ := ih s' hs'
        exact ⟨s'', .head hs' hrun, hfinal⟩
      · exact ⟨s, .refl, fun s' hs' => hstep ⟨s', hs'⟩⟩

/-! ### The barrier -/

/-- Each operation keeps the table of a process finite, as it changes at most two descriptors. -/
theorem kept_finite : Kept (anySpec : Spec ε) fun _ l => l.table.Finite where
  emit _ _ _ _ h := h
  openPipe _ _ _ _ _ _ _ h := (h.set _ _).set _ _
  failPipe _ _ _ h := h
  fork _ _ _ _ h := h
  start _ _ _ _ _ h := h
  failFork _ _ _ h := h
  close _ l fd _ h := by
    unfold Local.close
    cases l.table fd with
    | none => exact h
    | some e => exact h.set _ _
  dup2 _ _ _ _ _ h := h.set _ _
  exit _ _ _ _ _ _ := ⟨0, fun _ _ => rfl⟩
  readEof _ _ _ _ _ _ h := h

/-- All tables stay finite. -/
theorem finite_reachable (hrun : Reachable pattern (.init prog table) s) (h : table.Finite) :
    ∀ i, i < s.count → (s.proc i).locals.table.Finite :=
  kept_finite.reachable hrun (fun _ _ _ _ => trivial) h

/-- Only a process that reads can be stuck. The other operations always have an answer, and a `pipe`
finds free descriptors in a finite table. -/
theorem exists_step (hj : j < s.count) (hfinite : (s.proc j).locals.table.Finite)
    (hdone : (s.proc j).prog ≠ .done)
    (hread : ∀ fd next, (s.proc j).prog = .readEof fd next → ∃ p,
      (s.proc j).locals.table fd = some (.reader p) ∧ s.NoWriter p) :
    ∃ s', Step pattern s s' := by
  generalize hproc : s.proc j = q at hfinite hdone hread
  obtain ⟨prog, l⟩ := q
  cases prog with
  | done => exact absurd rfl hdone
  | emit => exact ⟨_, .emit hj hproc⟩
  | pipe next =>
      cases hok : pattern.pipe j l.pipeCalls with
      | true =>
          obtain ⟨r, w, hne, hr, hw⟩ := hfinite.exists_free
          exact ⟨_, .pipe hj hproc hok hne hr hw⟩
      | false => exact ⟨_, .failPipe hj hproc hok⟩
  | fork child next =>
      cases hok : pattern.fork j l.forkCalls with
      | true => exact ⟨_, .fork hj hproc hok⟩
      | false => exact ⟨_, .failFork hj hproc hok⟩
  | close => exact ⟨_, .close hj hproc⟩
  | dup2 old new next =>
      by_cases hold : l.table old = none
      · exact ⟨_, .failDup2 hj hproc hold⟩
      · exact ⟨_, .dup2 hj hproc hold⟩
  | readEof fd next =>
      obtain ⟨p, hp, hnone⟩ := hread fd next rfl
      exact ⟨_, .readEof hj hproc hp hnone⟩

/-- If all reads are from one pipe, and those who read or are done do not have its write end, then
no process waits for ever. -/
theorem all_done_of_stuck {p : PipeId}
    (hfinite : ∀ i, i < s.count → (s.proc i).locals.table.Finite)
    (hread : ∀ i, i < s.count → ∀ fd next, (s.proc i).prog = .readEof fd next →
      (s.proc i).locals.table fd = some (.reader p) ∧ ¬ (s.proc i).locals.HasWriter p)
    (hdone : ∀ i, i < s.count → (s.proc i).prog = .done → ¬ (s.proc i).locals.HasWriter p)
    (hstuck : ∀ s', ¬ Step pattern s s') : ∀ i, i < s.count → (s.proc i).prog = .done := by
  -- A process that is not done reads, since all else is possible.
  have hreads : ∀ i, i < s.count → (s.proc i).prog ≠ .done →
      ∃ fd next, (s.proc i).prog = .readEof fd next := by
    intro i hi hne
    by_contra hnot
    have hstep : ∃ s', Step pattern s s' := exists_step hi (hfinite i hi) hne
      fun fd next hprog => absurd ⟨fd, next, hprog⟩ hnot
    exact hstep.elim hstuck
  have hnone : s.NoWriter p := by
    intro i hi
    by_cases hne : (s.proc i).prog = .done
    · exact hdone i hi hne
    · obtain ⟨fd, next, hprog⟩ := hreads i hi hne
      exact (hread i hi fd next hprog).2
  intro i hi
  by_contra hne
  have hstep : ∃ s', Step pattern s s' := exists_step hi (hfinite i hi) hne
    fun fd next hprog => ⟨p, (hread i hi fd next hprog).1, hnone⟩
  exact hstep.elim hstuck

end SysProg.Lib
