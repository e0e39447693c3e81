import Mathlib.Data.List.Basic
import Mathlib.Data.List.Induction
import Mathlib.Data.List.Perm.Basic
import Mathlib.Data.List.Pairwise

/-!
# `SysProg.Lib.History`: linearizable histories

A history is a list of events: a thread invokes an operation, or its operation returns. Each
thread has at most one operation open. The position of an event in the list is its time.

* `scan` reads a history from the left. It collects the operations that have returned, with
  their times, and remembers the open operation of every thread.
* `Linearizes spec m₀ h order m` says that `order` is a linearization of `h`: an arrangement
  of the completed operations that respects real time and is a legal sequential run of the
  specification from `m₀` to `m`.
* `linearizes_completed`: when the operations are legal in the order in which they return,
  this order is a linearization. It is the rule for an object whose operations take effect
  under a lock that they hold until they return.
-/

set_option autoImplicit false

namespace SysProg.Lib

/-- An event of a history. -/
inductive HistoryEvent (Tid Op R : Type*) where
  | invoked (t : Tid) (op : Op)
  | returned (t : Tid) (r : R)

/-- An operation that has returned, with the times of its invocation and of its return. -/
structure Completed (Tid Op R : Type*) where
  tid : Tid
  op : Op
  reply : R
  start : Nat
  finish : Nat

/-- What is known after a part of a history: the time, the open operation of each thread with
its start, and the completed operations in the order of their returns. -/
structure Scan (Tid Op R : Type*) where
  clock : Nat
  pending : Tid → Option (Op × Nat)
  done : List (Completed Tid Op R)

variable {Tid Op R σ : Type*} [DecidableEq Tid]

namespace Scan

/-- Reads one event. A return without an open operation is skipped. -/
def next (c : Scan Tid Op R) : HistoryEvent Tid Op R → Scan Tid Op R
  | .invoked t op => ⟨c.clock + 1, Function.update c.pending t (some (op, c.clock)), c.done⟩
  | .returned t r =>
      match c.pending t with
      | some (op, start) =>
          ⟨c.clock + 1, Function.update c.pending t none, c.done ++ [⟨t, op, r, start, c.clock⟩]⟩
      | none => ⟨c.clock + 1, c.pending, c.done⟩

/-- A return ends the call that is pending. The call is recorded with the two times. -/
theorem next_returned {c : Scan Tid Op R} {t : Tid} {op : Op} {start : Nat} (r : R)
    (h : c.pending t = some (op, start)) :
    c.next (.returned t r) = ⟨c.clock + 1, Function.update c.pending t none,
      c.done ++ [⟨t, op, r, start, c.clock⟩]⟩ := by
  simp only [next, h]

/-- A return without a call that is pending is only a tick of the clock. In the histories of a
program it does not occur. -/
theorem next_returned_none {c : Scan Tid Op R} {t : Tid} (r : R) (h : c.pending t = none) :
    c.next (.returned t r) = ⟨c.clock + 1, c.pending, c.done⟩ := by
  simp only [next, h]

end Scan

/-- Reads a whole history. -/
def scan (h : List (HistoryEvent Tid Op R)) : Scan Tid Op R :=
  h.foldl Scan.next ⟨0, fun _ => none, []⟩

/-- The operations of a history that have returned. -/
def completed (h : List (HistoryEvent Tid Op R)) : List (Completed Tid Op R) := (scan h).done

/-- The scan goes through a history from left to right, so the last event comes last. -/
theorem scan_snoc (h : List (HistoryEvent Tid Op R)) (e : HistoryEvent Tid Op R) :
    scan (h ++ [e]) = (scan h).next e := by
  rw [scan, List.foldl_append]
  rfl

omit [DecidableEq Tid] in
/-- The operations of a list, one at a time, lead from `m` to `m'` with their replies. -/
def Legal (spec : σ → Op → σ → R → Prop) : σ → List (Completed Tid Op R) → σ → Prop
  | m, [], m' => m = m'
  | m, c :: cs, m' => ∃ m₁, spec m c.op m₁ c.reply ∧ Legal spec m₁ cs m'

omit [DecidableEq Tid] in
/-- A legal run followed by one more operation. -/
theorem Legal.snoc {spec : σ → Op → σ → R → Prop} {m m₁ m' : σ}
    {cs : List (Completed Tid Op R)} {c : Completed Tid Op R} (h : Legal spec m cs m₁)
    (hc : spec m₁ c.op m' c.reply) : Legal spec m (cs ++ [c]) m' := by
  induction cs generalizing m with
  | nil =>
      have hm : m = m₁ := h
      subst hm
      exact ⟨m', hc, rfl⟩
  | cons d cs ih =>
      obtain ⟨m₂, hd, hrest⟩ := h
      exact ⟨m₂, hd, ih hrest⟩

/-- `order` is a linearization of the history `h`. -/
structure Linearizes (spec : σ → Op → σ → R → Prop) (m₀ : σ) (h : List (HistoryEvent Tid Op R))
    (order : List (Completed Tid Op R)) (m : σ) : Prop where
  /-- It arranges exactly the completed operations. -/
  perm : order.Perm (completed h)
  /-- An operation that returned before another one started stands before it. -/
  real_time : order.Pairwise fun a b => ¬ b.finish < a.start
  /-- One at a time, the operations give their replies. -/
  legal : Legal spec m₀ order m

/-- The times in a scan: operations return after they start, one after the other. -/
structure Scan.Timed (c : Scan Tid Op R) : Prop where
  pending : ∀ t op start, c.pending t = some (op, start) → start < c.clock
  bounds : ∀ d ∈ c.done, d.start < d.finish ∧ d.finish < c.clock
  ordered : c.done.Pairwise fun a b => a.finish < b.finish

/-- An event keeps the order of the times. The clock goes up, so what is recorded next is later than
all before. -/
theorem Scan.Timed.next {c : Scan Tid Op R} (h : c.Timed) (e : HistoryEvent Tid Op R) :
    (c.next e).Timed := by
  cases e with
  | invoked t op =>
      refine ⟨fun u op' start hu => ?_, fun d hd => ?_, h.ordered⟩
      · show start < c.clock + 1
        have hu' : Function.update c.pending t (some (op, c.clock)) u = some (op', start) := hu
        by_cases hut : u = t
        · subst hut
          rw [Function.update_self, Option.some.injEq, Prod.mk.injEq] at hu'
          omega
        · rw [Function.update_of_ne hut] at hu'
          have := h.pending u op' start hu'
          omega
      · have := h.bounds d hd
        exact ⟨this.1, Nat.lt_succ_of_lt this.2⟩
  | returned t r =>
      cases hp : c.pending t with
      | none =>
          rw [Scan.next_returned_none r hp]
          refine ⟨fun u op start hu => Nat.lt_succ_of_lt (h.pending u op start hu), fun d hd => ?_,
            h.ordered⟩
          have := h.bounds d hd
          exact ⟨this.1, Nat.lt_succ_of_lt this.2⟩
      | some r' =>
          obtain ⟨op, start⟩ := r'
          rw [Scan.next_returned r hp]
          have hstart := h.pending t op start hp
          refine ⟨fun u op' start' hu => ?_, fun d hd => ?_, ?_⟩
          · by_cases hut : u = t
            · subst hut
              simp at hu
            · simp only [Function.update_of_ne hut] at hu
              exact Nat.lt_succ_of_lt (h.pending u op' start' hu)
          · cases List.mem_append.mp hd with
            | inl hold =>
                have := h.bounds d hold
                exact ⟨this.1, Nat.lt_succ_of_lt this.2⟩
            | inr hnew =>
                rw [List.mem_singleton] at hnew
                subst hnew
                exact ⟨hstart, Nat.lt_succ_self _⟩
          · refine List.pairwise_append.mpr ⟨h.ordered, List.pairwise_singleton _ _, ?_⟩
            intro a ha b hb
            rw [List.mem_singleton] at hb
            subst hb
            exact (h.bounds a ha).2

/-- The times in every history are in order. -/
theorem scan_timed (h : List (HistoryEvent Tid Op R)) : (scan h).Timed := by
  induction h using List.reverseRecOn with
  | nil => exact ⟨fun _ _ _ hp => (by cases hp), fun _ hd => (by cases hd), List.Pairwise.nil⟩
  | append_singleton h e ih =>
      rw [scan_snoc]
      exact ih.next e

/-- Operations that are legal in the order of their returns are linearized by it. -/
theorem linearizes_completed {spec : σ → Op → σ → R → Prop} {m₀ m : σ}
    {h : List (HistoryEvent Tid Op R)} (hlegal : Legal spec m₀ (completed h) m) :
    Linearizes spec m₀ h (completed h) m where
  perm := List.Perm.refl _
  real_time := by
    have htimed := scan_timed h
    refine htimed.ordered.imp_of_mem fun {a b} ha hb hab => ?_
    have hbounds := htimed.bounds a ha
    omega
  legal := hlegal

end SysProg.Lib
