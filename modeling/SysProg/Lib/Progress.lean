import Mathlib.Algebra.Order.BigOperators.Group.Finset
import Mathlib.Order.WellFounded
import SysProg.Lib.Run

/-!
# `SysProg.Lib.Progress`: what every run comes to

`Inevitable step ok goal s` says that no run from `s` goes around `goal`: as long as the goal is
not reached some action of `ok` is enabled, and every such action leads closer to it. A scheduler
can choose the actions, but it cannot keep the system from the goal.

* `inevitable_of_rank` is the proof rule. It needs an invariant with a rank in a well-founded
  order, and one lemma about one step.
* `Inevitable.exists_run` gives a run that reaches the goal.
* `run_potential` bounds how often something happens in a run.
* `sum_lt_of_one` and `sum_eq_of_one` are for a rank that sums over the parties, when one of them
  does a step.
-/

set_option autoImplicit false

namespace SysProg.Lib

variable {σ α ε ρ : Type*}

/-- Every run from a state with actions of `ok` that goes on as long as it can reaches `goal`. -/
inductive Inevitable (step : σ → α → Option (σ × List ε)) (ok : α → Prop) (goal : σ → Prop) :
    σ → Prop where
  | now {s : σ} (here : goal s) : Inevitable step ok goal s
  | later {s : σ} (enabled : ∃ a, ok a ∧ (step s a).isSome)
      (next : ∀ a s' es, ok a → step s a = some (s', es) → Inevitable step ok goal s') :
      Inevitable step ok goal s

section
variable {step : σ → α → Option (σ × List ε)} {ok : α → Prop} {goal : σ → Prop}

/-- The goal is inevitable when the system is never stuck before it, and every step reaches it or
keeps the invariant with a smaller rank. -/
theorem inevitable_of_rank {r : ρ → ρ → Prop} (hwf : WellFounded r) {I : ρ → σ → Prop}
    (hstep : ∀ x s, I x s → goal s ∨ (∃ a, ok a ∧ (step s a).isSome) ∧
      ∀ a s' es, ok a → step s a = some (s', es) → goal s' ∨ ∃ y, r y x ∧ I y s')
    {x : ρ} {s : σ} (h : I x s) : Inevitable step ok goal s := by
  induction x using hwf.induction generalizing s with
  | _ x ih =>
      rcases hstep x s h with hgoal | ⟨henabled, hnext⟩
      · exact .now hgoal
      · refine .later henabled fun a s' es ha hs => ?_
        rcases hnext a s' es ha hs with hgoal | ⟨y, hy, hI⟩
        · exact .now hgoal
        · exact ih y hy hI

/-- What is inevitable happens in some run. -/
theorem Inevitable.exists_run {s : σ} (h : Inevitable step ok goal s) :
    ∃ as s' es, (∀ a ∈ as, ok a) ∧ run step s as = some (s', es) ∧ goal s' := by
  induction h with
  | now hgoal => exact ⟨[], _, [], fun a ha => (by cases ha), rfl, hgoal⟩
  | later henabled hnext ih =>
      obtain ⟨a, ha, hsome⟩ := henabled
      obtain ⟨⟨s', es⟩, hs⟩ := Option.isSome_iff_exists.mp hsome
      obtain ⟨as, s'', es', hok, hrun, hgoal⟩ := ih a s' es ha hs
      refine ⟨a :: as, s'', es ++ es', fun b hb => ?_, ?_, hgoal⟩
      · rcases List.mem_cons.mp hb with rfl | hb
        · exact ha
        · exact hok b hb
      · rw [run, hs]
        simp only [hrun]

/-- A run emits at most as many events of one kind as the potential of its first state, when each
step pays for its events with its potential. -/
theorem run_potential {I : σ → Prop} (count : ε → Bool) (potential : σ → Nat)
    (hstep : ∀ s a s' es, I s → step s a = some (s', es) →
      I s' ∧ es.countP count + potential s' ≤ potential s)
    {as : List α} {s s' : σ} {es : List ε} (h : I s) (hrun : run step s as = some (s', es)) :
    es.countP count + potential s' ≤ potential s := by
  induction as generalizing s es with
  | nil =>
      rw [run_nil, Option.some.injEq, Prod.mk.injEq] at hrun
      obtain ⟨rfl, rfl⟩ := hrun
      exact (Nat.zero_add _).le
  | cons a as ih =>
      obtain ⟨s₁, es₁, es₂, hone, hrest, rfl⟩ := run_append_eq_some
        (show run step s ([a] ++ as) = _ from hrun)
      rw [run_singleton] at hone
      obtain ⟨h₁, hpaid⟩ := hstep s a s₁ es₁ h hone
      have hlast := ih h₁ hrest
      rw [List.countP_append]
      omega

end

section
variable {τ : Type*} [Fintype τ] {f g : τ → Nat} {t : τ}

/-- One party lowers the sum. -/
theorem sum_lt_of_one (hothers : ∀ u, u ≠ t → f u = g u) (ht : f t < g t) :
    ∑ u, f u < ∑ u, g u := by
  refine Finset.sum_lt_sum (fun u _ => ?_) ⟨t, Finset.mem_univ t, ht⟩
  by_cases hut : u = t
  · subst hut
    exact ht.le
  · exact (hothers u hut).le

/-- A party that keeps its part keeps the sum. -/
theorem sum_eq_of_one (hothers : ∀ u, u ≠ t → f u = g u) (ht : f t = g t) :
    ∑ u, f u = ∑ u, g u := by
  refine Finset.sum_congr rfl fun u _ => ?_
  by_cases hut : u = t
  · subst hut
    exact ht
  · exact hothers u hut

end

end SysProg.Lib
