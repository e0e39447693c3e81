import Mathlib.Data.List.Basic
import Mathlib.Data.List.Infix

/-!
# `SysProg.Lib.Run`: finite runs of a partial step function

A system is a function `step : σ → α → Option (σ × List ε)`. It answers `none` when the
action `a` is not enabled in `s`, and otherwise the next state with the events the step
emits. `run` folds it over a list of actions and collects the events.

* `run_append` splits a run at any point, and `run_snoc_eq_some` splits off its last step.
* `Visits` names the states a run passes through, the start and the end included.
* `StateAt` is the state before the action of a given index.
* `run_induction` is the invariant rule. An invariant may speak about the state and about
  the events so far. A side condition may be assumed of every visited state, and with
  `run_induction_of_steps` of every step.
-/

set_option autoImplicit false

namespace SysProg.Lib

variable {σ α ε : Type*}

/-- The run of `step` from `s` along a list of actions, with the events in the order they
were emitted. The answer is `none` when some action is not enabled. -/
def run (step : σ → α → Option (σ × List ε)) : σ → List α → Option (σ × List ε)
  | s, [] => some (s, [])
  | s, a :: as =>
      match step s a with
      | none => none
      | some (s', es) =>
          match run step s' as with
          | none => none
          | some (s'', es') => some (s'', es ++ es')

section
variable {step : σ → α → Option (σ × List ε)}

@[simp] theorem run_nil (s : σ) : run step s [] = some (s, []) := rfl

/-- A run of one action is one step. -/
theorem run_singleton (s : σ) (a : α) : run step s [a] = step s a := by
  cases h : step s a with
  | none => simp [run, h]
  | some r =>
      obtain ⟨s', es⟩ := r
      simp [run, h]

/-- Inversion of a step without events. -/
theorem silent_eq_some {o : Option σ} {s' : σ} {es : List ε}
    (h : (o.map fun s => (s, ([] : List ε))) = some (s', es)) : o = some s' ∧ es = [] := by
  obtain ⟨s, hs, heq⟩ := Option.map_eq_some_iff.mp h
  cases heq
  exact ⟨hs, rfl⟩

/-- A run along `as ++ bs` is a run along `as` followed by a run along `bs`. -/
theorem run_append (s : σ) (as bs : List α) :
    run step s (as ++ bs)
      = (run step s as).bind fun r =>
          (run step r.1 bs).map fun q => (q.1, r.2 ++ q.2) := by
  induction as generalizing s with
  | nil =>
      cases h : run step s bs with
      | none => simp [h]
      | some r => simp [h]
  | cons a as ih =>
      rw [List.cons_append, run, run]
      cases ha : step s a with
      | none => rfl
      | some r =>
          obtain ⟨s', es⟩ := r
          simp only [ih s']
          cases has : run step s' as with
          | none => rfl
          | some r' =>
              obtain ⟨s'', es'⟩ := r'
              cases hbs : run step s'' bs with
              | none => simp [hbs]
              | some r'' => simp [hbs]

/-- A run followed by another one. -/
theorem run_trans {s s₁ s₂ : σ} {as bs : List α} {h₁ h₂ : List ε}
    (hrun : run step s as = some (s₁, h₁)) (hrun' : run step s₁ bs = some (s₂, h₂)) :
    run step s (as ++ bs) = some (s₂, h₁ ++ h₂) := by
  rw [run_append, hrun, Option.bind_some, hrun', Option.map_some]

/-- Inversion of a run at a concatenation. -/
theorem run_append_eq_some {s s' : σ} {as bs : List α} {h : List ε}
    (hrun : run step s (as ++ bs) = some (s', h)) :
    ∃ s₁ h₁ h₂, run step s as = some (s₁, h₁) ∧ run step s₁ bs = some (s', h₂)
      ∧ h = h₁ ++ h₂ := by
  rw [run_append] at hrun
  obtain ⟨⟨s₁, h₁⟩, has, hbs⟩ := Option.bind_eq_some_iff.mp hrun
  obtain ⟨⟨s₂, h₂⟩, hbs', heq⟩ := Option.map_eq_some_iff.mp hbs
  cases heq
  exact ⟨s₁, h₁, h₂, has, hbs', rfl⟩

/-- Inversion of a run at its last step. -/
theorem run_snoc_eq_some {s s' : σ} {as : List α} {a : α} {h : List ε}
    (hrun : run step s (as ++ [a]) = some (s', h)) :
    ∃ s₁ h₁ es, run step s as = some (s₁, h₁) ∧ step s₁ a = some (s', es)
      ∧ h = h₁ ++ es := by
  obtain ⟨s₁, h₁, es, has, ha, heq⟩ := run_append_eq_some hrun
  exact ⟨s₁, h₁, es, has, by rwa [run_singleton] at ha, heq⟩

end

/-- The state of the run along `as` before its action with index `n`. Past the end it is
the last state. -/
def StateAt (step : σ → α → Option (σ × List ε)) (s₀ : σ) (as : List α) (n : Nat) (s : σ) :
    Prop :=
  ∃ h, run step s₀ (as.take n) = some (s, h)

section
variable {step : σ → α → Option (σ × List ε)} {s₀ : σ} {as : List α}

/-- A run has a state at every index. -/
theorem stateAt_exists {r : σ × List ε} (hrun : run step s₀ as = some r) (n : Nat) :
    ∃ s, StateAt step s₀ as n s := by
  obtain ⟨s, h⟩ := r
  rw [← List.take_append_drop n as] at hrun
  obtain ⟨s₁, h₁, -, htake, -, -⟩ := run_append_eq_some hrun
  exact ⟨s₁, h₁, htake⟩

/-- The state at an index is unique. -/
theorem StateAt.unique {n : Nat} {s s' : σ} (h : StateAt step s₀ as n s)
    (h' : StateAt step s₀ as n s') : s = s' := by
  obtain ⟨_, hs⟩ := h
  obtain ⟨_, hs'⟩ := h'
  rw [hs, Option.some.injEq, Prod.mk.injEq] at hs'
  exact hs'.1

/-- Consecutive states are related by the action between them. -/
theorem StateAt.step_eq {n : Nat} {a : α} {s s' : σ} (h : StateAt step s₀ as n s)
    (ha : as[n]? = some a) (h' : StateAt step s₀ as (n + 1) s') :
    ∃ es, step s a = some (s', es) := by
  obtain ⟨l, hs⟩ := h
  obtain ⟨l', hs'⟩ := h'
  rw [List.take_add_one, ha] at hs'
  obtain ⟨s₁, h₁, es, htake, hstep, -⟩ := run_snoc_eq_some hs'
  rw [hs, Option.some.injEq, Prod.mk.injEq] at htake
  exact ⟨es, htake.1 ▸ hstep⟩

end

/-- The states the run along `as` passes through, with the start and the end. -/
def Visits (step : σ → α → Option (σ × List ε)) (s : σ) (as : List α) (s' : σ) : Prop :=
  ∃ as' h, as' <+: as ∧ run step s as' = some (s', h)

section
variable {step : σ → α → Option (σ × List ε)}

/-- A run visits its states. -/
theorem StateAt.visits {s₀ s : σ} {as : List α} {n : Nat} (h : StateAt step s₀ as n s) :
    Visits step s₀ as s := by
  obtain ⟨l, hs⟩ := h
  exact ⟨as.take n, l, List.take_prefix n as, hs⟩

/-- A run has a state behind each of its steps. -/
theorem StateAt.next {s₀ s s' : σ} {as : List α} {n : Nat} {a : α} {es : List ε}
    (h : StateAt step s₀ as n s) (ha : as[n]? = some a) (hstep : step s a = some (s', es)) :
    StateAt step s₀ as (n + 1) s' := by
  obtain ⟨l, hs⟩ := h
  refine ⟨l ++ es, ?_⟩
  rw [List.take_add_one, ha]
  exact run_trans hs ((run_singleton s a).trans hstep)

/-- The invariant rule with a side condition on the steps. Every step whose state and action
satisfy `P` keeps `I`. Then `I` holds at the end of every run whose steps all satisfy `P`. -/
theorem run_induction_of_steps {I : σ → List ε → Prop} {P : σ → α → Prop} {s₀ : σ}
    (hinit : I s₀ [])
    (hstep : ∀ s h a s' es, I s h → P s a → step s a = some (s', es) → I s' (h ++ es)) :
    ∀ (as : List α), (∀ n s a, StateAt step s₀ as n s → as[n]? = some a → P s a) →
      ∀ s h, run step s₀ as = some (s, h) → I s h := by
  intro as
  induction as using List.reverseRecOn with
  | nil =>
      intro _ s h hrun
      simp only [run_nil, Option.some.injEq, Prod.mk.injEq] at hrun
      obtain ⟨rfl, rfl⟩ := hrun
      exact hinit
  | append_singleton as a ih =>
      intro hP s h hrun
      obtain ⟨s₁, h₁, es, has, ha, rfl⟩ := run_snoc_eq_some hrun
      -- The steps of the shorter run are steps of the whole one.
      have hI := ih (fun n s' b hs' hb => by
        have hn := (List.getElem?_eq_some_iff.mp hb).1
        obtain ⟨l, hs'⟩ := hs'
        refine hP n s' b ⟨l, ?_⟩ (by rw [List.getElem?_append_left hn, hb])
        rwa [List.take_append_of_le_length hn.le]) s₁ h₁ has
      have hlast : P s₁ a := by
        refine hP as.length s₁ a ⟨h₁, ?_⟩ (by simp)
        rwa [List.take_left]
      exact hstep s₁ h₁ a s es hI hlast ha

/-- The invariant rule. `I` holds of the start with no event. Every step between two
states that satisfy `P` keeps `I`. Then `I` holds at the end of every run whose visited
states all satisfy `P`. -/
theorem run_induction {I : σ → List ε → Prop} {P : σ → Prop} {s₀ : σ} (hinit : I s₀ [])
    (hstep : ∀ s h a s' es, I s h → P s → P s' → step s a = some (s', es) →
      I s' (h ++ es)) :
    ∀ (as : List α), (∀ s, Visits step s₀ as s → P s) →
      ∀ s h, run step s₀ as = some (s, h) → I s h := by
  intro as hP
  -- The condition on a step is the one on its two states.
  have hrule : ∀ s h a s' es, I s h → (P s ∧ ∀ s' es, step s a = some (s', es) → P s') →
      step s a = some (s', es) → I s' (h ++ es) :=
    fun s h a s' es hI hboth ha => hstep s h a s' es hI hboth.1 (hboth.2 s' es ha) ha
  refine run_induction_of_steps hinit hrule as fun n s a hs ha => ⟨hP s hs.visits, ?_⟩
  exact fun s' es hnext => hP s' (hs.next ha hnext).visits

/-- `P` holds of every step of the run along `as`. -/
def EveryStep (step : σ → α → Option (σ × List ε)) (P : σ → α → Prop) (s₀ : σ) (as : List α) :
    Prop :=
  ∀ n s a, StateAt step s₀ as n s → as[n]? = some a → P s a

/-- Every step of a run of no action. -/
theorem everyStep_nil {P : σ → α → Prop} {s₀ : σ} : EveryStep step P s₀ [] :=
  fun _ _ _ _ ha => by simp at ha

/-- Every step of a run is the first one or one of the rest. The rest starts in the state behind the
first step. -/
theorem everyStep_cons {P : σ → α → Prop} {s₀ s₁ : σ} {a : α} {as : List α} {es : List ε}
    (ha : P s₀ a) (hstep : step s₀ a = some (s₁, es)) (has : EveryStep step P s₁ as) :
    EveryStep step P s₀ (a :: as) := by
  intro n s b hs hb
  cases n with
  | zero =>
      obtain ⟨h, hs⟩ := hs
      simp only [List.take_zero, run_nil, Option.some.injEq, Prod.mk.injEq] at hs
      simp only [List.getElem?_cons_zero, Option.some.injEq] at hb
      exact hs.1 ▸ hb ▸ ha
  | succ n =>
      refine has n s b ?_ (by simpa using hb)
      obtain ⟨h, hs⟩ := hs
      rw [List.take_succ_cons, run, hstep] at hs
      cases hrest : run step s₁ (as.take n) with
      | none => simp [hrest] at hs
      | some r =>
          simp only [hrest, Option.some.injEq, Prod.mk.injEq] at hs
          exact ⟨r.2, by rw [hrest, ← hs.1]⟩

/-- Goes through the run along `as` and tests `P` at each step. -/
def checkSteps (step : σ → α → Option (σ × List ε)) (P : σ → α → Prop)
    [∀ s a, Decidable (P s a)] : σ → List α → Bool
  | _, [] => true
  | s, a :: as => decide (P s a) && ((step s a).all fun r => checkSteps step P r.1 as)

/-- A run that passes the test. The test walks along the run once, and it is decidable where the
property is. -/
theorem everyStep_of_check {P : σ → α → Prop} [∀ s a, Decidable (P s a)] {s₀ : σ} {as : List α}
    (hcheck : checkSteps step P s₀ as = true) : EveryStep step P s₀ as := by
  induction as generalizing s₀ with
  | nil => exact everyStep_nil
  | cons a as ih =>
      rw [checkSteps, Bool.and_eq_true, decide_eq_true_eq] at hcheck
      cases hstep : step s₀ a with
      | some r =>
          rw [hstep] at hcheck
          exact everyStep_cons hcheck.1 hstep (ih hcheck.2)
      | none =>
          -- The run stops here, so the step is the only one.
          intro n s b hs hb
          cases n with
          | zero =>
              obtain ⟨h, hs⟩ := hs
              cases hs
              cases hb
              exact hcheck.1
          | succ n =>
              obtain ⟨h, hs⟩ := hs
              rw [List.take_succ_cons, run, hstep] at hs
              cases hs

/-- The steps in front of an index. -/
theorem EveryStep.take {P : σ → α → Prop} {s₀ : σ} {as : List α} (h : EveryStep step P s₀ as)
    (n : Nat) : EveryStep step P s₀ (as.take n) := by
  intro k s a hs ha
  have hk : k < n := by
    have := (List.getElem?_eq_some_iff.mp ha).1
    rw [List.length_take] at this
    omega
  obtain ⟨l, hs⟩ := hs
  rw [List.take_take, min_eq_left hk.le] at hs
  rw [List.getElem?_take_of_lt hk] at ha
  exact h k s a ⟨l, hs⟩ ha

/-- A predicate that the steps from the index `n` on keep holds from there on. -/
theorem StateAt.preserves {s₀ : σ} {as : List α} {I : σ → Prop} {n m : Nat} (hnm : n ≤ m)
    {s s' : σ} (hs : StateAt step s₀ as n s) (hs' : StateAt step s₀ as m s') (hI : I s)
    (hstep : ∀ k t a t' es, StateAt step s₀ as k t → as[k]? = some a → step t a = some (t', es) →
      I t → I t') : I s' := by
  induction m, hnm using Nat.le_induction generalizing s' with
  | base => exact hs.unique hs' ▸ hI
  | succ m _ ih =>
      obtain ⟨h, hrun⟩ := hs'
      cases ha : as[m]? with
      | none =>
          rw [List.take_add_one, ha, Option.toList_none, List.append_nil] at hrun
          exact ih ⟨h, hrun⟩
      | some a =>
          rw [List.take_add_one, ha, Option.toList_some] at hrun
          obtain ⟨t, h₁, es, htake, hlast, -⟩ := run_snoc_eq_some hrun
          exact hstep m t a s' es ⟨h₁, htake⟩ ha hlast (ih ⟨h₁, htake⟩)

/-- The invariant rule for a predicate on states alone, without a side condition. -/
theorem run_invariant {I : σ → Prop} {s₀ : σ} (hinit : I s₀)
    (hstep : ∀ s a s' es, I s → step s a = some (s', es) → I s')
    {as : List α} {s : σ} {h : List ε} (hrun : run step s₀ as = some (s, h)) : I s :=
  run_induction (I := fun s _ => I s) (P := fun _ => True) hinit
    (fun s _ a s' es hI _ _ hs => hstep s a s' es hI hs) as (fun _ _ => trivial) s h hrun

end

end SysProg.Lib
