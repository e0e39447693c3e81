import SysProg.Lib.Run

/-!
# `SysProg.Lib.Simulation`: two systems that step together

`Lockstep R step step'` says that the steps of two systems match from related states: both are
enabled or neither is, they emit the same events, and they end in related states. Then the runs
match, and what is seen of related states is the same at their ends.
-/

set_option autoImplicit false

namespace SysProg.Lib

variable {σ τ α ε β : Type*}

/-- The steps of two systems match from related states. -/
def Lockstep (R : σ → τ → Prop) (step : σ → α → Option (σ × List ε))
    (step' : τ → α → Option (τ × List ε)) : Prop :=
  ∀ s t a, R s t → (step s a = none ∧ step' t a = none) ∨
    ∃ s' t' es, step s a = some (s', es) ∧ step' t a = some (t', es) ∧ R s' t'

section
variable {R : σ → τ → Prop} {step : σ → α → Option (σ × List ε)}
  {step' : τ → α → Option (τ × List ε)} {s : σ} {t : τ}

/-- The runs of two systems in lockstep match. -/
theorem Lockstep.run (h : Lockstep R step step') (hst : R s t) (as : List α) :
    (run step s as = none ∧ SysProg.Lib.run step' t as = none) ∨
      ∃ s' t' es, SysProg.Lib.run step s as = some (s', es) ∧
        SysProg.Lib.run step' t as = some (t', es) ∧ R s' t' := by
  induction as generalizing s t with
  | nil => exact Or.inr ⟨s, t, [], rfl, rfl, hst⟩
  | cons a as ih =>
      rw [SysProg.Lib.run, SysProg.Lib.run]
      rcases h s t a hst with ⟨hs, ht⟩ | ⟨s₁, t₁, es, hs, ht, hst₁⟩
      · exact Or.inl ⟨by rw [hs], by rw [ht]⟩
      · rw [hs, ht]
        rcases ih hst₁ with ⟨hs', ht'⟩ | ⟨s', t', es', hs', ht', hst'⟩
        · exact Or.inl ⟨by simp only [hs'], by simp only [ht']⟩
        · exact Or.inr ⟨s', t', es ++ es', by simp only [hs'], by simp only [ht'], hst'⟩

/-- What related states have in common is the same at the ends of the two runs. -/
theorem Lockstep.map_run (h : Lockstep R step step') (hst : R s t) {f : σ → β} {g : τ → β}
    (hfg : ∀ s t, R s t → f s = g t) (as : List α) :
    (SysProg.Lib.run step s as).map (fun r => (f r.1, r.2))
      = (SysProg.Lib.run step' t as).map fun r => (g r.1, r.2) := by
  rcases h.run hst as with ⟨hs, ht⟩ | ⟨s', t', es, hs, ht, hst'⟩
  · rw [hs, ht]
    rfl
  · rw [hs, ht, Option.map_some, Option.map_some, hfg s' t' hst']

/-- A run of the first system has one of the second. -/
theorem Lockstep.run_some (h : Lockstep R step step') (hst : R s t) {as : List α} {s' : σ}
    {es : List ε} (hrun : SysProg.Lib.run step s as = some (s', es)) :
    ∃ t', SysProg.Lib.run step' t as = some (t', es) ∧ R s' t' := by
  rcases h.run hst as with ⟨hs, -⟩ | ⟨s'', t', es', hs, ht, hst'⟩
  · rw [hs] at hrun
    cases hrun
  · rw [hs, Option.some.injEq, Prod.mk.injEq] at hrun
    obtain ⟨rfl, rfl⟩ := hrun
    exact ⟨t', ht, hst'⟩

end

end SysProg.Lib
