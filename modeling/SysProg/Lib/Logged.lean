import Mathlib.Logic.Basic

/-!
# `SysProg.Lib.Logged`: programs that may fail and write a log

`Logs m r P` says that the program `m` answers `r`, and that it writes only entries with the
property `P`. The rules follow the shape of the program.
-/

set_option autoImplicit false

namespace SysProg.Lib

universe u

/-- A program that may fail. It adds entries to a log, which stay when it fails. -/
abbrev Logged (ε α β : Type u) : Type u := ExceptT ε (StateM (List α)) β

/-- The program answers `r`, and it writes only entries with the property `P`. -/
def Logs {ε α β : Type u} (m : Logged ε α β) (r : Except ε β) (P : α → Prop) : Prop :=
  ∀ log, (m.run.run log).1 = r ∧ ∀ a ∈ (m.run.run log).2, a ∈ log ∨ P a

namespace Logs

variable {ε α β γ : Type u} {P : α → Prop} {m m' : Logged ε α β} {r r' : Except ε β} {a : α}

/-- A result without an effect logs nothing. -/
theorem pure (b : β) : Logs (Pure.pure b : Logged ε α β) (Pure.pure b) P :=
  fun _ => ⟨rfl, fun _ ha => Or.inl ha⟩

/-- An error logs nothing, and the rest of the program is not reached. -/
theorem throw (e : ε) : Logs (MonadExcept.throw e : Logged ε α β) (.error e) P :=
  fun _ => ⟨rfl, fun _ ha => Or.inl ha⟩

/-- A program without a log. -/
theorem lift (r : Except ε β) : Logs (liftM r : Logged ε α β) r P :=
  fun _ => ⟨rfl, fun _ ha => Or.inl ha⟩

/-- An entry, and then a program. -/
theorem write (ha : P a) {f : PUnit → Logged ε α β} (hf : Logs (f ⟨⟩) r P) :
    Logs (modify (a :: ·) >>= f) r P := by
  intro log
  obtain ⟨hr, hlog⟩ := hf (a :: log)
  refine ⟨hr, fun b hb => ?_⟩
  cases hlog b hb with
  | inl hb =>
      cases hb with
      | head => exact Or.inr ha
      | tail _ hb => exact Or.inl hb
  | inr hb => exact Or.inr hb

/-- One program and then another one. The second one runs when the first one answers. -/
theorem bind {f : β → Logged ε α γ} {g : β → Except ε γ} (hm : Logs m r P)
    (hf : ∀ b, r = .ok b → Logs (f b) (g b) P) : Logs (m >>= f) (r >>= g) P := by
  intro log
  obtain ⟨hr, hlog⟩ := hm log
  have hrun : (m >>= f).run.run log
      = (ExceptT.bindCont f (m.run.run log).1).run (m.run.run log).2 := rfl
  rw [hrun, hr]
  cases r with
  | error e => exact ⟨rfl, hlog⟩
  | ok b =>
      obtain ⟨hfr, hflog⟩ := hf b rfl (m.run.run log).2
      refine ⟨hfr, fun a ha => ?_⟩
      cases hflog a ha with
      | inl ha => exact hlog a ha
      | inr ha => exact Or.inr ha

/-- A branch logs what the side that is taken logs. The condition may be used on both sides. -/
theorem ite {p : Prop} [Decidable p] (h : p → Logs m r P) (h' : ¬p → Logs m' r' P) :
    Logs (if p then m else m') (if p then r else r') P := by
  by_cases hp : p
  · rw [if_pos hp, if_pos hp]
    exact h hp
  · rw [if_neg hp, if_neg hp]
    exact h' hp

end Logs

end SysProg.Lib
