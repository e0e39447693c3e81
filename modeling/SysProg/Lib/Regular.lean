import Mathlib.Computability.Language

/-!
# `SysProg.Lib.Regular`: the first letter of a word

Regular expressions as languages, and what membership in a product says about the first letter of
a word. An automaton is compared with an expression letter by letter by these rules.
-/

set_option autoImplicit false

namespace SysProg.Lib

open Computability

universe u

variable {α : Type u} {P : α → Prop} {l m : Language α} {c : α} {w : List α}

/-- The words of one letter with the property `P`. -/
def letter (P : α → Prop) : Language α := {w | ∃ c, P c ∧ w = [c]}

/-- One word or more. -/
def several (l : Language α) : Language α := l * l∗

/-- A letter in front of a language excludes the empty word. -/
theorem nil_notMem_letter_mul : [] ∉ letter P * l := by
  intro h
  obtain ⟨u, ⟨c, -, rfl⟩, v, -, huv⟩ := Language.mem_mul.mp h
  exact List.cons_ne_nil c v huv

/-- A letter in front of a language takes the first letter of the word, and the rest belongs to the
language. -/
theorem cons_mem_letter_mul : c :: w ∈ letter P * l ↔ P c ∧ w ∈ l := by
  constructor
  · intro h
    obtain ⟨u, ⟨d, hd, rfl⟩, v, hv, huv⟩ := Language.mem_mul.mp h
    obtain ⟨rfl, rfl⟩ := List.cons.inj huv
    exact ⟨hd, hv⟩
  · intro ⟨hc, hw⟩
    exact Language.mem_mul.mpr ⟨[c], ⟨c, hc, rfl⟩, w, hw, rfl⟩

/-- Something that may be left out. -/
theorem mem_one_add_mul : w ∈ (1 + l) * m ↔ w ∈ l * m ∨ w ∈ m := by
  rw [add_mul, one_mul, Language.mem_add, or_comm]

/-- A round of a repetition, or none. -/
theorem mem_kstar_mul : w ∈ l∗ * m ↔ w ∈ l * (l∗ * m) ∨ w ∈ m := by
  nth_rewrite 1 [← Language.one_add_self_mul_kstar_eq_kstar]
  rw [mem_one_add_mul, mul_assoc]

/-- A star is empty, or a word and the star again. -/
theorem mem_kstar_iff : w ∈ l∗ ↔ w ∈ l * l∗ ∨ w = [] := by
  nth_rewrite 1 [← Language.one_add_self_mul_kstar_eq_kstar]
  rw [Language.mem_add, Language.mem_one, or_comm]

/-- A round behind a repetition. -/
theorem append_mem_kstar {v : List α} (hw : w ∈ l∗) (hv : v ∈ l) : w ++ v ∈ l∗ := by
  have hround : l∗ * l ≤ l∗ := kstar_mul_le_kstar
  exact hround (Language.append_mem_mul hw hv)

end SysProg.Lib
