import Mathlib.Computability.Language

/-!
# `SysProg.Lib.PrefixMatch`: words that start with a word of a language

`HasPrefix L w` says that some prefix of `w` is in `L`. A backtracking matcher decides it along
the shape of the language: `hasPrefix_mul` for a sequence, and `hasPrefix_kstar_mul` for a
repetition in front of the rest. `HasInfix L w` is the same for the contiguous parts of `w`.
-/

set_option autoImplicit false

namespace SysProg.Lib

open Computability

variable {α : Type*} {A L : Language α} {w : List α}

/-- Some prefix of `w` is in `L`. -/
def HasPrefix (L : Language α) (w : List α) : Prop := ∃ v, v <+: w ∧ v ∈ L

/-- Some contiguous part of `w` is in `L`. -/
def HasInfix (L : Language α) (w : List α) : Prop := ∃ v, v <:+: w ∧ v ∈ L

/-- The empty word is a prefix. -/
theorem hasPrefix_one : HasPrefix (1 : Language α) w := ⟨[], List.nil_prefix, Language.nil_mem_one⟩

/-- A prefix in a sum is one in either part. -/
theorem hasPrefix_add : HasPrefix (A + L) w ↔ HasPrefix A w ∨ HasPrefix L w := by
  constructor
  · rintro ⟨v, hv, hmem | hmem⟩
    · exact Or.inl ⟨v, hv, hmem⟩
    · exact Or.inr ⟨v, hv, hmem⟩
  · rintro (⟨v, hv, hmem⟩ | ⟨v, hv, hmem⟩)
    · exact ⟨v, hv, Or.inl hmem⟩
    · exact ⟨v, hv, Or.inr hmem⟩

/-- A sequence matches at the front when its first part does, and the second part behind it. -/
theorem hasPrefix_mul :
    HasPrefix (A * L) w ↔ ∃ a rest, w = a ++ rest ∧ a ∈ A ∧ HasPrefix L rest := by
  constructor
  · intro ⟨v, ⟨t, ht⟩, hmem⟩
    obtain ⟨a, ha, b, hb, rfl⟩ := Language.mem_mul.mp hmem
    refine ⟨a, b ++ t, ?_, ha, b, List.prefix_append b t, hb⟩
    rw [← ht, List.append_assoc]
  · intro ⟨a, rest, hw, ha, b, ⟨t, ht⟩, hb⟩
    refine ⟨a ++ b, ⟨t, ?_⟩, Language.append_mem_mul ha hb⟩
    rw [hw, ← ht, List.append_assoc]

/-- A repetition in front of the rest: no round at all, or one round and the same again. -/
theorem hasPrefix_kstar_mul :
    HasPrefix (A∗ * L) w ↔
      HasPrefix L w ∨ ∃ a rest, w = a ++ rest ∧ a ∈ A ∧ HasPrefix (A∗ * L) rest := by
  have hunfold : A∗ * L = L + A * (A∗ * L) := by
    conv_lhs => rw [← Language.one_add_self_mul_kstar_eq_kstar A]
    rw [add_mul, one_mul, mul_assoc]
  conv_lhs => rw [hunfold]
  rw [hasPrefix_add, hasPrefix_mul]

/-- When all words of `A` have the same length, there is one way to split. -/
theorem hasPrefix_mul_of_length {n : Nat} (hA : ∀ a ∈ A, a.length = n) :
    HasPrefix (A * L) w ↔ w.take n ∈ A ∧ HasPrefix L (w.drop n) := by
  rw [hasPrefix_mul]
  constructor
  · intro ⟨a, rest, hw, ha, hrest⟩
    have hlen := hA a ha
    rw [hw, List.take_left' hlen, List.drop_left' hlen]
    exact ⟨ha, hrest⟩
  · intro ⟨ha, hrest⟩
    exact ⟨w.take n, w.drop n, (List.take_append_drop n w).symm, ha, hrest⟩

/-- A prefix in a starred part and the rest, when all words of the part have the same length. Either
the star is empty, or the first word has this length. The matcher makes the same choice. -/
theorem hasPrefix_kstar_mul_of_length {n : Nat} (hA : ∀ a ∈ A, a.length = n) :
    HasPrefix (A∗ * L) w ↔
      HasPrefix L w ∨ w.take n ∈ A ∧ HasPrefix (A∗ * L) (w.drop n) := by
  rw [hasPrefix_kstar_mul, ← hasPrefix_mul, hasPrefix_mul_of_length hA]

/-- A part matches when it does so at the front of some suffix. -/
theorem hasInfix_iff : HasInfix L w ↔ ∃ u rest, w = u ++ rest ∧ HasPrefix L rest := by
  constructor
  · intro ⟨v, ⟨u, t, ht⟩, hv⟩
    exact ⟨u, v ++ t, by rw [← ht, List.append_assoc], v, List.prefix_append v t, hv⟩
  · intro ⟨u, rest, hw, v, ⟨t, ht⟩, hv⟩
    exact ⟨v, ⟨u, t, by rw [hw, ← ht, List.append_assoc]⟩, hv⟩

end SysProg.Lib
