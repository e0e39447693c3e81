import SysProg.Proofs.Dirtree.Grammar

/-!
# `SysProg.Proofs.Dirtree.Validate`: the accepted patterns, and what the filter does with them

* `reads_of_validatePattern`: a pattern that `validate_pattern` accepts is a sequence of pieces.
* `filter_language`: the filter implements the pattern language.
-/

set_option autoImplicit false

namespace SysProg.Dirtree

open SysProg.Lib Computability

variable {pat : List UInt8}

/-- An accepted pattern reads as a sequence of pieces: those of its elements. -/
theorem reads_of_validatePattern (h0 : 0 ∉ pat) (h : validatePattern pat = true) :
    ∃ ps, Reads pat ps := by
  have helements : pat ∈ element∗ := mem_kstar_iff.mpr (Or.inl (validatePattern_iff.mp h))
  obtain ⟨L, rfl, hL⟩ := Language.mem_kstar.mp helements
  obtain ⟨ps, hps, hrender⟩ := exists_pieces hL h0
  exact ⟨ps, hps, hrender⟩

/-- The filter implements the pattern language. An accepted pattern reads as a sequence of pieces,
and for each such reading and each name, `submatch` returns from every suffix of the name, at every
depth of recursion that is large enough, without a read behind an end. `is_match` returns, and it
tells whether some part of the name is in the language of the pattern. -/
theorem filter_language (pat : List UInt8) (hpat : 0 ∉ pat)
    (haccepted : validatePattern pat = true) :
    (∃ ps, Reads pat ps) ∧ ∀ ps, Reads pat ps → ∀ name : List UInt8, 0 ∉ name →
      (∀ u w, name = u ++ w → ∃ b, ∀ fuel, matchFuel name pat ≤ fuel →
        submatch name pat fuel u.length 0 = .ok b) ∧
      ∃ b, isMatch name (some pat) = .ok b ∧ (b = true ↔ HasInfix (lang ps) name) := by
  refine ⟨reads_of_validatePattern hpat haccepted, ?_⟩
  intro ps hreads name hname
  obtain ⟨hps, rfl⟩ := hreads
  refine ⟨?_, isMatch_spec hname hps⟩
  intro u w huw
  have hw : 0 ∉ w := fun h0 => hname (by rw [huw]; exact List.mem_append_right u h0)
  -- The answer does not depend on the depth, since it is the same property of the rest.
  obtain ⟨b, hb⟩ : ∃ b : Bool, b = true ↔ HasPrefix (lang ps) w := by
    by_cases h : HasPrefix (lang ps) w
    · exact ⟨true, by simp [h]⟩
    · exact ⟨false, by simp [h]⟩
  refine ⟨b, fun fuel hfuel => ?_⟩
  have hlen : (render ps).length + w.length < fuel := by
    rw [matchFuel, huw, List.length_append] at hfuel
    omega
  obtain ⟨b', hb', hiff⟩ := submatch_spec hw hps hlen u []
  have heq : b' = b := by rw [Bool.eq_iff_iff, hiff, hb]
  rw [huw, ← heq]
  exact hb'

/-- The pattern `ab?(de)*f` and the name `xabcdedefy`. -/
theorem filter_language_groupRepeated :
    HasInfix (lang [⟨.char 97, false⟩, ⟨.char 98, false⟩, ⟨.char question, false⟩,
        ⟨.group [100, 101], true⟩, ⟨.char 102, false⟩])
      [120, 97, 98, 99, 100, 101, 100, 101, 102, 121] := by
  have hreads : Reads [97, 98, 63, 40, 100, 101, 41, 42, 102]
      [⟨.char 97, false⟩, ⟨.char 98, false⟩, ⟨.char question, false⟩,
        ⟨.group [100, 101], true⟩, ⟨.char 102, false⟩] :=
    ⟨by simp [Atom.WellFormed, Inner, question, star, lparen, rparen], rfl⟩
  obtain ⟨-, hall⟩ :=
    filter_language [97, 98, 63, 40, 100, 101, 41, 42, 102] (by decide) (by decide)
  obtain ⟨-, b, hb, hiff⟩ := hall _ hreads [120, 97, 98, 99, 100, 101, 100, 101, 102, 121]
    (by decide)
  have hrun : isMatch [120, 97, 98, 99, 100, 101, 100, 101, 102, 121]
      (some [97, 98, 63, 40, 100, 101, 41, 42, 102]) = .ok true := by rfl
  rw [hrun] at hb
  exact hiff.mp (Except.ok.inj hb).symm

end SysProg.Dirtree
