import Mathlib.Data.List.TakeWhile

/-!
# `SysProg.Lib.Tokens`: the maximal runs between separators

`tokens sep l` lists the maximal runs of non-separators of `l`, in order. `tokens_eq_nil` and
`tokens_eq_cons` read it off the front of the list: skip the separators, and what follows up
to the next separator is the first token.
-/

set_option autoImplicit false

namespace SysProg.Lib

variable {α : Type*} {sep : α → Bool}

/-- The maximal runs of elements that are not separators. -/
def tokens (sep : α → Bool) (l : List α) : List (List α) :=
  (l.splitOnP sep).filter fun t => !t.isEmpty

@[simp] theorem tokens_nil : tokens sep ([] : List α) = [] := by simp [tokens]

/-- A leading separator does not matter. -/
theorem tokens_cons_sep {c : α} (hc : sep c = true) (l : List α) :
    tokens sep (c :: l) = tokens sep l := by
  simp [tokens, List.splitOnP_cons_eq_if_modifyHead, hc]

/-- Leading separators do not matter. -/
theorem tokens_dropWhile (l : List α) : tokens sep (l.dropWhile sep) = tokens sep l := by
  induction l with
  | nil => rfl
  | cons c l ih =>
      by_cases hc : sep c = true
      · rw [List.dropWhile_cons_of_pos hc, ih, tokens_cons_sep hc]
      · rw [List.dropWhile_cons_of_neg hc]

/-- A list of separators has no token. -/
theorem tokens_eq_nil {l : List α} (h : l.dropWhile sep = []) : tokens sep l = [] := by
  rw [← tokens_dropWhile, h, tokens_nil]

/-- The first token ends at the next separator, and the others are those of what is behind it. -/
theorem tokens_takeWhile {l : List α} (h : l.takeWhile (fun c => !sep c) ≠ []) :
    tokens sep l
      = l.takeWhile (fun c => !sep c) :: tokens sep (l.dropWhile fun c => !sep c) := by
  have hword : ∀ c ∈ l.takeWhile (fun c => !sep c), sep c = false := by
    intro c hc
    simpa using List.mem_takeWhile_imp hc
  have hne : (!(l.takeWhile fun c => !sep c).isEmpty) = true := by simpa using h
  have hsplit : l = l.takeWhile (fun c => !sep c) ++ l.dropWhile (fun c => !sep c) :=
    List.takeWhile_append_dropWhile.symm
  cases hrest : l.dropWhile fun c => !sep c with
  | nil =>
      rw [hrest, List.append_nil] at hsplit
      have hone : tokens sep (l.takeWhile fun c => !sep c) = [l.takeWhile fun c => !sep c] := by
        rw [tokens, List.splitOnP_eq_singleton hword]
        simp [hne]
      rw [← hsplit] at hone ⊢
      rw [hone, tokens_nil]
  | cons c rest =>
      have hc : sep c = true := by
        have hhead := List.head_dropWhile_not (fun c => !sep c) (l := l) (by simp [hrest])
        simpa [hrest] using hhead
      rw [hrest] at hsplit
      have hmore : tokens sep (l.takeWhile (fun c => !sep c) ++ c :: rest)
          = l.takeWhile (fun c => !sep c) :: tokens sep rest := by
        rw [tokens, List.splitOnP_append_cons_of_forall_mem hword c hc]
        simp [hne, tokens]
      rw [← hsplit] at hmore
      rw [hmore, tokens_cons_sep hc]

/-- The first token of a list that does not consist of separators only. -/
theorem tokens_eq_cons {l : List α} (h : l.dropWhile sep ≠ []) :
    tokens sep l = (l.dropWhile sep).takeWhile (fun c => !sep c) ::
      tokens sep ((l.dropWhile sep).dropWhile fun c => !sep c) := by
  rw [← tokens_dropWhile]
  refine tokens_takeWhile ?_
  cases hv : l.dropWhile sep with
  | nil => exact absurd hv h
  | cons c rest =>
      have hc : ¬ sep c = true := by
        have hhead := List.head_dropWhile_not sep (l := l) (by simp [hv])
        simpa [hv] using hhead
      rw [List.takeWhile_cons_of_pos (by simpa using hc)]
      exact List.cons_ne_nil c _

/-- The pieces between separators have elements of the list that are no separators. The split drops
the separators and nothing else. -/
theorem mem_splitOnP_imp {l t : List α} (h : t ∈ l.splitOnP sep) :
    ∀ c ∈ t, sep c = false ∧ c ∈ l := by
  induction l generalizing t with
  | nil => simp_all
  | cons d l ih =>
      have hkeep : ∀ t' ∈ l.splitOnP sep, ∀ c ∈ t', sep c = false ∧ c ∈ d :: l :=
        fun t' ht' c hc => ⟨(ih ht' c hc).1, List.mem_cons_of_mem d (ih ht' c hc).2⟩
      rw [List.splitOnP_cons_eq_if_modifyHead] at h
      split at h
      · rcases List.mem_cons.mp h with rfl | h
        · simp
        · exact hkeep t h
      · -- The first element goes in front of the first piece.
        rename_i hd
        cases hsplit : l.splitOnP sep with
        | nil => exact absurd hsplit (List.splitOnP_ne_nil sep l)
        | cons t' ts =>
            rw [hsplit, List.modifyHead_cons] at h
            rw [hsplit] at hkeep
            rcases List.mem_cons.mp h with rfl | h
            · intro c hc
              rcases List.mem_cons.mp hc with rfl | hc
              · exact ⟨by simpa using hd, List.mem_cons_self⟩
              · exact hkeep t' List.mem_cons_self c hc
            · exact hkeep t (List.mem_cons_of_mem t' h)

/-- A token has elements of the list that are no separators. -/
theorem mem_tokens_imp {l t : List α} (h : t ∈ tokens sep l) :
    ∀ c ∈ t, sep c = false ∧ c ∈ l :=
  mem_splitOnP_imp (List.mem_filter.mp h).1

end SysProg.Lib
