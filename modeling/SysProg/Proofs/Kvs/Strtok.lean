import SysProg.Kvs.Reference

/-!
# `SysProg.Proofs.Kvs.Strtok`: `strtok_r` yields the tokens of the text

`cstr` reads a string from a buffer. The lemmas `cstr_*` say how it changes with the offset
and under a write. With them `strtokR` is described by the strings alone:

* `strtokR_nil`: a text without a token gives `NULL` and changes nothing,
* `strtokR_cons`: the token is the first of the text, and the text at `saveptr` has the
  others,
* `cstr_strtokR`: the strings before `saveptr` stay as they are.
-/

set_option autoImplicit false

namespace SysProg.Kvs

open SysProg.Lib

/-! ### Strings in a buffer -/

/-- A string has no NUL byte. -/
theorem zero_notMem_cstr (buf : List UInt8) (p : Nat) : (0 : UInt8) ∉ cstr buf p := by
  intro h
  simpa using List.mem_takeWhile_imp h

/-- A byte reads as NUL exactly when the string there is empty. -/
theorem getD_eq_zero_iff (buf : List UInt8) (p : Nat) : buf.getD p 0 = 0 ↔ cstr buf p = [] := by
  unfold cstr
  rw [List.getD_eq_getElem?_getD]
  cases hp : buf[p]? with
  | none =>
      rw [List.drop_eq_nil_of_le (List.getElem?_eq_none_iff.mp hp)]
      simp
  | some c =>
      obtain ⟨hlt, hc⟩ := List.getElem?_eq_some_iff.mp hp
      rw [List.drop_eq_getElem_cons hlt, hc, List.takeWhile_cons]
      by_cases h0 : c = 0
      · simp [h0]
      · simp [h0]

/-- Inside a string, the string at a later offset is its tail. Both end at the same terminator. -/
theorem cstr_add {buf : List UInt8} {p k : Nat} (hk : k ≤ (cstr buf p).length) :
    cstr buf (p + k) = (cstr buf p).drop k := by
  unfold cstr at hk ⊢
  -- Induction on `k`, on the buffer from `p` on.
  rw [← List.drop_drop]
  generalize buf.drop p = l at hk ⊢
  induction k generalizing l with
  | zero => rfl
  | succ k ih =>
      cases l with
      | nil => simp at hk
      | cons c l =>
          rw [List.takeWhile_cons] at hk ⊢
          split at hk
          · rename_i hc
            rw [if_pos hc, List.drop_succ_cons, List.drop_succ_cons]
            exact ih l (by simpa using hk)
          · simp at hk

/-- A write before a string does not matter. -/
theorem cstr_set_lt {buf : List UInt8} {p e : Nat} {c : UInt8} (h : e < p) :
    cstr (buf.set e c) p = cstr buf p := by
  unfold cstr
  rw [List.drop_set_of_lt h]

/-- A write behind the terminator of a string does not matter. The string ends in front of it. -/
theorem cstr_set_gt {buf : List UInt8} {p e : Nat} {c : UInt8}
    (h : p + (cstr buf p).length < e) : cstr (buf.set e c) p = cstr buf p := by
  unfold cstr at h ⊢
  rw [List.drop_set, if_neg (by omega)]
  -- Induction on the buffer from `p` on, in which the write is at `k`.
  obtain ⟨k, rfl⟩ : ∃ k, e = p + k := ⟨e - p, by omega⟩
  rw [Nat.add_sub_cancel_left]
  replace h : ((buf.drop p).takeWhile fun c => decide (c ≠ 0)).length < k := by omega
  generalize buf.drop p = l at h ⊢
  induction l generalizing k with
  | nil => rfl
  | cons d l ih =>
      cases k with
      | zero => omega
      | succ k =>
          rw [List.set_cons_succ, List.takeWhile_cons, List.takeWhile_cons]
          rw [List.takeWhile_cons] at h
          split at h
          · rename_i hd
            rw [if_pos hd, if_pos hd, ih k (by simpa using h)]
          · rename_i hd
            rw [if_neg hd, if_neg hd]

/-- A terminator inside a string cuts it. This is how `strtok_r` ends a token. -/
theorem cstr_set_zero {buf : List UInt8} {p k : Nat} (h : k < (cstr buf p).length) :
    cstr (buf.set (p + k) 0) p = (cstr buf p).take k := by
  unfold cstr at h ⊢
  rw [List.drop_set, if_neg (by omega), Nat.add_sub_cancel_left]
  generalize buf.drop p = l at h ⊢
  induction l generalizing k with
  | nil => simp at h
  | cons d l ih =>
      rw [List.takeWhile_cons] at h ⊢
      split at h
      · rename_i hd
        cases k with
        | zero => simp
        | succ k =>
            have ih' := ih (k := k) (by simpa using h)
            rw [List.set_cons_succ, List.takeWhile_cons, if_pos hd, if_pos hd,
              List.take_succ_cons, ih']
      · simp at h

/-! ### `strtok_r` -/

/-- `strspn` counts the leading spaces of the string. -/
theorem strspn_eq (buf : List UInt8) (p : Nat) :
    strspn buf p = ((cstr buf p).takeWhile isSpace).length := by
  -- `strspn` stops at NUL, which is no space, so it stays in the string.
  unfold strspn cstr
  rw [List.takeWhile_takeWhile]
  congr 2
  funext c
  by_cases hc : c = space
  · simp [isSpace, hc, space]
  · simp [isSpace, hc]

/-- `strcspn` counts the bytes up to the next space of the string. -/
theorem strcspn_eq (buf : List UInt8) (p : Nat) :
    strcspn buf p = ((cstr buf p).takeWhile fun c => !isSpace c).length := by
  unfold strcspn cstr
  rw [List.takeWhile_takeWhile]
  congr 2
  funext c
  simp [isSpace]

/-- Dropping as many elements as `takeWhile` takes. -/
theorem drop_length_takeWhile (p : UInt8 → Bool) (l : List UInt8) :
    l.drop (l.takeWhile p).length = l.dropWhile p := by
  induction l with
  | nil => rfl
  | cons c l ih =>
      by_cases hc : p c = true
      · rw [List.takeWhile_cons_of_pos hc, List.dropWhile_cons_of_pos hc]
        exact ih
      · rw [List.takeWhile_cons_of_neg hc, List.dropWhile_cons_of_neg hc]
        rfl

/-- The text behind the leading spaces. -/
theorem cstr_strspn (buf : List UInt8) (s : Nat) :
    cstr buf (s + strspn buf s) = (cstr buf s).dropWhile isSpace := by
  rw [strspn_eq, cstr_add (List.takeWhile_prefix _).length_le, drop_length_takeWhile]

/-- The text behind the first word. -/
theorem cstr_strcspn (buf : List UInt8) (s : Nat) :
    cstr buf (s + strcspn buf s) = (cstr buf s).dropWhile fun c => !isSpace c := by
  rw [strcspn_eq, cstr_add (List.takeWhile_prefix _).length_le, drop_length_takeWhile]

/-- A text without a token gives `NULL`, and the buffer stays as it is. -/
theorem strtokR_nil {buf : List UInt8} {s : Nat} (h : tokens isSpace (cstr buf s) = []) :
    (strtokR buf s).buffer = buf ∧ (strtokR buf s).token = none ∧
      tokens isSpace (cstr buf (strtokR buf s).save) = [] := by
  have hnil : (cstr buf s).dropWhile isSpace = [] := by
    by_contra hne
    rw [tokens_eq_cons hne] at h
    cases h
  have hend : cstr buf (s + strspn buf s) = [] := by rw [cstr_strspn, hnil]
  have hzero := (getD_eq_zero_iff buf (s + strspn buf s)).mpr hend
  simp only [strtokR, hzero, if_true]
  refine ⟨trivial, trivial, ?_⟩
  rw [hend, tokens_nil]

/-- Otherwise the token is the first of the text, and the others are left at `saveptr`. -/
theorem strtokR_cons {buf : List UInt8} {s : Nat} {x : List UInt8} {ts : List (List UInt8)}
    (h : tokens isSpace (cstr buf s) = x :: ts) :
    ∃ p, (strtokR buf s).token = some p ∧ s ≤ p ∧ cstr (strtokR buf s).buffer p = x ∧
      p + x.length ≤ (strtokR buf s).save ∧
      tokens isSpace (cstr (strtokR buf s).buffer (strtokR buf s).save) = ts := by
  have hne : (cstr buf s).dropWhile isSpace ≠ [] := by
    intro hnil
    rw [tokens_eq_nil hnil] at h
    cases h
  rw [tokens_eq_cons hne, List.cons.injEq, ← cstr_strspn] at h
  rw [← cstr_strspn] at hne
  -- The token starts at `p`, and `x.length` bytes further it stops.
  obtain ⟨p, hp⟩ : ∃ p, p = s + strspn buf s := ⟨_, rfl⟩
  rw [← hp] at h hne
  have hstart : ¬ buf.getD p 0 = 0 := fun h0 => hne ((getD_eq_zero_iff buf p).mp h0)
  have hlen : x.length = strcspn buf p := by rw [strcspn_eq, h.1]
  have hrest := cstr_strcspn buf p
  rw [← hlen] at hrest
  have hsplit : cstr buf p = x ++ cstr buf (p + x.length) := by
    rw [hrest, ← h.1, List.takeWhile_append_dropWhile]
  by_cases hstop : buf.getD (p + x.length) 0 = 0
  · -- The token is the last one and ends at the terminator.
    have hnil := (getD_eq_zero_iff buf (p + x.length)).mp hstop
    have hstrtok : strtokR buf s = ⟨buf, some p, p + x.length⟩ := by
      simp only [strtokR, ← hp, hstart, if_false, ← hlen, hstop, if_true]
    rw [hstrtok]
    refine ⟨p, rfl, by omega, ?_, Nat.le_refl _, ?_⟩
    · rw [hsplit, hnil, List.append_nil]
    · show tokens isSpace (cstr buf (p + x.length)) = ts
      rw [← h.2, hrest]
  -- A separator stops the token, and `strtok_r` puts a terminator in its place.
  · have hne' : cstr buf (p + x.length) ≠ [] :=
      fun hnil => hstop ((getD_eq_zero_iff buf (p + x.length)).mpr hnil)
    have hstrtok : strtokR buf s = ⟨buf.set (p + x.length) 0, some p, p + x.length + 1⟩ := by
      simp only [strtokR, ← hp, hstart, if_false, ← hlen, hstop]
    have hlonger : x.length < (cstr buf p).length := by
      rw [hsplit, List.length_append]
      have := List.length_pos_iff.mpr hne'
      omega
    rw [hstrtok]
    refine ⟨p, rfl, by omega, ?_, by show p + x.length ≤ p + x.length + 1; omega, ?_⟩
    · show cstr (buf.set (p + x.length) 0) p = x
      rw [cstr_set_zero hlonger, hsplit, List.take_left']
      rfl
    · -- The byte that was overwritten is a separator.
      show tokens isSpace (cstr (buf.set (p + x.length) 0) (p + x.length + 1)) = ts
      rw [cstr_set_lt (by omega), ← h.2, ← hrest,
        cstr_add (List.length_pos_iff.mpr hne'), List.drop_one]
      have hhead := List.head_dropWhile_not (fun c => !isSpace c) (l := cstr buf p)
        (by rw [← hrest]; exact hne')
      obtain ⟨c, r, hcr⟩ := List.exists_cons_of_ne_nil hne'
      have hc : isSpace c = true := by
        simp only [← hrest, hcr, List.head_cons] at hhead
        simpa using hhead
      rw [hcr, List.tail_cons, tokens_cons_sep hc]

/-- Where `strtok_r` finds a token, the token has a byte. -/
theorem strcspn_pos {buf : List UInt8} {s : Nat} (h : ¬ buf.getD (s + strspn buf s) 0 = 0) :
    0 < strcspn buf (s + strspn buf s) := by
  rw [getD_eq_zero_iff] at h
  obtain ⟨c, r, hcr⟩ := List.exists_cons_of_ne_nil h
  have hdrop := cstr_strspn buf s
  have hhead := List.head_dropWhile_not isSpace (l := cstr buf s) (by rw [← hdrop]; exact h)
  have hc : isSpace c = false := by
    simpa only [← hdrop, hcr, List.head_cons] using hhead
  rw [strcspn_eq, hcr, List.takeWhile_cons_of_pos (by simp [hc])]
  exact Nat.succ_pos _

/-- `strtok_r` does not change a string that ends before the text it reads. -/
theorem cstr_strtokR {buf : List UInt8} {s p : Nat} (h : p + (cstr buf p).length ≤ s) :
    cstr (strtokR buf s).buffer p = cstr buf p := by
  unfold strtokR
  simp only
  split
  · rfl
  · rename_i hstart
    split
    · rfl
    -- The write is behind the first byte of a token, so it is behind the terminator.
    · refine cstr_set_gt ?_
      have hpos := strcspn_pos hstart
      omega

/-! ### Upper case -/

/-- A conversion to upper case makes no terminator. -/
theorem toupper_ne_zero {c : UInt8} (h : c ≠ 0) : toupper c ≠ 0 := by
  unfold toupper
  split
  · rename_i hlower
    intro hzero
    have hc : c = 32 := by
      have hadd := congrArg (· + 32) hzero
      simpa using hadd
    rw [hc] at hlower
    exact absurd hlower (by decide)
  · exact h

/-- At an empty string there is nothing to convert. -/
theorem upperCase_of_nil {buf : List UInt8} {p : Nat} (h : cstr buf p = []) :
    upperCase buf p = buf := by
  simp [upperCase, h]

/-- The command in upper case. The conversion goes over the string, and none of its bytes becomes a
terminator. -/
theorem cstr_upperCase (buf : List UInt8) (p : Nat) :
    cstr (upperCase buf p) p = (cstr buf p).map toupper := by
  by_cases hnil : cstr buf p = []
  · rw [upperCase_of_nil hnil, hnil, List.map_nil]
  · have hp : p ≤ buf.length := by
      by_contra hlt
      refine hnil ?_
      unfold cstr
      rw [List.drop_eq_nil_of_le (by omega), List.takeWhile_nil]
    -- The terminator stays, and no byte before it becomes NUL.
    have hend : (buf.drop (p + (cstr buf p).length)).takeWhile (fun c => decide (c ≠ 0)) = [] := by
      have hadd := cstr_add (Nat.le_refl (cstr buf p).length)
      rw [List.drop_length] at hadd
      exact hadd
    have hall : ∀ c ∈ (cstr buf p).map toupper, decide (c ≠ 0) = true := by
      intro c hc
      obtain ⟨d, hd, rfl⟩ := List.mem_map.mp hc
      have hne : d ≠ 0 := fun h0 => zero_notMem_cstr buf p (h0 ▸ hd)
      simpa using toupper_ne_zero hne
    show ((upperCase buf p).drop p).takeWhile (fun c => decide (c ≠ 0)) = _
    rw [upperCase, List.append_assoc, List.drop_left' (List.length_take_of_le hp),
      List.takeWhile_append_of_pos hall, hend, List.append_nil]

/-- The text behind the command stays as it is. -/
theorem cstr_upperCase_ge {buf : List UInt8} {p s : Nat} (h : p + (cstr buf p).length ≤ s) :
    cstr (upperCase buf p) s = cstr buf s := by
  by_cases hnil : cstr buf p = []
  · rw [upperCase_of_nil hnil]
  · have hp : p ≤ buf.length := by
      by_contra hlt
      refine hnil ?_
      unfold cstr
      rw [List.drop_eq_nil_of_le (by omega), List.takeWhile_nil]
    obtain ⟨k, rfl⟩ : ∃ k, s = p + (cstr buf p).length + k := ⟨_, (Nat.add_sub_cancel' h).symm⟩
    have hlen : (buf.take p ++ (cstr buf p).map toupper).length = p + (cstr buf p).length := by
      rw [List.length_append, List.length_take_of_le hp, List.length_map]
    show ((upperCase buf p).drop _).takeWhile (fun c => decide (c ≠ 0)) = _
    rw [upperCase, ← List.drop_drop, List.drop_left' hlen, List.drop_drop]
    rfl

end SysProg.Kvs
