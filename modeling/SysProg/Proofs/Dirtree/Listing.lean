import SysProg.Dirtree.TraverseSpec

/-!
# `SysProg.Proofs.Dirtree.Listing`: the order of the entries, and the lines of a subtree

* `sortedEntries_ordered`: `dirent_compare` sorts directories first, and then in the order of the
  names.
* `mem_entriesBelow`: a subtree is a contiguous part of the pre-order.
* `nameOnly_iff`: a directory is named when there are lines at or below it.
* `ownLine_ne_nil`: an entry with something to be seen below it has a line of its own.
-/

set_option autoImplicit false

namespace SysProg.Dirtree

variable {opts : Options} {e e₁ e₂ e₃ : Node} {v w : Visit}
  {contents : Except Nat (List Node)} {n depth : Nat}

/-! ### The order -/

/-- On a string without NUL the sign of `strcmp` is the order of the bytes. -/
theorem strcmp_nonpos_iff {s t : List UInt8} (hs : 0 ∉ s) : strcmp s t ≤ 0 ↔ s ≤ t := by
  -- Induction along the common part.
  induction s generalizing t with
  | nil => cases t <;> simp [strcmp]
  | cons c s ih =>
      have hc : c ≠ 0 := fun hc => hs (hc ▸ List.mem_cons_self)
      cases t with
      | nil =>
          have hpos : c.toNat ≠ 0 := fun h => hc (UInt8.toNat_inj.mp h)
          have hnot : ¬ c :: s ≤ [] := by simp
          simp only [strcmp, hnot, iff_false]
          omega
      | cons d t =>
          rw [strcmp, List.cons_le_cons_iff]
          by_cases heq : c = d
          · rw [if_pos heq, ih (fun h => hs (List.mem_cons_of_mem c h)), heq]
            simp
          · have hne : c.toNat ≠ d.toNat := fun h => heq (UInt8.toNat_inj.mp h)
            rw [if_neg heq, UInt8.lt_iff_toNat_lt]
            simp only [heq, false_and, or_false]
            omega

/-- `dirent_compare` decides the order of the listing. -/
theorem direntCompare_nonpos_iff : direntCompare e₁ e₂ ≤ 0 ↔ Before e₁ e₂ := by
  unfold direntCompare Before
  by_cases h₁ : e₁.type = .directory
  · by_cases h₂ : e₂.type = .directory
    · simp [h₁, h₂, strcmp_nonpos_iff e₁.name.noNul]
    · simp [h₁, h₂, Ne.symm h₂]
  · by_cases h₂ : e₂.type = .directory
    · simp [h₁, h₂]
    · simp [h₁, h₂, strcmp_nonpos_iff e₁.name.noNul]

/-- The order of the entries is transitive. It is the order of `dirent_compare`. -/
theorem Before.trans (h₁₂ : Before e₁ e₂) (h₂₃ : Before e₂ e₃) : Before e₁ e₃ := by
  unfold Before at *
  have hnames := @List.le_trans UInt8 _ _ _ _ e₁.name.bytes e₂.name.bytes e₃.name.bytes
  tauto

/-- Any two entries are in order, one way or the other. -/
theorem Before.total (e₁ e₂ : Node) : Before e₁ e₂ ∨ Before e₂ e₁ := by
  unfold Before
  have hnames := List.le_total e₁.name.bytes e₂.name.bytes
  tauto

/-- The entries are all those of the directory, apart from `"."` and `".."`, and they are in
order. -/
theorem sortedEntries_ordered (entries : List Node) :
    (sortedEntries entries).Perm (entries.filter fun e => !isIgnored e) ∧
      (sortedEntries entries).Pairwise Before := by
  refine ⟨List.mergeSort_perm _ _, ?_⟩
  have hsorted : (sortedEntries entries).Pairwise fun e₁ e₂ =>
      decide (direntCompare e₁ e₂ ≤ 0) = true := by
    refine List.pairwise_mergeSort (fun e₁ e₂ e₃ => ?_) (fun e₁ e₂ => ?_) _
    · simp only [decide_eq_true_eq, direntCompare_nonpos_iff]
      exact Before.trans
    · simp only [Bool.or_eq_true, decide_eq_true_eq, direntCompare_nonpos_iff]
      exact Before.total e₁ e₂
  exact hsorted.imp fun h => direntCompare_nonpos_iff.mp (of_decide_eq_true h)

/-! ### Subtrees -/

/-- An entry of the sequence is above the depth limit, and what is below it follows it. -/
theorem mem_entriesBelow (h : v ∈ entriesBelow n depth contents) :
    depth < v.depth ∧ v.depth ≤ depth + n ∧
      v :: entriesBelow (depth + n - v.depth) v.depth v.node.contents
        <:+: entriesBelow n depth contents := by
  -- Induction on the number of levels.
  induction n generalizing depth contents with
  | zero => exact absurd h List.not_mem_nil
  | succ n ih =>
      rw [entriesBelow] at h ⊢
      obtain ⟨e, he, hv⟩ := List.mem_flatMap.mp h
      have hpart : ⟨depth + 1, e⟩ :: entriesBelow n (depth + 1) e.contents <:+:
          (children contents).flatMap fun e =>
            ⟨depth + 1, e⟩ :: entriesBelow n (depth + 1) e.contents := by
        obtain ⟨l₁, l₂, hl⟩ := List.append_of_mem he
        rw [hl, List.flatMap_append, List.flatMap_cons]
        exact ⟨_, _, List.append_assoc _ _ _⟩
      cases List.mem_cons.mp hv with
      | inl hv =>
          subst hv
          refine ⟨Nat.lt_succ_self depth, by simp, ?_⟩
          simp only
          rw [show depth + (n + 1) - (depth + 1) = n by omega]
          exact hpart
      | inr hv =>
          obtain ⟨hlt, hle, hinf⟩ := ih hv
          refine ⟨by omega, by omega, ?_⟩
          rw [show depth + (n + 1) - v.depth = depth + 1 + n - v.depth by omega]
          exact (hinf.trans (List.suffix_cons _ _).isInfix).trans hpart

/-- The descendants of a descendant. -/
theorem Visit.below_subset {w : Visit} (hv : v.depth ≤ opts.maxDepth) (hw : w ∈ v.below opts) :
    w.depth ≤ opts.maxDepth ∧ w :: w.below opts <:+: v.below opts := by
  obtain ⟨-, hle, hinf⟩ := mem_entriesBelow hw
  have heq : v.depth + (opts.maxDepth - v.depth) = opts.maxDepth := by omega
  rw [heq] at hle hinf
  exact ⟨hle, hinf⟩

/-- An entry with entries below it is a directory above the depth limit. -/
theorem Visit.of_mem_below (hw : w ∈ v.below opts) :
    v.node.type = .directory ∧ v.depth < opts.maxDepth := by
  unfold Visit.below at hw
  constructor
  · cases hnode : v.node with
    | dir name attr contents => rfl
    | file name attr type =>
        rw [hnode] at hw
        obtain ⟨k, hk⟩ : ∃ k, k = opts.maxDepth - v.depth := ⟨_, rfl⟩
        rw [← hk] at hw
        cases k with
        | zero => exact absurd hw List.not_mem_nil
        | succ k => exact absurd hw (by simp [entriesBelow, Node.contents, children, sortedEntries])
  · by_contra hge
    rw [Nat.sub_eq_zero_of_le (Nat.le_of_not_lt hge)] at hw
    exact List.not_mem_nil hw

/-! ### Lines -/

/-- An entry that is listed has one line of its own. -/
theorem Visit.ownLine_of_listed (h : v.Listed opts) :
    v.ownLine opts = [detailLine (v.depth - 1) v.node] := by
  rw [Visit.ownLine, if_pos h]

/-- A visit has an error line exactly when the directory does not open. -/
theorem Visit.errorLine_ne_nil_iff : v.errorLine opts ≠ [] ↔ v.Fails opts := by
  unfold Visit.errorLine Visit.Fails
  cases hcontents : v.node.contents with
  | error errno => by_cases hlt : v.depth < opts.maxDepth <;> simp [hlt]
  | ok entries => simp

/-- An entry with lines is listed, it fails, or it is named. -/
theorem Visit.lines_ne_nil_iff :
    v.lines opts ≠ [] ↔ v.Listed opts ∨ v.NameOnly opts ∨ v.Fails opts := by
  unfold Visit.lines
  rw [Ne, List.append_eq_nil_iff, not_and_or, ← Ne, ← Ne, errorLine_ne_nil_iff, ← or_assoc]
  refine or_congr ?_ Iff.rfl
  unfold Visit.ownLine
  by_cases hlisted : v.Listed opts
  · rw [if_pos hlisted]
    simp [hlisted]
  · rw [if_neg hlisted]
    by_cases hname : v.NameOnly opts
    · simp [hname]
    · simp [hlisted, hname]

/-- Where there are lines, there is an entry that matches or fails. -/
theorem Visit.exists_of_lines_ne_nil (hlines : v.lines opts ≠ []) :
    v.Listed opts ∨ v.Fails opts ∨ ∃ w ∈ v.below opts, w.Listed opts ∨ w.Fails opts := by
  rcases Visit.lines_ne_nil_iff.mp hlines with h | ⟨-, -, -, h⟩ | h
  · exact Or.inl h
  · exact Or.inr h
  · exact Or.inr (Or.inl h)

/-- A directory that does not match is named if and only if it has a line that says that it cannot
be read, or there are lines below it. -/
theorem Visit.nameOnly_iff (hlisted : ¬ v.Listed opts) (hdir : v.node.type = .directory)
    (hv : v.depth < opts.maxDepth) :
    v.NameOnly opts ↔ v.errorLine opts ++ (v.below opts).flatMap (Visit.lines opts) ≠ [] := by
  rw [Ne, List.append_eq_nil_iff, not_and_or, ← Ne, Visit.errorLine_ne_nil_iff]
  constructor
  · rintro ⟨-, -, -, h⟩
    refine h.imp_right fun ⟨w, hw, hseen⟩ hnil => ?_
    have hlines : w.lines opts ≠ [] :=
      Visit.lines_ne_nil_iff.mpr (hseen.imp_right Or.inr)
    exact hlines (List.flatMap_eq_nil_iff.mp hnil w hw)
  · intro h
    refine ⟨hlisted, hdir, hv, h.imp_right fun hne => ?_⟩
    rw [List.flatMap_eq_nil_iff, not_forall] at hne
    obtain ⟨w, hne⟩ := hne
    obtain ⟨hw, hlines⟩ := Classical.not_imp.mp hne
    obtain ⟨-, hinf⟩ := Visit.below_subset (Nat.le_of_lt hv) hw
    -- What is to be seen at or below `w` is below `v`.
    rcases Visit.exists_of_lines_ne_nil hlines with h | h | ⟨x, hx, h⟩
    · exact ⟨w, hw, Or.inl h⟩
    · exact ⟨w, hw, Or.inr h⟩
    · exact ⟨x, hinf.subset (List.mem_cons_of_mem w hx), h⟩

/-- An entry with lines below it has a line of its own. -/
theorem Visit.ownLine_ne_nil (hw : w ∈ v.below opts) (hlines : w.lines opts ≠ []) :
    v.ownLine opts ≠ [] := by
  obtain ⟨hdir, hlt⟩ := Visit.of_mem_below hw
  by_cases hlisted : v.Listed opts
  · rw [Visit.ownLine_of_listed hlisted]
    exact List.cons_ne_nil _ _
  · have hname : v.NameOnly opts := by
      rw [Visit.nameOnly_iff hlisted hdir hlt]
      intro hnil
      exact hlines (List.flatMap_eq_nil_iff.mp (List.append_eq_nil_iff.mp hnil).2 w hw)
    rw [Visit.ownLine, if_neg hlisted, if_pos hname]
    exact List.cons_ne_nil _ _

end SysProg.Dirtree
