import Mathlib.Data.List.Basic
import Mathlib.Data.List.Nodup

/-!
# `SysProg.Lib.Chain`: linked lists in a store

`next : P → Option P` reads the link of a node. It answers `none` at an address that holds
no node. `Seg next p xs q` says that the links lead from `p` through the nodes `xs` to `q`.
A list that ends in the null pointer is `Seg next p xs null`.

* `seg_append` splits a segment at any point, and `seg_snoc` at its last node.
* `Seg.congr` is the frame rule: a segment depends only on the links of its own nodes.
* `Seg.unique` and `Seg.nodup`: when null holds no node, a list that ends in null is
  determined by its start and has no node twice.
-/

set_option autoImplicit false

namespace SysProg.Lib

variable {P : Type*}

/-- The links lead from `p` through the nodes `xs` to `q`. -/
def Seg (next : P → Option P) : P → List P → P → Prop
  | p, [], q => p = q
  | p, x :: xs, q => p = x ∧ ∃ y, next x = some y ∧ Seg next y xs q

section
variable {next next' : P → Option P} {p q null : P} {xs ys : List P}

@[simp] theorem seg_nil : Seg next p [] q ↔ p = q := Iff.rfl

/-- A chain that is not empty starts at its first node. The rest of it starts at the link of that
node. -/
theorem seg_cons {x : P} :
    Seg next p (x :: xs) q ↔ p = x ∧ ∃ y, next x = some y ∧ Seg next y xs q := Iff.rfl

/-- A segment along `xs ++ ys` is one along `xs` followed by one along `ys`. -/
theorem seg_append :
    Seg next p (xs ++ ys) q ↔ ∃ r, Seg next p xs r ∧ Seg next r ys q := by
  induction xs generalizing p with
  | nil => simp
  | cons x xs ih =>
      rw [List.cons_append, seg_cons]
      constructor
      · intro h
        obtain ⟨hp, y, hy, hseg⟩ := h
        obtain ⟨r, hxs, hys⟩ := ih.mp hseg
        exact ⟨r, ⟨hp, y, hy, hxs⟩, hys⟩
      · intro h
        obtain ⟨r, ⟨hp, y, hy, hxs⟩, hys⟩ := h
        exact ⟨hp, y, hy, ih.mpr ⟨r, hxs, hys⟩⟩

/-- The last node of a segment links to its end. -/
theorem seg_snoc {x : P} :
    Seg next p (xs ++ [x]) q ↔ Seg next p xs x ∧ next x = some q := by
  rw [seg_append]
  constructor
  · intro h
    obtain ⟨r, hxs, rfl, y, hy, rfl⟩ := h
    exact ⟨hxs, hy⟩
  · intro h
    exact ⟨x, h.1, rfl, q, h.2, rfl⟩

/-- A segment depends only on the links of its own nodes. -/
theorem Seg.congr (h : Seg next p xs q) (hsame : ∀ x ∈ xs, next' x = next x) :
    Seg next' p xs q := by
  induction xs generalizing p with
  | nil => exact h
  | cons x xs ih =>
      obtain ⟨hp, y, hy, hseg⟩ := h
      refine ⟨hp, y, ?_, ih hseg fun z hz => hsame z (List.mem_cons_of_mem x hz)⟩
      rw [hsame x List.mem_cons_self, hy]

/-- Every node of a segment is in the store. -/
theorem Seg.exists_next (h : Seg next p xs q) {x : P} (hx : x ∈ xs) : ∃ y, next x = some y := by
  induction xs generalizing p with
  | nil => cases hx
  | cons z xs ih =>
      obtain ⟨-, y, hy, hseg⟩ := h
      cases List.mem_cons.mp hx with
      | inl heq => exact ⟨y, heq ▸ hy⟩
      | inr hmem => exact ih hseg hmem

/-- Null is no node of a segment. -/
theorem Seg.ne_null (hnull : next null = none) (h : Seg next p xs q) {x : P} (hx : x ∈ xs) :
    x ≠ null := by
  intro heq
  obtain ⟨y, hy⟩ := h.exists_next hx
  rw [heq, hnull] at hy
  cases hy

/-- A list that starts at null is empty. -/
theorem Seg.eq_nil (hnull : next null = none) (h : Seg next null xs q) : xs = [] := by
  cases xs with
  | nil => rfl
  | cons x xs => exact absurd h.1.symm (h.ne_null hnull List.mem_cons_self)

/-- A list that starts elsewhere is not empty, and its first node is the start. -/
theorem Seg.exists_cons (h : Seg next p xs null) (hp : p ≠ null) :
    ∃ rest y, xs = p :: rest ∧ next p = some y ∧ Seg next y rest null := by
  cases xs with
  | nil => exact absurd h hp
  | cons x xs =>
      obtain ⟨rfl, y, hy, hseg⟩ := h
      exact ⟨xs, y, rfl, hy, hseg⟩

/-- The start of a list that ends in null determines it. -/
theorem Seg.unique (hnull : next null = none) (h : Seg next p xs null)
    (h' : Seg next p ys null) : xs = ys := by
  induction xs generalizing p ys with
  | nil =>
      rw [seg_nil] at h
      subst h
      exact (h'.eq_nil hnull).symm
  | cons x xs ih =>
      have hne := h.ne_null hnull List.mem_cons_self
      obtain ⟨rfl, y, hy, hseg⟩ := h
      obtain ⟨rest, y', rfl, hy', hseg'⟩ := h'.exists_cons hne
      rw [hy, Option.some.injEq] at hy'
      subst hy'
      rw [ih hseg hseg']

/-- A segment is led around what was between its two parts, when the link of the last node of
the first part is set to the start of the second. -/
theorem Seg.bypass {x r s : P} (h : Seg next p (xs ++ [x]) r) (hrest : Seg next s ys q)
    (hx : next' x = some s) (hout : x ∉ xs ++ ys) (hsame : ∀ z, z ≠ x → next' z = next z) :
    Seg next' p (xs ++ [x] ++ ys) q := by
  have hne : ∀ z ∈ xs ++ ys, z ≠ x := fun z hz heq => hout (heq ▸ hz)
  refine seg_append.mpr ⟨s, seg_snoc.mpr ⟨?_, hx⟩, ?_⟩
  · exact (seg_snoc.mp h).1.congr fun z hz => hsame z (hne z (List.mem_append_left _ hz))
  · exact hrest.congr fun z hz => hsame z (hne z (List.mem_append_right _ hz))

/-- Behind one of its nodes a segment may be led elsewhere. -/
theorem Seg.relink {x r : P} {zs : List P} {q' : P} (h : Seg next p (xs ++ x :: ys) q)
    (hsame : ∀ z ∈ xs, next' z = next z) (hx : next' x = some r) (hzs : Seg next' r zs q') :
    Seg next' p (xs ++ x :: zs) q' := by
  obtain ⟨y, hxs, hrest⟩ := seg_append.mp h
  have hstart : y = x := hrest.1
  subst hstart
  exact seg_append.mpr ⟨y, hxs.congr hsame, rfl, r, hx, hzs⟩

/-- The rest of a segment behind one of its nodes. -/
theorem Seg.behind {x : P} (h : Seg next p (xs ++ x :: ys) q) :
    ∃ r, next x = some r ∧ Seg next r ys q := by
  obtain ⟨y, -, -, r, hr, hrest⟩ := seg_append.mp h
  exact ⟨r, hr, hrest⟩

/-- A list that ends in null has no node twice. A repeated node would start two suffixes of
different lengths. -/
theorem Seg.nodup (hnull : next null = none) (h : Seg next p xs null) : xs.Nodup := by
  induction xs generalizing p with
  | nil => exact List.nodup_nil
  | cons x xs ih =>
      have hwhole : Seg next x (x :: xs) null := ⟨rfl, h.2⟩
      obtain ⟨-, y, -, hseg⟩ := h
      refine List.nodup_cons.mpr ⟨fun hmem => ?_, ih hseg⟩
      obtain ⟨as, bs, rfl⟩ := List.append_of_mem hmem
      obtain ⟨r, -, hsuffix⟩ := seg_append.mp hseg
      have hstart : r = x := hsuffix.1
      have heq := Seg.unique hnull hwhole (hstart ▸ hsuffix)
      have hlen := congrArg List.length heq
      simp only [List.length_cons, List.length_append] at hlen
      omega

end

end SysProg.Lib
