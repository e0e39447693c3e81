import Mathlib.Data.List.Nodup

/-!
# `SysProg.Lib.DoublyLinked`: doubly linked lists

`Linked next prev null before head xs` says that the links lead from `head` through the nodes
`xs` to `null`, and that the back link of each node is the node before it. The back link of
the first node is `before`.

* `Linked.congr`: only the links of the nodes matter.
* `Linked.prev_eq` and `Linked.next_eq` read the neighbours of a node in the middle.
* `Linked.push` puts a node at the head, and `Linked.unlink` takes one out.
* `Trail` is the part of a list that a walk has passed. The nodes are distinct by `Trail.nodup`, so
  a walk that compares the back links ends.
-/

set_option autoImplicit false

namespace SysProg.Lib

variable {α : Type*}

/-- The links of a list from `head` on, in both directions. -/
def Linked (next prev : α → α) (null : α) : α → α → List α → Prop
  | _, head, [] => head = null
  | before, head, x :: xs =>
      head = x ∧ x ≠ null ∧ prev x = before ∧ Linked next prev null x (next x) xs

namespace Linked

variable {next prev next' prev' : α → α} {null before head c : α} {xs ys : List α}

/-- The list depends on the links of its nodes only. -/
theorem congr (h : Linked next prev null before head xs)
    (hnext : ∀ x ∈ xs, next' x = next x) (hprev : ∀ x ∈ xs, prev' x = prev x) :
    Linked next' prev' null before head xs := by
  induction xs generalizing before head with
  | nil => exact h
  | cons x xs ih =>
      obtain ⟨hhead, hnull, hback, hrest⟩ := h
      refine ⟨hhead, hnull, ?_, ?_⟩
      · rw [hprev x List.mem_cons_self, hback]
      · rw [hnext x List.mem_cons_self]
        exact ih hrest (fun y hy => hnext y (List.mem_cons_of_mem _ hy))
          (fun y hy => hprev y (List.mem_cons_of_mem _ hy))

/-- No node is `null`. -/
theorem ne_null (h : Linked next prev null before head xs) {x : α} (hx : x ∈ xs) :
    x ≠ null := by
  induction xs generalizing before head with
  | nil => cases hx
  | cons y xs ih =>
      obtain ⟨_, hnull, _, hrest⟩ := h
      rcases List.mem_cons.mp hx with rfl | hx
      · exact hnull
      · exact ih hrest hx

/-- The head is the first node, or `null`. -/
theorem head_eq (h : Linked next prev null before head xs) : head = xs.head?.getD null := by
  cases xs with
  | nil => exact h
  | cons x xs => exact h.1

/-- The back link of a node in the middle. -/
theorem prev_eq (h : Linked next prev null before head (xs ++ c :: ys)) :
    prev c = xs.getLast?.getD before := by
  induction xs generalizing before head with
  | nil => exact h.2.2.1
  | cons x xs ih =>
      rw [ih h.2.2.2]
      cases hlast : xs.getLast? with
      | none =>
          rw [List.getLast?_eq_none_iff.mp hlast]
          rfl
      | some y => simp [List.getLast?_cons, hlast]

/-- The back link is `null` at the first node only. -/
theorem prev_eq_null_iff (h : Linked next prev null null head (xs ++ c :: ys)) :
    prev c = null ↔ xs = [] := by
  rw [h.prev_eq]
  constructor
  · intro hnull
    by_contra hxs
    rw [List.getLast?_eq_some_getLast hxs, Option.getD_some] at hnull
    exact h.ne_null (List.mem_append_left _ (List.getLast_mem hxs)) hnull
  · intro hxs
    rw [hxs]
    rfl

/-- The link of a node in the middle. -/
theorem next_eq (h : Linked next prev null before head (xs ++ c :: ys)) :
    next c = ys.head?.getD null := by
  induction xs generalizing before head with
  | nil => exact h.2.2.2.head_eq
  | cons x xs ih => exact ih h.2.2.2

variable [DecidableEq α]

/-- A new node at the head. -/
theorem push (h : Linked next prev null before head xs) (hnull : c ≠ null)
    (hhead : next' c = head) (hback : prev' c = before)
    (hnext : ∀ x ∈ xs, next' x = next x)
    (hprev : ∀ x ∈ xs, prev' x = if x = head then c else prev x) (hnodup : xs.Nodup) :
    Linked next' prev' null before c (c :: xs) := by
  refine ⟨rfl, hnull, hback, ?_⟩
  rw [hhead]
  cases xs with
  | nil => exact h
  | cons x xs =>
      obtain ⟨rfl, hx, _, hrest⟩ := h
      refine ⟨rfl, hx, by rw [hprev head List.mem_cons_self, if_pos rfl], ?_⟩
      rw [hnext head List.mem_cons_self]
      refine hrest.congr (fun y hy => hnext y (List.mem_cons_of_mem _ hy)) fun y hy => ?_
      -- Only the old head gets a new back link.
      have hne : y ≠ head := fun heq => (List.nodup_cons.mp hnodup).1 (heq ▸ hy)
      rw [hprev y (List.mem_cons_of_mem _ hy), if_neg hne]

/-- The list without a node, once its neighbours are linked to each other. At the ends of the list
there is only one neighbour, or none. -/
theorem unlink (h : Linked next prev null before head (xs ++ c :: ys))
    (hnodup : (before :: (xs ++ c :: ys)).Nodup)
    (hnext : ∀ x ∈ xs ++ ys, next' x = if x = prev c then next c else next x)
    (hprev : ∀ x ∈ xs ++ ys, prev' x = if x = next c then prev c else prev x) :
    Linked next' prev' null before (if xs = [] then next c else head) (xs ++ ys) := by
  induction xs generalizing before head with
  | nil =>
      obtain ⟨rfl, _, hback, hrest⟩ := h
      rw [if_pos rfl, List.nil_append]
      rw [hback] at hnext hprev
      -- The node before is not among those behind, so their links stay as they are.
      have hbefore : ∀ x ∈ ys, x ≠ before := by
        intro x hx heq
        exact (List.nodup_cons.mp hnodup).1 (by simp [← heq, hx])
      have hnext' : ∀ x ∈ ys, next' x = next x := by
        intro x hx
        rw [hnext x hx, if_neg (hbefore x hx)]
      cases ys with
      | nil => exact hrest
      | cons y ys =>
          obtain ⟨hy, hynull, _, htail⟩ := hrest
          refine ⟨hy, hynull, by rw [hprev y List.mem_cons_self, if_pos hy.symm], ?_⟩
          rw [hnext' y List.mem_cons_self]
          refine htail.congr (fun x hx => hnext' x (List.mem_cons_of_mem _ hx)) fun x hx => ?_
          have hne : x ≠ y := by
            rintro rfl
            simp [hx] at hnodup
          rw [hprev x (List.mem_cons_of_mem _ hx), hy, if_neg hne]
  | cons x xs ih =>
      have hx : x ∉ xs ++ c :: ys := (List.nodup_cons.mp (List.nodup_cons.mp hnodup).2).1
      rw [List.cons_append] at h
      have hnextc := next_eq (show Linked next prev null before head ((x :: xs) ++ c :: ys) from h)
      have hprevc := prev_eq (show Linked next prev null before head ((x :: xs) ++ c :: ys) from h)
      obtain ⟨rfl, hnull, hback, hrest⟩ := h
      rw [if_neg (List.cons_ne_nil _ _)]
      have hne : head ≠ next c := by
        intro heq
        rw [hnextc] at heq
        cases ys with
        | nil => exact hnull heq
        | cons y ys => exact hx (by rw [show head = y from heq]; simp)
      refine ⟨rfl, hnull, by rw [hprev head (by simp), if_neg hne, hback], ?_⟩
      have hmore := ih hrest (List.nodup_cons.mp hnodup).2
        (fun y hy => hnext y (List.mem_cons_of_mem _ hy))
        (fun y hy => hprev y (List.mem_cons_of_mem _ hy))
      rw [hnext head (by simp)]
      cases hxs : xs with
      | nil =>
          rw [hxs] at hmore hprevc
          rw [if_pos (show head = prev c by rw [hprevc]; rfl)]
          simpa using hmore
      | cons z zs =>
          have hlast : head ≠ prev c := by
            intro heq
            have hmem : head ∈ xs := by
              have hne' : xs ≠ [] := by rw [hxs]; exact List.cons_ne_nil _ _
              rw [heq, prev_eq hrest, List.getLast?_eq_some_getLast hne', Option.getD_some]
              exact List.getLast_mem hne'
            exact hx (List.mem_append_left _ hmem)
          rw [if_neg hlast]
          rw [hxs] at hmore
          simpa using hmore

end Linked

/-! ### The nodes that a walk has passed -/

/-- A walk along `next` from `head` has passed the nodes `seen`, the last one first, and stands at
`tail`. The back link of each node that was passed is the node before it. -/
def Trail (next prev : α → α) (null head : α) : List α → α → Prop
  | [], tail => tail = head
  | c :: seen, tail =>
      next c = tail ∧ c ≠ null ∧ prev c = seen.head?.getD null ∧ Trail next prev null head seen c

namespace Trail

variable {next prev : α → α} {null head tail c : α} {seen xs ys : List α}

/-- No node is `null`. -/
theorem ne_null (h : Trail next prev null head seen tail) {x : α} (hx : x ∈ seen) : x ≠ null := by
  induction seen generalizing tail with
  | nil => cases hx
  | cons y seen ih =>
      obtain ⟨-, hnull, -, hrest⟩ := h
      obtain rfl | hx := List.mem_cons.mp hx
      · exact hnull
      · exact ih hrest hx

/-- The back link of a node in the middle. -/
theorem prev_eq (h : Trail next prev null head (xs ++ c :: ys) tail) :
    prev c = ys.head?.getD null := by
  induction xs generalizing tail with
  | nil => exact h.2.2.1
  | cons x xs ih => exact ih h.2.2.2

/-- The nodes are distinct. The back links of equal nodes are equal, and only that of the head is
`null`. -/
theorem nodup (h : Trail next prev null head seen tail) : seen.Nodup := by
  induction seen generalizing tail with
  | nil => exact List.nodup_nil
  | cons c seen ih =>
      obtain ⟨-, -, hback, hrest⟩ := h
      have hnodup := ih hrest
      refine List.nodup_cons.mpr ⟨fun hmem => ?_, hnodup⟩
      obtain ⟨xs, ys, rfl⟩ := List.append_of_mem hmem
      -- The node that was passed last would also come before the first visit of `c`.
      rw [hrest.prev_eq] at hback
      obtain ⟨r, hr⟩ : ∃ r, (xs ++ c :: ys).head? = some r := by
        cases xs with
        | nil => exact ⟨c, rfl⟩
        | cons x xs => exact ⟨x, rfl⟩
      rw [hr, Option.getD_some] at hback
      have hrmem : r ∈ xs ++ [c] := by
        cases xs with
        | nil => simpa using hr.symm
        | cons x xs => simp [Option.some.inj hr]
      cases ys with
      | nil => exact hrest.ne_null (List.mem_of_mem_head? hr) hback.symm
      | cons y ys =>
          have hsplit : xs ++ c :: y :: ys = (xs ++ [c]) ++ (y :: ys) := by simp
          rw [hsplit] at hnodup
          have hry : r = y := by simpa using hback.symm
          exact (List.disjoint_of_nodup_append hnodup) hrmem (by rw [hry]; simp)

/-- The trail and the rest of the list make up the whole. -/
theorem linked (h : Trail next prev null head seen tail)
    (hrest : Linked next prev null (seen.head?.getD null) tail ys) :
    Linked next prev null null head (seen.reverse ++ ys) := by
  induction seen generalizing tail ys with
  | nil =>
      obtain rfl : tail = head := h
      exact hrest
  | cons c seen ih =>
      obtain ⟨hnext, hnull, hback, hseen⟩ := h
      rw [List.reverse_cons, List.append_assoc]
      exact ih hseen ⟨rfl, hnull, hback, hnext ▸ hrest⟩

end Trail

end SysProg.Lib
