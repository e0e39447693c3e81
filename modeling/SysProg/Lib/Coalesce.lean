import Mathlib.Data.List.Chain
import Mathlib.Order.Basic

/-!
# `SysProg.Lib.Coalesce`: joining neighbours in a list

Some elements of a list are open, and two open neighbours are joined by an operation. `coalesce`
joins until no two neighbours are open.

A `Joining` says that the open elements are closed under the operation, which is associative on
them. Then the order of the joins does not matter: a part of the list may be coalesced first
(`coalesce_append_coalesce`, `coalesce_coalesce_append`), and so may the list before some of its
closed elements are opened (`coalesce_map_coalesce`).
-/

set_option autoImplicit false

namespace SysProg.Lib

variable {α : Type*}

section
variable (isOpen : α → Prop) [DecidablePred isOpen] (join : α → α → α)

/-- An element in front of a list, joined to the head when both are open. -/
def consJoin (a : α) : List α → List α
  | [] => [a]
  | b :: l => if isOpen a ∧ isOpen b then join a b :: l else a :: b :: l

/-- Joins open neighbours. -/
def coalesce (l : List α) : List α := l.foldr (consJoin isOpen join) []

/-- The open elements are closed under an associative operation. -/
structure Joining : Prop where
  isOpen_join : ∀ a b, isOpen a → isOpen b → isOpen (join a b)
  assoc : ∀ a b c, isOpen a → isOpen b → isOpen c → join (join a b) c = join a (join b c)

end

section
variable {isOpen : α → Prop} [DecidablePred isOpen] {join : α → α → α} {a b : α} {l l' : List α}

/-- A list is joined from its end on. The first item comes to what the rest has become. -/
theorem coalesce_cons :
    coalesce isOpen join (a :: l) = consJoin isOpen join a (coalesce isOpen join l) := rfl

/-- An element in front of a closed one stays. -/
theorem consJoin_cons_of_not (hb : ¬ isOpen b) :
    consJoin isOpen join a (b :: l) = a :: b :: l := by
  rw [consJoin, if_neg fun h => hb h.2]

/-- An open element in front of an open one is joined to it. -/
theorem consJoin_cons (ha : isOpen a) (hb : isOpen b) :
    consJoin isOpen join a (b :: l) = join a b :: l := by
  rw [consJoin, if_pos ⟨ha, hb⟩]

/-- A list without open neighbours stays as it is. -/
theorem coalesce_eq_self (h : l.IsChain fun a b => ¬ (isOpen a ∧ isOpen b)) :
    coalesce isOpen join l = l := by
  induction l with
  | nil => rfl
  | cons a l ih =>
      rw [coalesce_cons, ih h.tail]
      cases l with
      | nil => rfl
      | cons b l =>
          rw [List.isChain_cons_cons] at h
          rw [consJoin, if_neg h.1]

/-- An element in front of a list without open neighbours makes no open neighbours, when it is
joined to an open head. -/
theorem isChain_consJoin (h : l.IsChain fun a b => ¬ (isOpen a ∧ isOpen b)) :
    (consJoin isOpen join a l).IsChain fun a b => ¬ (isOpen a ∧ isOpen b) := by
  cases l with
  | nil => exact List.isChain_singleton a
  | cons b l =>
      rw [consJoin]
      split
      · -- The head of the rest is closed, because the joined one was open.
        rename_i hab
        cases l with
        | nil => exact List.isChain_singleton _
        | cons c l =>
            have hc := (List.isChain_cons_cons.mp h).1
            exact List.isChain_cons_cons.mpr ⟨fun hjc => hc ⟨hab.2, hjc.2⟩, h.tail⟩
      · rename_i hab
        exact List.isChain_cons_cons.mpr ⟨hab, h⟩

/-- No two neighbours of a coalesced list are open. -/
theorem isChain_coalesce (l : List α) :
    (coalesce isOpen join l).IsChain fun a b => ¬ (isOpen a ∧ isOpen b) := by
  induction l with
  | nil => exact List.isChain_nil
  | cons a l ih => exact isChain_consJoin ih

/-- Only open elements change. -/
theorem filter_coalesce {p : α → Bool} (hp : ∀ a, isOpen a → p a = false)
    (hjoin : ∀ a b, isOpen a → isOpen b → isOpen (join a b)) (l : List α) :
    (coalesce isOpen join l).filter p = l.filter p := by
  induction l with
  | nil => rfl
  | cons a l ih =>
      rw [coalesce_cons, List.filter_cons, ← ih]
      cases coalesce isOpen join l with
      | nil => rw [consJoin, List.filter_cons]
      | cons b l =>
          by_cases hab : isOpen a ∧ isOpen b
          · rw [consJoin_cons hab.1 hab.2, List.filter_cons, List.filter_cons, hp a hab.1,
              hp b hab.2, hp _ (hjoin a b hab.1 hab.2)]
            rfl
          · rw [consJoin, if_neg hab, List.filter_cons]

/-- Joining loses no element: each is below one of the result, in an order in which a join is above
both its parts. -/
theorem exists_mem_coalesce {β : Type*} [Preorder β] {f : α → β}
    (hleft : ∀ a b, f a ≤ f (join a b)) (hright : ∀ a b, f b ≤ f (join a b)) (ha : a ∈ l) :
    ∃ c ∈ coalesce isOpen join l, f a ≤ f c := by
  induction l with
  | nil => cases ha
  | cons b l ih =>
      rw [coalesce_cons]
      -- The element is in front, or below one of the rest, and `consJoin` keeps both.
      have hcons : ∀ m : List α, (∃ c ∈ b :: m, f a ≤ f c) →
          ∃ c ∈ consJoin isOpen join b m, f a ≤ f c := by
        intro m ⟨c, hc, hle⟩
        cases m with
        | nil => exact ⟨c, hc, hle⟩
        | cons d m =>
            rw [consJoin]
            split
            · rcases List.mem_cons.mp hc with rfl | hc
              · exact ⟨_, List.mem_cons_self, hle.trans (hleft c d)⟩
              · rcases List.mem_cons.mp hc with rfl | hc
                · exact ⟨_, List.mem_cons_self, hle.trans (hright b c)⟩
                · exact ⟨c, List.mem_cons_of_mem _ hc, hle⟩
            · exact ⟨c, hc, hle⟩
      rcases List.mem_cons.mp ha with rfl | ha
      · exact hcons _ ⟨a, List.mem_cons_self, le_refl _⟩
      · obtain ⟨c, hc, hle⟩ := ih ha
        exact hcons _ ⟨c, List.mem_cons_of_mem _ hc, hle⟩

/-- A map that respects open elements and their joins may come before or after. -/
theorem map_coalesce {β : Type*} {isOpen' : β → Prop} [DecidablePred isOpen'] {join' : β → β → β}
    {f : α → β} (hopen : ∀ a, isOpen' (f a) ↔ isOpen a)
    (hjoin : ∀ a b, isOpen a → isOpen b → f (join a b) = join' (f a) (f b)) (l : List α) :
    (coalesce isOpen join l).map f = coalesce isOpen' join' (l.map f) := by
  induction l with
  | nil => rfl
  | cons a l ih =>
      rw [List.map_cons, coalesce_cons, coalesce_cons, ← ih]
      cases coalesce isOpen join l with
      | nil => rfl
      | cons b l =>
          by_cases hab : isOpen a ∧ isOpen b
          · rw [consJoin_cons hab.1 hab.2, List.map_cons, List.map_cons,
              consJoin_cons ((hopen a).mpr hab.1) ((hopen b).mpr hab.2), hjoin a b hab.1 hab.2]
          · have hab' : ¬ (isOpen' (f a) ∧ isOpen' (f b)) := by rwa [hopen, hopen]
            rw [consJoin, if_neg hab, List.map_cons, List.map_cons, consJoin, if_neg hab']

end

namespace Joining

variable {isOpen : α → Prop} [DecidablePred isOpen] {join : α → α → α} {a b : α} {l l' : List α}

/-- Two open elements in front of a list may be joined first. -/
theorem consJoin_consJoin (h : Joining isOpen join) (ha : isOpen a) (hb : isOpen b) :
    consJoin isOpen join a (consJoin isOpen join b l) = consJoin isOpen join (join a b) l := by
  have hab := h.isOpen_join a b ha hb
  cases l with
  | nil => exact consJoin_cons ha hb
  | cons c l =>
      by_cases hc : isOpen c
      · rw [consJoin_cons hb hc, consJoin_cons ha (h.isOpen_join b c hb hc), consJoin_cons hab hc,
          h.assoc a b c ha hb hc]
      · rw [consJoin_cons_of_not hc, consJoin_cons ha hb, consJoin_cons_of_not hc]

/-- An element in front of a list that is coalesced onto another one. -/
theorem foldr_consJoin (h : Joining isOpen join) :
    (consJoin isOpen join a l).foldr (consJoin isOpen join) l'
      = consJoin isOpen join a (l.foldr (consJoin isOpen join) l') := by
  cases l with
  | nil => rfl
  | cons b l =>
      by_cases hab : isOpen a ∧ isOpen b
      · rw [consJoin_cons hab.1 hab.2, List.foldr_cons, List.foldr_cons,
          h.consJoin_consJoin hab.1 hab.2]
      · rw [consJoin, if_neg hab]
        rfl

/-- The front of a list may be coalesced first. -/
theorem coalesce_coalesce_append (h : Joining isOpen join) (l l' : List α) :
    coalesce isOpen join (coalesce isOpen join l ++ l') = coalesce isOpen join (l ++ l') := by
  induction l with
  | nil => rfl
  | cons a l ih =>
      unfold coalesce at ih ⊢
      rw [List.foldr_append] at ih ⊢
      rw [List.foldr_cons, h.foldr_consJoin, ih, List.cons_append, List.foldr_cons]

/-- A list that is coalesced stays as it is. -/
theorem coalesce_coalesce (h : Joining isOpen join) (l : List α) :
    coalesce isOpen join (coalesce isOpen join l) = coalesce isOpen join l := by
  have heq := h.coalesce_coalesce_append l []
  rwa [List.append_nil, List.append_nil] at heq

/-- The rest of a list may be coalesced first. -/
theorem coalesce_append_coalesce (h : Joining isOpen join) (l l' : List α) :
    coalesce isOpen join (l ++ coalesce isOpen join l') = coalesce isOpen join (l ++ l') := by
  induction l with
  | nil => exact h.coalesce_coalesce l'
  | cons a l ih => rw [List.cons_append, List.cons_append, coalesce_cons, coalesce_cons, ih]

/-- A list may be coalesced before closed elements are changed. -/
theorem coalesce_map_coalesce (h : Joining isOpen join) {f : α → α}
    (hf : ∀ a, isOpen a → f a = a) (l : List α) :
    coalesce isOpen join ((coalesce isOpen join l).map f) = coalesce isOpen join (l.map f) := by
  induction l with
  | nil => rfl
  | cons a l ih =>
      rw [List.map_cons, coalesce_cons, coalesce_cons, ← ih]
      cases coalesce isOpen join l with
      | nil => rfl
      | cons b l =>
          by_cases hab : isOpen a ∧ isOpen b
          · -- Open elements do not change, nor does what they are joined to.
            rw [consJoin_cons hab.1 hab.2, List.map_cons, List.map_cons, hf a hab.1, hf b hab.2,
              hf _ (h.isOpen_join a b hab.1 hab.2), coalesce_cons, coalesce_cons,
              h.consJoin_consJoin hab.1 hab.2]
          · rw [consJoin, if_neg hab]
            rfl

/-- Two open neighbours may be joined first. -/
theorem coalesce_join (h : Joining isOpen join) (ha : isOpen a) (hb : isOpen b) (l l' : List α) :
    coalesce isOpen join (l ++ join a b :: l') = coalesce isOpen join (l ++ a :: b :: l') := by
  rw [← h.coalesce_append_coalesce l (join a b :: l'),
    ← h.coalesce_append_coalesce l (a :: b :: l'), coalesce_cons, coalesce_cons, coalesce_cons,
    h.consJoin_consJoin ha hb]

/-- Open elements are joined into one. -/
theorem coalesce_eq_singleton (h : Joining isOpen join) (hl : ∀ b ∈ l, isOpen b) (ha : isOpen a) :
    ∃ b, coalesce isOpen join (a :: l) = [b] ∧ isOpen b := by
  induction l generalizing a with
  | nil => exact ⟨a, rfl, ha⟩
  | cons b l ih =>
      obtain ⟨c, hc, hopen⟩ := ih (fun d hd => hl d (List.mem_cons_of_mem b hd))
        (hl b List.mem_cons_self)
      exact ⟨join a c, by rw [coalesce_cons, hc, consJoin_cons ha hopen],
        h.isOpen_join a c ha hopen⟩

end Joining

end SysProg.Lib
