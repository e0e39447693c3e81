import SysProg.Lib.Simulation
import SysProg.Memory.Client

/-!
# `SysProg.Memory.Allocator`: a program and any heap manager

The heap managers under `reference/` have other blocks and other lists than `heapmgr1.c` and
`heapmgr2.c`. `Allocator` is what a program sees of a manager, and its states are those of the
manager. `User` is a state with the allocations of the program, and its steps are the calls of
`SysProg.Memory.Client`.
-/

set_option autoImplicit false

namespace SysProg.Memory

open SysProg.Lib

/-- What a program sees of a heap manager. The contract is part of it: the largest size, and
whether `NULL` may be freed. -/
structure Allocator (σ : Type) where
  malloc : σ → Sbrk → UInt64 → Except Stop (σ × Nat)
  free : σ → Nat → Except Stop σ
  write : σ → Nat → UInt8 → σ
  maxSize : Nat
  freesNull : Bool

/-- The break of the program before the first call, and the end of the memory it may have. All
the memory is less than `2 ^ 31` units. -/
structure UnitRange (brk limit : Nat) : Prop where
  pos : 0 < brk
  le : brk ≤ limit
  small : limit ≤ brk + chunkUnit * intMax
  lt : limit < sbrkFailed

/-- The state of a manager and the allocations of the program: pointers and their sizes. -/
structure User (σ : Type) where
  heap : σ
  live : List (Nat × Nat)

section
variable {σ : Type} (A : Allocator σ)

/-- The contract of the calls. -/
def User.Legal (s : User σ) : Call → Prop
  | .malloc size _ => size.toNat ≤ A.maxSize
  | .free p => p = 0 ∧ A.freesNull = true ∨ ∃ r ∈ s.live, r.1 = p
  | .write x _ => ∃ r ∈ s.live, r.1 ≤ x ∧ x < r.1 + r.2

instance (s : User σ) (a : Call) : Decidable (s.Legal A a) :=
  match a with
  | .malloc size _ => inferInstanceAs (Decidable (size.toNat ≤ A.maxSize))
  | .free p =>
      inferInstanceAs (Decidable (p = 0 ∧ A.freesNull = true ∨ ∃ r ∈ s.live, r.1 = p))
  | .write x _ => inferInstanceAs (Decidable (∃ r ∈ s.live, r.1 ≤ x ∧ x < r.1 + r.2))

/-- A call, with the pointers that it returns. -/
def userCall (s : User σ) : Call → Except Stop (User σ × List Nat)
  | .malloc size env =>
      (A.malloc s.heap env size).map fun r =>
        ({ heap := r.1, live := if r.2 = 0 then s.live else (r.2, size.toNat) :: s.live }, [r.2])
  | .free p =>
      (A.free s.heap p).map fun h =>
        ({ heap := h, live := s.live.filter fun r => r.1 ≠ p }, [])
  | .write x v => .ok ({ s with heap := A.write s.heap x v }, [])

/-- An allocation stays until it is freed. A call of `malloc` adds one to the list, and a call of
`free` takes out the one with its pointer. -/
theorem mem_live_userCall {s s' : User σ} {a : Call} {out : List Nat} {r : Nat × Nat}
    (hcall : userCall A s a = .ok (s', out)) (hr : r ∈ s.live) (hfree : a ≠ .free r.1) :
    r ∈ s'.live := by
  cases a with
  | malloc size env =>
      rw [userCall] at hcall
      cases hm : A.malloc s.heap env size with
      | error e =>
          rw [hm] at hcall
          cases hcall
      | ok q =>
          rw [hm] at hcall
          cases hcall
          show r ∈ if q.2 = 0 then s.live else (q.2, size.toNat) :: s.live
          split
          · exact hr
          · exact List.mem_cons_of_mem _ hr
  | free p =>
      rw [userCall] at hcall
      cases hm : A.free s.heap p with
      | error e =>
          rw [hm] at hcall
          cases hcall
      | ok h =>
          rw [hm] at hcall
          cases hcall
          refine List.mem_filter.mpr ⟨hr, decide_eq_true fun heq => hfree ?_⟩
          rw [heq]
  | write x v =>
      cases hcall
      exact hr

/-- The steps of a program that keeps the contract. A call that does not return ends the run. -/
def userStep (s : User σ) (a : Call) : Option (User σ × List Nat) :=
  if s.Legal A a then (userCall A s a).toOption else none

/-- Every legal call returns, or the program exits at one that may. -/
def User.Continues (s : User σ) (exits : Call → Prop) : Prop :=
  ∀ a, s.Legal A a → (∃ r, userCall A s a = .ok r) ∨ userCall A s a = .error .exited ∧ exits a

/-- The program before its first call. -/
def User.start (h : σ) : User σ where
  heap := h
  live := []

/-- The order in which a program keeps its allocations does not matter. What is legal and what a
call does depend on which allocations there are. -/
theorem lockstep_perm : Lockstep (fun s t : User σ => s.heap = t.heap ∧ s.live.Perm t.live)
    (userStep A) (userStep A) := by
  intro s t a ⟨hheap, hlive⟩
  have hlegal : s.Legal A a ↔ t.Legal A a := by
    cases a with
    | malloc size env => exact Iff.rfl
    | free p =>
        refine or_congr_right (exists_congr fun r => ?_)
        rw [hlive.mem_iff]
    | write x v =>
        refine exists_congr fun r => ?_
        rw [hlive.mem_iff]
  unfold userStep
  by_cases ht : t.Legal A a
  · rw [if_pos (hlegal.mpr ht), if_pos ht]
    cases a with
    | malloc size env =>
        rw [userCall, userCall, hheap]
        cases A.malloc t.heap env size with
        | error e => exact Or.inl ⟨rfl, rfl⟩
        | ok q =>
            refine Or.inr ⟨_, _, [q.2], rfl, rfl, rfl, ?_⟩
            show (if q.2 = 0 then s.live else (q.2, size.toNat) :: s.live).Perm
              (if q.2 = 0 then t.live else (q.2, size.toNat) :: t.live)
            split
            · exact hlive
            · exact hlive.cons _
    | free p =>
        rw [userCall, userCall, hheap]
        cases A.free t.heap p with
        | error e => exact Or.inl ⟨rfl, rfl⟩
        | ok h => exact Or.inr ⟨_, _, [], rfl, rfl, rfl, hlive.filter _⟩
    | write x v =>
        refine Or.inr ⟨_, _, [], rfl, rfl, ?_, hlive⟩
        show A.write s.heap x v = A.write t.heap x v
        rw [hheap]
  · rw [if_neg (mt hlegal.mp ht), if_neg ht]
    exact Or.inl ⟨rfl, rfl⟩

end

end SysProg.Memory
