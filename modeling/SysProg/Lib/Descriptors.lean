import Mathlib.Data.List.Basic

/-!
# `SysProg.Lib.Descriptors`: tables of descriptors

A table gives the file or the end of a pipe that a descriptor stands for. `withPipe` puts the two
ends of a pipe into it. The ends of different pipes can be put in and taken out in any order, as
long as they have different descriptors.
-/

set_option autoImplicit false

namespace SysProg.Lib

/-- A pipe: the process that made it, and the number of that call of `pipe`. -/
structure PipeId where
  owner : Nat
  call : Nat
deriving DecidableEq, Repr

/-- What a descriptor stands for. -/
inductive End where
  | file (name : Nat)
  | reader (pipe : PipeId)
  | writer (pipe : PipeId)
deriving DecidableEq, Repr

/-- The descriptors of a process. -/
abbrev Table : Type := Nat → Option End

namespace Table

variable {t : Table} {p q : Nat × Nat} {a b : PipeId} {fd fd' : Nat} {e : Option End}

/-- The table with one entry changed. -/
def set (t : Table) (fd : Nat) (e : Option End) : Table := fun fd' => if fd' = fd then e else t fd'

@[simp] theorem set_self (t : Table) (fd : Nat) (e : Option End) : t.set fd e fd = e := if_pos rfl

/-- The other entries stay. Together with `set_self` it says what every entry of the changed table
is. -/
theorem set_of_ne (t : Table) (e : Option End) (h : fd' ≠ fd) : t.set fd e fd' = t fd' := if_neg h

/-- Two changes at different descriptors can be done in any order. -/
theorem set_comm (h : fd ≠ fd') (e e' : Option End) :
    (t.set fd e).set fd' e' = (t.set fd' e').set fd e := by
  funext x
  unfold set
  by_cases hx : x = fd'
  · rw [if_pos hx, if_pos hx, if_neg (by omega)]
  · rw [if_neg hx, if_neg hx]

/-- The second change at a descriptor hides the first one. -/
theorem set_set (t : Table) (fd : Nat) (e e' : Option End) :
    (t.set fd e).set fd e' = t.set fd e' := by
  funext x
  unfold set
  by_cases hx : x = fd
  · rw [if_pos hx, if_pos hx]
  · rw [if_neg hx, if_neg hx, if_neg hx]

/-- A free descriptor can be closed again. The table stays as it is. -/
theorem set_none (h : t fd = none) : t.set fd none = t := by
  funext x
  by_cases hx : x = fd
  · rw [hx, set_self, h]
  · rw [set_of_ne t none hx]

/-- Only finitely many descriptors are open. -/
def Finite (t : Table) : Prop := ∃ bound, ∀ fd, bound ≤ fd → t fd = none

/-- A change keeps a table finite, as it touches one descriptor. -/
theorem Finite.set (h : t.Finite) (fd : Nat) (e : Option End) : (t.set fd e).Finite := by
  obtain ⟨bound, hbound⟩ := h
  refine ⟨max bound (fd + 1), fun fd' hfd' => ?_⟩
  rw [set_of_ne t e (by omega)]
  exact hbound fd' (by omega)

/-- There is room for a pipe. Above the bound all descriptors are free. -/
theorem Finite.exists_free (h : t.Finite) : ∃ r w, r ≠ w ∧ t r = none ∧ t w = none := by
  obtain ⟨bound, hbound⟩ := h
  exact ⟨bound, bound + 1, by omega, hbound _ (Nat.le_refl bound), hbound _ (Nat.le_succ bound)⟩

/-! ### The two ends of a pipe -/

/-- The ends of a pipe, at the two descriptors. -/
def withPipe (t : Table) (p : Nat × Nat) (a : PipeId) : Table :=
  (t.set p.1 (some (.reader a))).set p.2 (some (.writer a))

/-- The descriptors are free for a pipe. -/
structure Free (t : Table) (p : Nat × Nat) : Prop where
  ne : p.1 ≠ p.2
  fst : t p.1 = none
  snd : t p.2 = none

/-- Two pipes have different descriptors. -/
structure Apart (p q : Nat × Nat) : Prop where
  fst_fst : p.1 ≠ q.1
  fst_snd : p.1 ≠ q.2
  snd_fst : p.2 ≠ q.1
  snd_snd : p.2 ≠ q.2

/-- To be apart is symmetric, as the four inequalities are. -/
theorem Apart.symm (h : Apart p q) : Apart q p :=
  ⟨h.fst_fst.symm, h.snd_fst.symm, h.fst_snd.symm, h.snd_snd.symm⟩

/-- The first descriptor of a pipe is its read end. The write end is set behind it, at another
descriptor. -/
theorem withPipe_fst (h : p.1 ≠ p.2) (t : Table) (a : PipeId) :
    t.withPipe p a p.1 = some (.reader a) := by
  rw [withPipe, set_of_ne _ _ h, set_self]

@[simp] theorem withPipe_snd (t : Table) (p : Nat × Nat) (a : PipeId) :
    t.withPipe p a p.2 = some (.writer a) := set_self _ _ _

/-- A pipe takes its two descriptors, and the others stay. -/
theorem withPipe_of_ne (h₁ : fd ≠ p.1) (h₂ : fd ≠ p.2) (t : Table) (a : PipeId) :
    t.withPipe p a fd = t fd := by
  rw [withPipe, set_of_ne _ _ h₂, set_of_ne _ _ h₁]

/-- What is free beside a pipe is free without it, and apart from it. The descriptors of a pipe are
not free. -/
theorem Free.of_withPipe (hp : p.1 ≠ p.2) (h : (t.withPipe p a).Free q) : t.Free q ∧ Apart p q := by
  have hne {fd : Nat} (hfree : t.withPipe p a fd = none) : fd ≠ p.1 ∧ fd ≠ p.2 := by
    constructor
    · rintro rfl
      rw [withPipe_fst hp] at hfree
      cases hfree
    · rintro rfl
      rw [withPipe_snd] at hfree
      cases hfree
  obtain ⟨h₁, h₂⟩ := hne h.fst
  obtain ⟨h₃, h₄⟩ := hne h.snd
  have hfst := h.fst
  have hsnd := h.snd
  rw [withPipe_of_ne h₁ h₂] at hfst
  rw [withPipe_of_ne h₃ h₄] at hsnd
  exact ⟨⟨h.ne, hfst, hsnd⟩, ⟨h₁.symm, h₃.symm, h₂.symm, h₄.symm⟩⟩

/-- Descriptors that are free stay free when a pipe is opened at others. -/
theorem Free.withPipe (h : t.Free p) (hapart : Apart p q) (a : PipeId) :
    (t.withPipe q a).Free p :=
  ⟨h.ne, by rw [withPipe_of_ne hapart.fst_fst hapart.fst_snd, h.fst],
    by rw [withPipe_of_ne hapart.snd_fst hapart.snd_snd, h.snd]⟩

/-- Descriptors that are free stay free when another one changes. -/
theorem Free.set (h : t.Free p) (h₁ : p.1 ≠ fd) (h₂ : p.2 ≠ fd) (e : Option End) :
    (t.set fd e).Free p :=
  ⟨h.ne, by rw [set_of_ne t e h₁, h.fst], by rw [set_of_ne t e h₂, h.snd]⟩

/-- Two pipes at different descriptors: the order in which they are opened does not matter. -/
theorem withPipe_comm (h : Apart p q) (t : Table) (a b : PipeId) :
    (t.withPipe p a).withPipe q b = (t.withPipe q b).withPipe p a := by
  unfold withPipe
  rw [set_comm h.snd_fst, set_comm h.snd_snd, set_comm h.fst_fst, set_comm h.fst_snd]

/-- A pipe and a change at another descriptor can be done in any order. -/
theorem withPipe_set (h₁ : p.1 ≠ fd) (h₂ : p.2 ≠ fd) (t : Table) (a : PipeId) (e : Option End) :
    (t.withPipe p a).set fd e = (t.set fd e).withPipe p a := by
  unfold withPipe
  rw [set_comm h₂, set_comm h₁]

/-- Both ends are closed again, and the table is as in front of the pipe. -/
theorem withPipe_close (h : t.Free p) (a : PipeId) :
    ((t.withPipe p a).set p.1 none).set p.2 none = t := by
  unfold withPipe
  rw [set_comm h.ne.symm, set_set, set_set, set_comm h.ne, set_none h.snd, set_none h.fst]

/-! ### A pipe under a condition -/

/-- The ends of a pipe, if it is there. -/
def withPipeIf (t : Table) (c : Bool) (p : Nat × Nat) (a : PipeId) : Table :=
  if c then t.withPipe p a else t

variable {c : Bool}

/-- A pipe that may not be there takes at most its two descriptors. -/
theorem withPipeIf_of_ne (h : c = true → fd ≠ p.1 ∧ fd ≠ p.2) (t : Table) (a : PipeId) :
    t.withPipeIf c p a fd = t fd := by
  cases c with
  | true => exact withPipe_of_ne (h rfl).1 (h rfl).2 t a
  | false => rfl

/-- Descriptors that are free stay free, if the pipe is not there or is at others. -/
theorem Free.withPipeIf (h : t.Free p) (hapart : c = true → Apart p q) (a : PipeId) :
    (t.withPipeIf c q a).Free p := by
  cases c with
  | true => exact h.withPipe (hapart rfl) a
  | false => exact h

/-- What is free beside the pipe is free without it. If the pipe is there, it is apart from it. -/
theorem Free.of_withPipeIf (hp : c = true → p.1 ≠ p.2) (h : (t.withPipeIf c p a).Free q) :
    t.Free q ∧ (c = true → Apart p q) := by
  cases c with
  | true => exact ⟨(Free.of_withPipe (hp rfl) h).1, fun _ => (Free.of_withPipe (hp rfl) h).2⟩
  | false => exact ⟨h, fun hc => absurd hc Bool.false_ne_true⟩

/-- A pipe that may not be there, and one that is there, in any order. -/
theorem withPipeIf_comm (h : c = true → Apart p q) (t : Table) (a b : PipeId) :
    (t.withPipe p a).withPipeIf c q b = (t.withPipeIf c q b).withPipe p a := by
  cases c with
  | true => exact withPipe_comm (h rfl) t a b
  | false => rfl

/-- Two pipes that may not be there, in any order. -/
theorem withPipeIf_swap {d : Bool} (h : c = true → d = true → Apart p q) (t : Table)
    (a b : PipeId) :
    (t.withPipeIf c p a).withPipeIf d q b = (t.withPipeIf d q b).withPipeIf c p a := by
  cases c with
  | true => exact withPipeIf_comm (h rfl) t a b
  | false => rfl

end Table

end SysProg.Lib
