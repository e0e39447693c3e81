import Mathlib.Logic.Function.Basic

/-!
# `SysProg.Kvs.MapSpec`: what the key-value store is for

The abstract model of the store: a partial map from keys to values with four operations.
`MapOp.apply` runs one operation and gives the code and the value it answers with, in the
convention of `hashtable.h`: `1` for success, `0` for a key that is present (insert) or
absent (the others), and `-1` when memory ran out.

Keys and values are arbitrary. Whether memory was available is an argument of `apply`.
-/

set_option autoImplicit false

namespace SysProg.Kvs

/-- The four operations of the store. -/
inductive MapOp (K V : Type) where
  | insert (key : K) (value : V)
  | read (key : K)
  | update (key : K) (value : V)
  | delete (key : K)
deriving DecidableEq, Repr

/-- What a call returns: its code, and the value it copied out. -/
structure Reply (V : Type) where
  code : Int
  value : Option V
deriving DecidableEq, Repr

namespace MapOp

variable {K V : Type}

/-- The key an operation is about. -/
def key : MapOp K V → K
  | insert k _ | read k | update k _ | delete k => k

variable [DecidableEq K]

/-- One operation on the map `m`. -/
def apply (m : K → Option V) (allocated : Bool) : MapOp K V → (K → Option V) × Reply V
  | insert k v =>
      match m k with
      | some _ => (m, ⟨0, none⟩)
      | none => if allocated then (Function.update m k (some v), ⟨1, none⟩) else (m, ⟨-1, none⟩)
  | read k =>
      match m k with
      | some v => (m, ⟨1, some v⟩)
      | none => (m, ⟨0, none⟩)
  | update k v =>
      match m k with
      | some _ =>
          if allocated then (Function.update m k (some v), ⟨1, none⟩) else (m, ⟨-1, none⟩)
      | none => (m, ⟨0, none⟩)
  | delete k =>
      match m k with
      | some _ => (Function.update m k none, ⟨1, none⟩)
      | none => (m, ⟨0, none⟩)

/-- An operation changes the map at its own key only. -/
theorem apply_ne (m : K → Option V) (allocated : Bool) (op : MapOp K V) {k : K}
    (hk : k ≠ op.key) : (op.apply m allocated).1 k = m k := by
  cases op <;> simp only [apply] <;> split <;> (try split) <;>
    first | rfl | exact Function.update_of_ne hk _ _

/-- Two maps that agree at the key of an operation give it the same reply and agree there
afterwards. -/
theorem apply_congr {m m' : K → Option V} (allocated : Bool) (op : MapOp K V)
    (hkey : m op.key = m' op.key) :
    (op.apply m allocated).2 = (op.apply m' allocated).2 ∧
      (op.apply m allocated).1 op.key = (op.apply m' allocated).1 op.key := by
  cases op <;> simp only [key] at hkey <;> simp only [apply, hkey, key] <;> split <;>
    (try split) <;> simp [hkey]

/-- An operation that answers `-1` has changed nothing. -/
theorem apply_of_code_neg {m : K → Option V} {allocated : Bool} {op : MapOp K V}
    (hcode : (op.apply m allocated).2.code = -1) : (op.apply m allocated).1 = m := by
  cases op <;> simp only [apply] at hcode ⊢ <;> split at hcode <;> (try split at hcode) <;>
    simp_all

end MapOp

end SysProg.Kvs
