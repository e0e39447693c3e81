import Mathlib.Algebra.Group.Nat.Defs
import Mathlib.Data.Nat.Basic

/-!
# `SysProg.Lib.ByteMemory`: words in a byte memory

A memory maps addresses to bytes. `load m a n` is the little-endian number in the `n` bytes
from `a` on, and `store m a n v` writes one.

* `load_store` reads back what was stored.
* `load_store_of_disjoint` reads a word that does not overlap the one stored.
* `load_congr` says that a load depends on its own bytes only, and `store_byte` says which
  bytes a store leaves alone.
-/

set_option autoImplicit false

namespace SysProg.Lib

/-- A byte memory. -/
structure Mem where
  byte : Nat → UInt8

/-- The number in the `n` bytes from `a` on. -/
def load (m : Mem) (a : Nat) : Nat → Nat
  | 0 => 0
  | n + 1 => (m.byte a).toNat + 256 * load m (a + 1) n

/-- Writes `v` into the `n` bytes from `a` on. -/
def store (m : Mem) (a n v : Nat) : Mem where
  byte x := if a ≤ x ∧ x < a + n then UInt8.ofNat (v / 256 ^ (x - a)) else m.byte x

/-- A store leaves the bytes outside its range alone. -/
theorem store_byte {m : Mem} {a n v x : Nat} (h : x < a ∨ a + n ≤ x) :
    (store m a n v).byte x = m.byte x :=
  if_neg (by omega)

/-- A load depends on its own bytes only. -/
theorem load_congr {m m' : Mem} {a n : Nat} (h : ∀ x, a ≤ x → x < a + n → m'.byte x = m.byte x) :
    load m' a n = load m a n := by
  induction n generalizing a with
  | zero => rfl
  | succ n ih =>
      rw [load, load, h a (by omega) (by omega), ih fun x hlo hhi => h x (by omega) (by omega)]

/-- A load of `n` bytes is a number of `n` digits. -/
theorem load_lt (m : Mem) (a n : Nat) : load m a n < 256 ^ n := by
  induction n generalizing a with
  | zero => exact Nat.one_pos
  | succ n ih =>
      have hhead := (m.byte a).toNat_lt
      have htail := ih (a + 1)
      rw [load, Nat.pow_succ]
      omega

/-- A load that does not overlap a store does not see it. -/
theorem load_store_of_disjoint {m : Mem} {a n b k v : Nat} (h : a + n ≤ b ∨ b + k ≤ a) :
    load (store m b k v) a n = load m a n :=
  load_congr fun _ hlo hhi => store_byte (by omega)

/-- A load from the `i`-th byte of a stored number gives its higher digits. -/
theorem load_store_digits (m : Mem) (a v : Nat) {n i k : Nat} (h : i + k ≤ n) :
    load (store m a n v) (a + i) k = v / 256 ^ i % 256 ^ k := by
  induction k generalizing i with
  | zero => rw [load, Nat.pow_zero, Nat.mod_one]
  | succ k ih =>
      have hbyte : ((store m a n v).byte (a + i)).toNat = v / 256 ^ i % 256 := by
        simp only [store]
        rw [if_pos (by omega), Nat.add_sub_cancel_left]
        exact UInt8.toNat_ofNat
      have hrest := ih (i := i + 1) (by omega)
      rw [load, hbyte, show a + i + 1 = a + (i + 1) by omega, hrest, Nat.pow_succ 256 i,
        ← Nat.div_div_eq_div_mul, Nat.pow_succ, Nat.mul_comm (256 ^ k) 256, Nat.mod_mul]

/-- A load gives back what was stored there. -/
theorem load_store (m : Mem) (a : Nat) {n v : Nat} (h : v < 256 ^ n) :
    load (store m a n v) a n = v := by
  have hdigits := load_store_digits m a v (show 0 + n ≤ n by omega)
  rwa [Nat.add_zero, Nat.pow_zero, Nat.div_one, Nat.mod_eq_of_lt h] at hdigits

end SysProg.Lib
