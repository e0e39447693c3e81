import Mathlib.Algebra.Group.Nat.Defs
import Mathlib.Data.List.Basic

/-!
# `SysProg.Lib.TicketQueue`: queues numbered by a wrapping 64-bit counter

A ticket lock numbers its queue with a counter that wraps at `2 ^ 64`. `Tickets now ks`
says that the tickets `ks`, oldest first, are `now`, `now + 1`, `now + 2` and so on.

* `Tickets.push` and `Tickets.pop` are the two queue operations.
* `Tickets.head_of_turn`: while at most `2 ^ 64` tickets are out, only the oldest one is
  equal to `now`. This is the one fact that needs the bound.
-/

set_option autoImplicit false

namespace SysProg.Lib

/-- The tickets `ks` are consecutive from `now` on, modulo `2 ^ 64`. -/
def Tickets : UInt64 → List UInt64 → Prop
  | _, [] => True
  | now, k :: ks => k = now ∧ Tickets (now + 1) ks

namespace Tickets

@[simp] theorem nil (now : UInt64) : Tickets now [] := trivial

@[simp] theorem cons_iff (now k : UInt64) (ks : List UInt64) :
    Tickets now (k :: ks) ↔ k = now ∧ Tickets (now + 1) ks := Iff.rfl

/-- Serving the oldest ticket moves the counter on by one. -/
theorem pop {now k : UInt64} {ks : List UInt64} (h : Tickets now (k :: ks)) :
    Tickets (now + 1) ks := h.2

/-- Moving the counter first or the index first is the same. -/
theorem shift (now : UInt64) (n : Nat) :
    now + 1 + UInt64.ofNat n = now + UInt64.ofNat (n + 1) := by
  rw [UInt64.ofNat_add, UInt64.add_assoc, UInt64.add_comm 1]
  rfl

/-- The ticket handed out after `ks` extends the queue. -/
theorem push {now : UInt64} {ks : List UInt64} (h : Tickets now ks) :
    Tickets now (ks ++ [now + UInt64.ofNat ks.length]) := by
  induction ks generalizing now with
  | nil => exact ⟨by simp, trivial⟩
  | cons k ks ih =>
      have hrest := ih h.2
      rw [shift] at hrest
      exact ⟨h.1, hrest⟩

/-- The ticket at position `i` is `now + i`. -/
theorem getElem {now : UInt64} {ks : List UInt64} (h : Tickets now ks) (i : Nat)
    (hi : i < ks.length) : ks[i] = now + UInt64.ofNat i := by
  induction ks generalizing now i with
  | nil => simp at hi
  | cons k ks ih =>
      cases i with
      | zero => simp [h.1]
      | succ i =>
          rw [List.getElem_cons_succ, ih h.2 i (by simpa using hi), shift]

/-- A ticket of the rest of the queue is not being served yet. -/
theorem ne_of_mem_tail {now k : UInt64} {ks : List UInt64} (h : Tickets now (k :: ks))
    (hlen : (k :: ks).length ≤ 2 ^ 64) (hk : now ∈ ks) : False := by
  obtain ⟨i, hi, hget⟩ := List.mem_iff_getElem.mp hk
  have heq := getElem h.2 i hi
  rw [hget, shift] at heq
  -- `now = now + (i + 1)` forces `i + 1` to be a multiple of `2 ^ 64`.
  have hmod := congrArg UInt64.toNat heq
  simp only [UInt64.toNat_add, UInt64.toNat_ofNat'] at hmod
  have hnow := now.toNat_lt
  simp only [List.length_cons] at hlen
  omega

/-- With at most `2 ^ 64` tickets out, no two are equal. -/
theorem nodup {now : UInt64} {ks : List UInt64} (h : Tickets now ks)
    (hlen : ks.length ≤ 2 ^ 64) : ks.Nodup := by
  induction ks generalizing now with
  | nil => exact List.nodup_nil
  | cons k ks ih =>
      have hrest : ks.length ≤ 2 ^ 64 := by
        simp only [List.length_cons] at hlen
        omega
      refine List.nodup_cons.mpr ⟨fun hk => ?_, ih h.2 hrest⟩
      exact ne_of_mem_tail h hlen (h.1 ▸ hk)

/-- With at most `2 ^ 64` tickets out, an owner whose ticket is being served is the head
of the queue. -/
theorem head_of_turn {β : Type*} (ticket : β → UInt64) {now : UInt64} {q : List β} {b : β}
    (h : Tickets now (q.map ticket)) (hlen : q.length ≤ 2 ^ 64) (hb : b ∈ q)
    (hturn : ticket b = now) : ∃ rest, q = b :: rest := by
  cases q with
  | nil => simp at hb
  | cons c rest =>
      rcases List.mem_cons.mp hb with rfl | hrest
      · exact ⟨rest, rfl⟩
      · exfalso
        refine ne_of_mem_tail h (by simpa using hlen) ?_
        rw [← hturn]
        exact List.mem_map_of_mem hrest

end Tickets

end SysProg.Lib
