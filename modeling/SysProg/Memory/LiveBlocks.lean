import Mathlib.Data.List.Nodup
import SysProg.Lib.Arena
import SysProg.Memory.Allocator

/-!
# `SysProg.Memory.LiveBlocks`: the allocations of a program in an arena

The managers under `reference/` have blocks with a header of one unit. `LiveBlocks` says that the
pieces of an arena in use are exactly the blocks of the allocations of the program. Taking a
block, giving one back and growing keep that.
-/

set_option autoImplicit false

namespace SysProg.Memory

open SysProg.Lib

/-- The length of the block for a size: the header and the payload, in whole units. -/
def blockLen (size : Nat) : Nat := chunkUnit * (1 + (size + (chunkUnit - 1)) / chunkUnit)

/-- A block is never empty, as it has at least its header. -/
theorem blockLen_pos (size : Nat) : 0 < blockLen size :=
  Nat.mul_pos (by decide) (Nat.add_pos_left Nat.one_pos _)

/-- The same for a size as a request has it. -/
theorem blockLen_toNat_pos (size : UInt64) : 0 < blockLen size.toNat := blockLen_pos _

/-- The payload of a block has room for the size. -/
theorem le_blockLen (size : Nat) : chunkUnit + size ≤ blockLen size := by
  unfold blockLen chunkUnit
  omega

/-- The block of an allocation. -/
def blockOf (r : Nat × Nat) : Piece := ⟨r.1 - chunkUnit, blockLen r.2, false⟩

/-- The pieces in use are the blocks of the allocations. -/
structure LiveBlocks (a : Arena) (live : List (Nat × Nat)) : Prop where
  used : (used a.pieces).Perm (live.map blockOf)
  header : ∀ r ∈ live, chunkUnit ≤ r.1

namespace LiveBlocks

variable {a : Arena} {live : List (Nat × Nat)} {r q : Nat × Nat} {p : Piece}
  {pre suf : List Piece} {size n : Nat}

/-- In the empty arena nothing is live. -/
theorem empty (lo : Nat) : LiveBlocks (Arena.empty lo) [] :=
  ⟨List.Perm.refl _, fun r hr => by cases hr⟩

/-- The block of an allocation is a piece. -/
theorem mem (h : LiveBlocks a live) (hr : r ∈ live) : blockOf r ∈ a.pieces :=
  (mem_used.mp (h.used.mem_iff.mpr (List.mem_map_of_mem hr))).1

/-- Its payload is in use. -/
theorem inUse (h : LiveBlocks a live) (hr : r ∈ live) {x : Nat} (hlo : r.1 ≤ x)
    (hhi : x < r.1 + r.2) : InUse a.pieces x := by
  have hheader := h.header r hr
  have hlen := le_blockLen r.2
  refine ⟨blockOf r, mem_used.mpr ⟨h.mem hr, rfl⟩, ?_, ?_⟩
  · show r.1 - chunkUnit ≤ x
    omega
  · show x < r.1 - chunkUnit + blockLen r.2
    omega

/-- The pointers are different. -/
theorem nodup (h : LiveBlocks a live) : (live.map Prod.fst).Nodup := by
  have hstarts : ((live.map blockOf).map Piece.start).Nodup :=
    (h.used.map Piece.start).nodup_iff.mp
      (a.tiled.nodup.sublist (List.Sublist.map _ List.filter_sublist))
  rw [List.map_map] at hstarts
  refine List.Nodup.of_map (fun p => p - chunkUnit) ?_
  rw [List.map_map]
  exact hstarts

/-- Two allocations do not overlap, headers included. -/
theorem disjoint (h : LiveBlocks a live) :
    live.Pairwise fun r q => (blockOf r).stop ≤ (blockOf q).start ∨
      (blockOf q).stop ≤ (blockOf r).start := by
  refine (List.pairwise_map.mp h.nodup).imp_of_mem fun {r q} hr hq hne => ?_
  rcases a.tiled.apart (h.mem hr) (h.mem hq) with heq | hle
  · have hstart : r.1 - chunkUnit = q.1 - chunkUnit := congrArg Piece.start heq
    have hrh := h.header r hr
    have hqh := h.header q hq
    exact absurd (show r.1 = q.1 by omega) hne
  · exact hle

/-- The end of a free piece becomes an allocation. The pieces in use are the old ones and this one.
-/
theorem carve (h : LiveBlocks a live) (hp : p ∈ a.pieces) (hfree : p.free = true)
    (hn : blockLen size ≤ p.len) :
    LiveBlocks (a.carve p.start (blockLen size) (blockLen_pos size))
      ((p.stop - blockLen size + chunkUnit, size) :: live) := by
  obtain ⟨pre, suf, hps⟩ := List.append_of_mem hp
  have ht := a.tiled
  have hused := h.used
  rw [hps] at ht hused
  rw [SysProg.Lib.used, List.filter_append, List.filter_cons, hfree] at hused
  constructor
  · show (SysProg.Lib.used (SysProg.Lib.carve p.start (blockLen size) a.pieces)).Perm _
    rw [hps, ht.used_carve hfree hn, List.map_cons]
    have hblock : blockOf (p.stop - blockLen size + chunkUnit, size) = p.tail (blockLen size) := by
      show (⟨p.stop - blockLen size + chunkUnit - chunkUnit, blockLen size, false⟩ : Piece) = _
      rw [Nat.add_sub_cancel]
      rfl
    rw [hblock]
    exact List.perm_middle.trans (hused.cons _)
  · intro r hr
    rcases List.mem_cons.mp hr with rfl | hr
    · exact Nat.le_add_left _ _
    · exact h.header r hr

/-- More free addresses do not matter. -/
theorem extend (h : LiveBlocks a live) (hn : 0 < n) : LiveBlocks (a.extend n hn) live := by
  refine ⟨?_, h.header⟩
  show (SysProg.Lib.used (SysProg.Lib.extend n a.hi a.pieces)).Perm _
  rw [used_extend]
  exact h.used

/-- A block is given back. It is the only one with its pointer, so exactly one allocation goes. -/
theorem release (h : LiveBlocks a live) (hr : r ∈ live) :
    LiveBlocks (a.release (r.1 - chunkUnit)) (live.filter fun q => q.1 ≠ r.1) := by
  have hmem := h.mem hr
  obtain ⟨pre, suf, hps⟩ := List.append_of_mem hmem
  have ht := a.tiled
  have hused := h.used
  rw [hps] at ht hused
  rw [SysProg.Lib.used, List.filter_append, List.filter_cons] at hused
  -- The allocation is the only one with this pointer.
  obtain ⟨front, back, rfl⟩ := List.append_of_mem hr
  have hnodup := h.nodup
  rw [List.map_append, List.map_cons, List.nodup_middle, List.nodup_cons, ← List.map_append]
    at hnodup
  have hothers : ∀ q ∈ front ++ back, q.1 ≠ r.1 := fun q hq heq =>
    hnodup.1 (heq ▸ List.mem_map_of_mem hq)
  have hfilter : (front ++ r :: back).filter (fun q => q.1 ≠ r.1) = front ++ back := by
    rw [List.filter_append, List.filter_cons, if_neg (by simp only [ne_eq, not_true, decide_false,
      Bool.false_eq_true, not_false_eq_true]), ← List.filter_append]
    exact List.filter_eq_self.mpr fun q hq => decide_eq_true (hothers q hq)
  constructor
  · show (SysProg.Lib.used (SysProg.Lib.release (blockOf r).start a.pieces)).Perm _
    rw [hps, ht.used_release, hfilter, List.map_append]
    rw [List.map_append, List.map_cons] at hused
    exact ((List.perm_middle.symm.trans hused).trans List.perm_middle).cons_inv
  · intro q hq
    exact h.header q (List.mem_of_mem_filter hq)

end LiveBlocks

end SysProg.Memory
