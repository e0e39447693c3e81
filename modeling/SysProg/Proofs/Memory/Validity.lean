import Mathlib.Data.List.Perm.Subperm
import SysProg.Proofs.Memory.Merge

/-!
# `SysProg.Proofs.Memory.Validity`: the assertions hold

A heap that is represented between two calls passes `check_heap_validity`, so no assertion of
a debug build fails there. The two walks of the check follow the blocks and the lists.
-/

set_option autoImplicit false

namespace SysProg.Memory

open SysProg.Lib

/-- A block of the heap passes `chunk_is_valid`. -/
theorem Good.isValid {m g : Mem} {b : Block} {start stop : Nat} (h : Good m g b)
    (hstart : start ≤ b.addr) (hstop : b.stop ≤ stop) :
    chunkIsValid m b.addr start stop = true := by
  have hpos := h.fits.pos
  have hspan := h.fits.span_ge
  unfold Block.stop at hstop
  have hfoot : b.foot < stop := by
    unfold Block.foot
    omega
  unfold chunkIsValid
  rw [getFooter_eq h.fits h.header, h.header, h.footer]
  rw [if_neg (by omega), if_neg (by omega), if_neg (by omega), if_neg (by omega),
    if_neg (by omega)]
  exact decide_eq_true rfl

namespace Rep

variable {ι : Type} {binOf : Int → Option ι} {h : Heap ι} {g : Mem} {bs pre suf : List Block}
  {b d : Block} {ls : ι → List Nat}

/-- The walk over the blocks from any of them on. Each block is valid, knows the one in front of it,
and no two of them in a row are free. -/
theorem checkBlocks_eq (r : Rep binOf h g (pre ++ suf) ls)
    (hsettled : ∀ b ∈ pre ++ suf, b.Settled) (hadj : NoAdjacentFree (pre ++ suf)) {fuel : Nat}
    (hfuel : suf.length < fuel) :
    checkBlocks h fuel ((pre.getLast?.map Block.addr).getD 0)
      ((suf.head?.map Block.addr).getD 0) = .ok true := by
  -- The walk has passed `pre` and stands at the first block of `suf`.
  induction suf generalizing pre fuel with
  | nil =>
      cases fuel with
      | zero => omega
      | succ fuel => rfl
  | cons b suf ih =>
      cases fuel with
      | zero => omega
      | succ fuel =>
          have hb : b ∈ pre ++ b :: suf := by simp
          have hgood := r.phys.good b hb
          have hpos := hgood.fits.pos
          obtain ⟨hlo, hhi⟩ := r.phys.tiles.mem_bounds hb
          have hvalid := hgood.isValid hlo hhi
          have hstatus := r.status_iff hb (hsettled b hb)
          have hnext := r.nextPhys
          -- Two free blocks in a row would be adjacent in the list of blocks.
          have hpair : ¬ ((pre.getLast?.map Block.addr).getD 0 ≠ 0 ∧
              chunkGetStatus h.mem ((pre.getLast?.map Block.addr).getD 0) = chunkFree ∧
              chunkGetStatus h.mem b.addr = chunkFree) := by
            intro ⟨hne, hprev, hself⟩
            rcases List.eq_nil_or_concat pre with rfl | ⟨pre, d, rfl⟩
            · exact hne rfl
            · rw [List.concat_eq_append] at r hsettled hadj hprev
              rw [List.getLast?_concat, Option.map_some, Option.getD_some] at hprev
              have hd : d ∈ (pre ++ [d]) ++ b :: suf := by simp
              have hfree := (r.status_iff hd (hsettled d hd)).mp hprev
              have hboth := (List.isChain_append.mp hadj).2.2 d (by simp) b (by simp)
              exact hboth ⟨hfree, hstatus.mp hself⟩
          have happend : pre ++ b :: suf = (pre ++ [b]) ++ suf := by simp
          rw [happend] at r hsettled hadj
          rw [List.length_cons] at hfuel
          have hrest := ih r hsettled hadj (show suf.length < fuel by omega)
          rw [List.getLast?_concat, Option.map_some, Option.getD_some] at hrest
          rw [List.head?_cons, Option.map_some, Option.getD_some, checkBlocks,
            if_neg (by omega), hvalid, if_neg (by decide), if_neg hpair, hnext]
          exact hrest

/-- The walk over a list from any of its nodes on. Each node is a free block of this list, and its
two neighbours link to it. -/
theorem checkList_eq [DecidableEq ι] (r : Rep binOf h g bs ls) {i : ι} {xs ys : List Nat}
    (hls : ls i = xs ++ ys) {fuel : Nat} (hfuel : ys.length < fuel) :
    checkList binOf h i fuel (ys.head?.getD 0) = .ok true := by
  -- The walk has passed the nodes `xs` and stands at the first of `ys`.
  induction ys generalizing xs fuel with
  | nil =>
      cases fuel with
      | zero => omega
      | succ fuel => rfl
  | cons c ys ih =>
      cases fuel with
      | zero => omega
      | succ fuel =>
          have hlinked := r.linked i
          have hnodup := r.nodup i
          rw [hls] at hlinked hnodup
          have hnext := hlinked.next_eq
          have hprev := hlinked.prev_eq
          have hmem : c ∈ ls i := by
            rw [hls]
            simp
          obtain ⟨b, hb, rfl, hfree, hbin⟩ := r.block_of_mem hmem
          have hgood := r.phys.good b hb
          have hpos := hgood.fits.pos
          -- Only the first node is the head, and its back link is `NULL`.
          have hfirst : ¬ (b.addr = h.heads i ∧ chunkGetPrevFree h.mem b.addr ≠ 0) := by
            intro ⟨hhead, hne⟩
            cases xs with
            | nil =>
                rw [hprev] at hne
                exact hne rfl
            | cons x xs =>
                have hx : h.heads i = x := hlinked.1
                rw [hx] at hhead
                simp [hhead] at hnodup
          -- The back link of the next node leads to this one.
          have hback : ¬ (chunkGetNextFree h.mem b.addr ≠ 0 ∧
              chunkGetPrevFree h.mem (chunkGetNextFree h.mem b.addr) ≠ b.addr) := by
            intro ⟨hne, hneq⟩
            cases ys with
            | nil =>
                rw [hnext] at hne
                exact hne rfl
            | cons y ys =>
                have happend : xs ++ b.addr :: y :: ys = (xs ++ [b.addr]) ++ y :: ys := by simp
                rw [happend] at hlinked
                have hyprev := hlinked.prev_eq
                rw [List.getLast?_concat, Option.getD_some] at hyprev
                rw [hnext, List.head?_cons, Option.getD_some] at hneq
                exact hneq hyprev
          rw [List.length_cons] at hfuel
          have hsplit : ls i = (xs ++ [b.addr]) ++ ys := by
            rw [hls]
            simp
          have hrest := ih hsplit (show ys.length < fuel by omega)
          rw [List.head?_cons, Option.getD_some, checkList, if_neg (by omega)]
          simp only [hgood.free hfree, hgood.header, hbin]
          rw [if_neg (by simp), if_neg hfirst, if_neg hback, if_neg (by simp), hnext]
          exact hrest

/-- The number of blocks is bounded by the address space. -/
theorem length_lt (r : Rep binOf h g bs ls) : bs.length < 2 ^ 64 := by
  have hlen := r.phys.tiles.length_le fun b hb => (r.phys.good b hb).fits.span_ge
  have hlt := r.phys.hi_lt
  omega

/-- So is the number of nodes. -/
theorem nodes_lt (r : Rep binOf h g bs ls) (i : ι) : (ls i).length < 2 ^ 64 := by
  have hlen := r.length_lt
  -- The nodes are distinct addresses of blocks.
  have hsub : ls i ⊆ bs.map Block.addr := by
    intro c hc
    obtain ⟨b, hb, haddr, _⟩ := r.block_of_mem hc
    exact List.mem_map.mpr ⟨b, hb, haddr⟩
  -- Distinct nodes among the blocks are not more than the blocks.
  have hle := ((r.nodup i).subperm hsub).length_le
  rw [List.length_map] at hle
  omega

/-- The walk over a list from its head. -/
theorem checkList_head [DecidableEq ι] (r : Rep binOf h g bs ls) (i : ι) :
    checkList binOf h i (2 ^ 64) (h.heads i) = .ok true := by
  rw [(r.linked i).head_eq]
  have hsplit : ls i = [] ++ ls i := rfl
  exact r.checkList_eq hsplit (r.nodes_lt i)

/-- The check of the lists passes. Each list ends, and each of its nodes is a free block of its bin.
-/
theorem checkLists_eq [DecidableEq ι] (r : Rep binOf h g bs ls) (bins : List ι) :
    checkLists binOf h bins = .ok true := by
  induction bins with
  | nil => rfl
  | cons i bins ih =>
      rw [checkLists, r.checkList_head i]
      exact ih

/-- A heap between two calls passes the check. The walk over the blocks and those over the lists all
come to their ends. -/
theorem checkHeapValidity_eq [DecidableEq ι] (r : Rep binOf h g bs ls) (bins : List ι)
    (hsettled : ∀ b ∈ bs, b.Settled) (hadj : NoAdjacentFree bs) :
    checkHeapValidity binOf bins h = .ok true := by
  have hpos := r.phys.pos
  have hle := r.phys.tiles.le
  unfold checkHeapValidity
  rw [if_neg (by omega), if_neg (by omega)]
  cases hbs : bs with
  | nil =>
      rw [hbs] at r
      -- An empty heap has no node, so every head is `NULL`.
      have hempty : ∀ i, h.heads i = 0 := by
        intro i
        by_contra hne
        obtain ⟨b, hb, _⟩ := r.block_of_mem (r.head_mem hne)
        cases hb
      rw [if_pos (show h.lo = h.hi from r.phys.tiles)]
      simp [hempty]
  | cons b rest =>
      rw [hbs] at r hsettled hadj
      have hspan := (r.phys.good b List.mem_cons_self).fits.span_ge
      have hlo : b.addr = h.lo := r.phys.tiles.1
      have hrest := r.phys.tiles.2.le
      unfold Block.stop at hrest
      have hwalk := Rep.checkBlocks_eq (show Rep binOf h g ([] ++ b :: rest) ls from r)
        hsettled hadj r.length_lt
      rw [List.head?_cons, Option.map_some, Option.getD_some, hlo] at hwalk
      -- The heap has a block, so its ends differ and both walks are made.
      rw [if_neg (by omega)]
      show (checkBlocks h (2 ^ 64) 0 h.lo).bind _ = _
      rw [show checkBlocks h (2 ^ 64) 0 h.lo = .ok true from hwalk]
      exact r.checkLists_eq bins

end Rep

end SysProg.Memory
