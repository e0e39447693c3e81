import SysProg.Memory.Physical
import SysProg.Proofs.Memory.Validity
import SysProg.Proofs.Memory.Carve

/-!
# `SysProg.Proofs.Memory.Grow`: the search and the growth of the heap

* `Rep.search_spec`: the search of `heapmgr_malloc` finds a free block that is large enough, or
  there is none in the lists it looks at.
* `Rep.extend`: a new block at the end of the heap.
* `Rep.grow_spec`: `sys_grow` adds a block, merges it with a free last one, and puts it into
  its list. When `sbrk` fails it changes nothing.
-/

set_option autoImplicit false

namespace SysProg.Memory

open SysProg.Lib

variable {ι : Type}

/-! ### The search -/

/-- The search in one list finds a block that is large enough, or all blocks of the list are too
small. The fuel is enough for the list. -/
theorem searchList_spec {m : Mem} {prev : Nat → Nat} {before head : Nat} {l : List Nat}
    {need : Int} {fuel : Nat} (hl : Linked (chunkGetNextFree m) prev 0 before head l)
    (hfuel : l.length < fuel) :
    searchList m need fuel head = .ok none ∧ (∀ c ∈ l, chunkGetSpan m c < need) ∨
      ∃ c ∈ l, searchList m need fuel head = .ok (some c) ∧ need ≤ chunkGetSpan m c := by
  -- The search has come to `head`, the first of the nodes `l` that are left.
  induction l generalizing before head fuel with
  | nil =>
      cases fuel with
      | zero => omega
      | succ fuel =>
          rw [show head = 0 from hl]
          exact Or.inl ⟨rfl, fun c hc => by cases hc⟩
  | cons c l ih =>
      cases fuel with
      | zero => omega
      | succ fuel =>
          obtain ⟨rfl, hnull, _, hrest⟩ := hl
          rw [searchList, if_neg hnull]
          by_cases hspan : need ≤ chunkGetSpan m head
          · rw [if_pos hspan]
            exact Or.inr ⟨head, List.mem_cons_self, rfl, hspan⟩
          -- The block is too small, and the search goes on behind it.
          · rw [if_neg hspan]
            rw [List.length_cons] at hfuel
            rcases ih hrest (show l.length < fuel by omega) with ⟨hnone, hall⟩ | ⟨d, hd, hsome⟩
            · refine Or.inl ⟨hnone, fun d hd => ?_⟩
              rcases List.mem_cons.mp hd with rfl | hd
              · omega
              · exact hall d hd
            · exact Or.inr ⟨d, List.mem_cons_of_mem _ hd, hsome⟩

namespace Rep

variable {binOf : Int → Option ι} {h : Heap ι} {g : Mem} {bs pre suf : List Block}
  {b : Block} {ls : ι → List Nat}

/-- The search in some lists, one after the other. When it finds nothing, no free block in these
lists has the span. -/
theorem search_spec (r : Rep binOf h g bs ls) (need : Int) (bins : List ι) :
    searchLists h need bins = .ok none ∧
        (∀ b ∈ bs, b.state = .free → ∀ i ∈ bins, binOf b.span = some i → (b.span : Int) < need) ∨
      ∃ b ∈ bs, b.state = .free ∧ searchLists h need bins = .ok (some b.addr) ∧
        need ≤ b.span := by
  induction bins with
  | nil => exact Or.inl ⟨rfl, fun b _ _ i hi => by cases hi⟩
  | cons i bins ih =>
      rw [searchLists]
      rcases searchList_spec (r.linked i) (r.nodes_lt i) with ⟨hnone, hall⟩ | ⟨c, hc, hsome, hspan⟩
      -- There is no such block in the list `i`, and the next list is searched.
      · rw [hnone]
        rcases ih with ⟨hnone', hall'⟩ | hfound
        · refine Or.inl ⟨hnone', fun b hb hfree j hj hbin => ?_⟩
          rcases List.mem_cons.mp hj with rfl | hj
          · have hsmall := hall b.addr (r.mem_of_free hb hfree hbin)
            rwa [(r.phys.good b hb).header] at hsmall
          · exact hall' b hb hfree j hj hbin
        · exact Or.inr hfound
      · rw [hsome]
        obtain ⟨b, hb, rfl, hfree, _⟩ := r.block_of_mem hc
        rw [(r.phys.good b hb).header] at hspan
        exact Or.inr ⟨b, hb, hfree, rfl, hspan⟩

/-! ### The growth -/

/-- A new block at the end of the heap. The bytes of the other blocks are as before, and it is in no
list. -/
theorem extend (r : Rep binOf h g bs ls) {h' : Heap ι} (haddr : b.addr = h.hi)
    (hgood : Good h'.mem g b) (hfree : b.state ≠ .free) (hlo : h'.lo = h.lo)
    (hhi : h'.hi = b.stop) (hheads : h'.heads = h.heads)
    (hout : ∀ x, x < h.hi → h'.mem.byte x = h.mem.byte x) :
    Rep binOf h' g (bs ++ [b]) ls := by
  have htiles : Tiles h'.lo (bs ++ [b]) h'.hi := by
    rw [hlo, hhi]
    exact tiles_append.mpr ⟨h.hi, r.phys.tiles, haddr, rfl⟩
  have hlt : h'.hi < 2 ^ 64 := by
    rw [hhi]
    exact hgood.fits.stop_lt
  -- The old blocks end before the new one, so their bytes and links are as before.
  have hbytes : ∀ d ∈ bs, ∀ x, d.addr ≤ x → x < d.stop → h'.mem.byte x = h.mem.byte x := by
    intro d hd x _ hx
    have hle := (r.phys.tiles.mem_bounds hd).2
    exact hout x (by omega)
  have hphys : Phys h'.mem g h'.lo (bs ++ [b]) h'.hi := by
    refine ⟨htiles, ?_, hlt, by rw [hlo]; exact r.phys.pos⟩
    intro d hd
    rcases List.mem_append.mp hd with hd | hd
    · exact (r.phys.good d hd).congr (hbytes d hd)
    · rw [List.mem_singleton.mp hd]
      exact hgood
  have hlinks : ∀ i, ∀ c ∈ ls i, chunkGetNextFree h'.mem c = chunkGetNextFree h.mem c ∧
      chunkGetPrevFree h'.mem c = chunkGetPrevFree h.mem c := by
    intro i c hc
    obtain ⟨d, hd, rfl, _⟩ := r.block_of_mem hc
    exact (r.phys.good d hd).links_congr (hbytes d hd)
  refine ⟨hphys, ?_, r.nodup, ?_⟩
  · intro i
    rw [hheads]
    exact (r.linked i).congr (fun c hc => (hlinks i c hc).1) fun c hc => (hlinks i c hc).2
  · intro i c
    rw [r.mem_iff]
    constructor
    · intro ⟨d, hd, hrest⟩
      exact ⟨d, List.mem_append_left _ hd, hrest⟩
    · intro ⟨d, hd, hdaddr, hdfree, hdbin⟩
      rcases List.mem_append.mp hd with hd | hd
      · exact ⟨d, hd, hdaddr, hdfree, hdbin⟩
      · rw [List.mem_singleton.mp hd] at hdfree
        exact absurd hdfree hfree

/-- The new block at the break, before it is merged. -/
theorem extend_init (r : Rep binOf h g bs ls) (hraw : b.state = .raw) (haddr : b.addr = h.hi)
    (hfits : b.Fits) :
    Rep binOf (Heap.setMem { h with brk := b.stop, hi := b.stop }
      (initBlock h.mem b.addr b.span chunkFree)) g (bs ++ [b]) ls := by
  obtain ⟨hinit, hout⟩ := good_initBlock h.mem g hfits (Or.inl ⟨rfl, rfl⟩)
  have hforget := hinit.forget
  obtain ⟨m, hm⟩ : ∃ m, m = initBlock h.mem b.addr b.span chunkFree := ⟨_, rfl⟩
  rw [← hm] at hforget hout ⊢
  have hgood : Good m g b := by
    rw [← hraw] at hforget
    exact hforget
  have hfree : b.state ≠ .free := by
    rw [hraw]
    exact BlockState.noConfusion
  refine r.extend haddr hgood hfree rfl rfl rfl ?_
  intro x hx
  exact hout x (Or.inl (by omega))

end Rep

/-- The heap grows by at least the request with its header and footer. -/
theorem le_growSpan (needUnits : Nat) : needUnits + 2 ≤ growSpan needUnits := by
  unfold growSpan
  split <;> omega

/-- The blocks after the heap has grown. The new block is the last one. -/
def grown (bs : List Block) (hi needUnits : Nat) : List Block × Block :=
  let merged := absorbLeft bs ⟨hi, growSpan needUnits, .raw⟩
  (merged.1, { merged.2 with state := .free })

/-- The heap between two calls has room up to the limit of the break. -/
structure Heap.Bounded (h : Heap ι) : Prop where
  brk : h.brk = h.hi
  base : h.base = h.lo
  brk_le : h.brk ≤ h.limit
  limit_lt : h.limit < 2 ^ 64 - 1

/-- `sbrk` moves the break up when it may. -/
theorem Heap.Bounded.sbrk_granted {h : Heap ι} (hh : h.Bounded) (hle : h.lo ≤ h.hi) {k : Nat}
    (hroom : h.brk + k ≤ h.limit) : h.sbrk true k = (h.brk, { h with brk := h.brk + k }) := by
  have hbrk := hh.brk
  have hbase := hh.base
  unfold Heap.sbrk
  rw [if_pos ⟨rfl, by omega, by omega⟩, show ((h.brk : Int) + k).toNat = h.brk + k by omega]

/-- `sbrk` refuses, or moves the break up. -/
theorem Heap.Bounded.sbrk_cases {h : Heap ι} (hh : h.Bounded) (hle : h.lo ≤ h.hi)
    (granted : Bool) (k : Nat) :
    h.sbrk granted k = (sbrkFailed, h) ∨
      granted = true ∧ h.brk + k ≤ h.limit ∧
        h.sbrk granted k = (h.brk, { h with brk := h.brk + k }) := by
  by_cases hgrant : granted = true ∧ h.brk + k ≤ h.limit
  · obtain ⟨rfl, hroom⟩ := hgrant
    exact Or.inr ⟨rfl, hroom, hh.sbrk_granted hle hroom⟩
  · refine Or.inl ?_
    unfold Heap.sbrk
    rw [if_neg]
    intro ⟨htrue, _, hroom⟩
    exact hgrant ⟨htrue, by omega⟩

/-- What `sbrk` does when it does not fail. -/
theorem Heap.sbrk_of_ne_failed {h : Heap ι} {granted : Bool} {increment : Int}
    (h₀ : ¬ (h.sbrk granted increment).1 = sbrkFailed) :
    ∃ h₁, h.sbrk granted increment = (h.brk, h₁) ∧ (h₁.brk : Int) = h.brk + increment ∧
      h₁.lo = h.lo := by
  unfold Heap.sbrk at h₀ ⊢
  by_cases hgrant : granted = true ∧ (h.base : Int) ≤ h.brk + increment ∧
      h.brk + increment ≤ h.limit
  · have hbase := hgrant.2.1
    rw [if_pos hgrant]
    exact ⟨_, rfl, Int.toNat_of_nonneg (by omega), rfl⟩
  · rw [if_neg hgrant] at h₀
    exact absurd rfl h₀

/-- The span of a new block is an `int`. -/
theorem growSpan_le {needUnits : Nat} (hunits : needUnits ≤ 2147483645) :
    growSpan needUnits ≤ 2147483647 := by
  unfold growSpan sysMinAllocUnits
  split <;> omega

/-- The number of bytes that `sys_grow` asks `sbrk` for. -/
theorem bmod_bytes {n : Nat} (hn : n ≤ 2147483647) :
    Int.bmod ((n : Int) * chunkUnit) (2 ^ 64) = (16 * n : Nat) := by
  unfold chunkUnit Int.bmod
  simp only
  split <;> omega

section
variable [DecidableEq ι] {binOf : Int → Option ι} {h : Heap ι}

/-- The new block is joined with its neighbour. The break is moved before that, and stays. -/
theorem brk_growMerge {c : Nat} {span : Int} {g : Heap ι × Nat}
    (heq : growMerge binOf h c span = .ok g) : g.1.brk = h.brk := by
  unfold growMerge at heq
  by_cases hmerge : chunkGetPrevPhys h.mem c h.lo ≠ 0 ∧
      chunkGetStatus h.mem (chunkGetPrevPhys h.mem c h.lo) = chunkFree
  · simp only [if_pos hmerge] at heq
    obtain ⟨h₁, hdetach, rfl⟩ := map_eq_ok heq
    exact (SameBounds.setMem _ _).brk.trans (brk_freelistDetach hdetach)
  · simp only [if_neg hmerge] at heq
    rw [← Except.ok.inj heq]

/-- Only `sbrk` moves the break in `sys_grow`, whatever is in memory. -/
theorem brk_sysGrow {granted : Bool} {needUnits : Nat} {increment : Int} {h₁ : Heap ι}
    {g : Heap ι × Nat}
    (hbytes : Int.bmod ((growSpan needUnits : Int) * chunkUnit) (2 ^ 64) = increment)
    (hsbrk : h.sbrk granted increment = (h.brk, h₁)) (hok : ¬ h.brk = sbrkFailed)
    (heq : sysGrow binOf h granted needUnits = .ok g) : g.1.brk = h₁.brk := by
  have hspan : ((if needUnits < sysMinAllocUnits then sysMinAllocUnits else needUnits) + 2 : Nat)
      = growSpan needUnits := rfl
  unfold sysGrow at heq
  simp only [hspan, hbytes, hsbrk, if_neg hok] at heq
  obtain ⟨g₁, hg₁, hinsert⟩ := bind_eq_ok heq
  obtain ⟨h₂, hh₂, rfl⟩ := map_eq_ok hinsert
  rw [brk_freelistInsert hh₂, brk_growMerge hg₁]
  exact (SameBounds.setMem _ _).brk

end

namespace Rep

variable {binOf : Int → Option ι} {h : Heap ι} {g : Mem} {bs : List Block} {ls : ι → List Nat}
  [DecidableEq ι] {e : Block}

/-- `sys_grow` does not change anything, or adds a block. The block is merged with a free one in
front of it, and the break has moved. -/
theorem grow_spec (r : Rep binOf h g bs ls) (hcover : BinsCover binOf) (hh : h.Bounded)
    (hsettled : ∀ b ∈ bs, b.Settled) (granted : Bool) {needUnits : Nat}
    (hunits : needUnits ≤ 2147483645)
    (hsmall : granted = true → h.brk + 16 * growSpan needUnits ≤ h.limit →
      (grown bs h.hi needUnits).2.Small) :
    sysGrow binOf h granted needUnits = .ok (h, 0) ∨
      ∃ h' ls', sysGrow binOf h granted needUnits
          = .ok (h', (grown bs h.hi needUnits).2.addr) ∧
        h'.Bounded ∧ SameRange h h' ∧ h'.booted = h.booted ∧ h.brk < h'.brk ∧
        Rep binOf h' g ((grown bs h.hi needUnits).1 ++ [(grown bs h.hi needUnits).2]) ls' := by
  obtain ⟨n, hn⟩ : ∃ n, n = growSpan needUnits := ⟨_, rfl⟩
  obtain ⟨e, he⟩ : ∃ e : Block, e = ⟨h.hi, n, .raw⟩ := ⟨_, rfl⟩
  have hbrk := hh.brk
  have hlt := hh.limit_lt
  have hpos := r.phys.pos
  have hle := r.phys.tiles.le
  have hn_ge : 2 ≤ n := by
    have hgrow := le_growSpan needUnits
    omega
  have hn_le : n ≤ 2147483647 := hn ▸ growSpan_le hunits
  have hspan : ((if needUnits < sysMinAllocUnits then sysMinAllocUnits else needUnits) + 2 : Nat)
      = n := hn.symm
  have hgrown : grown bs h.hi needUnits
      = ((absorbLeft bs e).1, { (absorbLeft bs e).2 with state := .free }) := by
    rw [he, hn]
    rfl
  unfold sysGrow
  simp only [hspan, bmod_bytes hn_le]
  rcases hh.sbrk_cases hle granted (16 * n) with hrefused | ⟨htrue, hroom, hgranted⟩
  · rw [hrefused]
    rw [if_pos rfl]
    exact Or.inl rfl
  · have hok : ¬ h.brk = sbrkFailed := by
      unfold sbrkFailed
      omega
    have hexact : i32 (n : Int) = n := i32_eq (by omega) (by omega)
    rw [hgranted]
    simp only [hexact, if_neg hok]
    have haddr : e.addr = h.hi := by rw [he]
    have hespan : e.span = n := by rw [he]
    have hraw : e.state = .raw := by rw [he]
    have hstop : h.hi + 16 * n = e.stop := by rw [he, Block.stop]
    -- The new block is a part of the merged one, whose size is an `int`.
    have hmerged : (absorbLeft bs e).2.Small := by
      have hgrowSmall := hsmall htrue (hn ▸ hroom)
      rwa [hgrown] at hgrowSmall
    have hesmall : e.Small := by
      have hle := le_absorbLeft_span bs e
      unfold Block.Small at hmerged ⊢
      omega
    have hfits : e.Fits := by
      rw [he] at hesmall ⊢
      exact ⟨by simp only; omega, hn_ge, hesmall, by simp only; omega⟩
    have hopen : e.Open := Or.inr hraw
    have r₁ := r.extend_init hraw haddr hfits
    rw [haddr, hespan, ← hstop, ← hbrk] at r₁
    obtain ⟨h₁, hh₁⟩ : ∃ h₁ : Heap ι, h₁ = Heap.setMem
      { h with brk := h.brk + 16 * n, hi := h.brk + 16 * n } (initBlock h.mem h.brk n chunkFree) :=
      ⟨_, rfl⟩
    rw [← hh₁] at r₁ ⊢
    -- The new block is merged to the left like a block that is freed, and put into its list.
    have hmerge := r₁.growMerge_eq hcover hopen hsettled hmerged
    obtain ⟨h₂, ls₂, hleft, hsame₂, r₂⟩ := r₁.coalesceLeft_spec hcover hopen hsettled hmerged
    obtain ⟨h₃, ls₃, hinsert, hsame₃, r₃⟩ :=
      r₂.insert_spec hcover (absorbLeft_open hopen bs).ne_free
    -- Apart from the break and the end of the heap, only memory and heads have changed.
    have hset := SameBounds.setMem { h with brk := h.brk + 16 * n, hi := h.brk + 16 * n }
      (initBlock h.mem h.brk n chunkFree)
    rw [← hh₁] at hset
    have hsame := hset.trans (hsame₂.trans hsame₃)
    have hlo : h₃.lo = h.lo := hsame.lo
    have hlimit₃ : h₃.limit = h.limit := hsame.limit
    have hbase₃ : h₃.base = h.base := hsame.base
    have hhi₃ : h₃.hi = h.brk + 16 * n := hsame.hi
    have hbrk₃ : h₃.brk = h.brk + 16 * n := hsame.brk
    have hbase := hh.base
    rw [hgrown]
    rw [hleft, haddr, hespan, ← hbrk] at hmerge
    refine Or.inr ⟨h₃, ls₃, ?_, ?_, ⟨hbase₃, hlimit₃⟩, hsame.booted, by omega, r₃⟩
    · rw [hmerge]
      show (freelistInsert binOf h₂ _).map _ = _
      rw [hinsert]
      rfl
    · exact ⟨by omega, by omega, by omega, by omega⟩

end Rep

end SysProg.Memory
