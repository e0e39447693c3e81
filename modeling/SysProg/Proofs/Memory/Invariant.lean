import SysProg.Memory.HeapSpec
import SysProg.Proofs.Memory.Client

/-!
# `SysProg.Proofs.Memory.Invariant`: the heap managers are sound

The invariant of the runs is about lists of blocks with states. Here it is read back as
statements about the bytes of the memory, for both managers.

* `Client.Inv.wellFormed`: the heap, the free lists and the used blocks.
* `Client.Inv.liveIntact`: the data of the program.
* `heapmgr1_invariant`, `heapmgr2_invariant` and `live_data_intact` are the results
  about runs.
-/

set_option autoImplicit false

namespace SysProg.Memory

open SysProg.Lib

variable {ι : Type} {mgr : Manager ι} {h : Heap ι} {g : Mem} {bs : List Block}
  {ls : ι → List Nat} {s : Client ι}

/-! ### The heap -/

/-- The walk visits the blocks of a tiling. -/
theorem Tiles.walk {m : Mem} {lo hi : Nat} (htiles : Tiles lo bs hi)
    (hheader : ∀ b ∈ bs, chunkGetSpan m b.addr = b.span) : Walk m lo (bs.map Block.addr) hi := by
  induction bs generalizing lo with
  | nil => exact htiles
  | cons b bs ih =>
      obtain ⟨haddr, hrest⟩ := htiles
      have hwalk := ih hrest fun d hd => hheader d (List.mem_cons_of_mem _ hd)
      refine ⟨haddr, ?_⟩
      rw [hheader b List.mem_cons_self]
      exact hwalk

namespace Rest

/-- The status of a block between two calls. -/
theorem used_iff (r : Rest mgr h g bs ls) {b : Block} (hb : b ∈ bs) :
    chunkGetStatus h.mem b.addr = chunkUsed ↔ b.state = .live := by
  have hgood := r.rep.phys.good b hb
  constructor
  · intro hstatus
    -- A free block has the other status.
    rcases r.settled b hb with hs | hs
    · rw [hgood.free hs] at hstatus
      exact absurd hstatus (by decide)
    · exact hs
  · intro hlive
    exact hgood.used (Or.inr hlive)

/-- The status word of a block tells whether it is free. -/
theorem free_iff (r : Rest mgr h g bs ls) {b : Block} (hb : b ∈ bs) :
    chunkGetStatus h.mem b.addr = chunkFree ↔ b.state = .free :=
  r.rep.status_iff hb (r.settled b hb)

/-- Between two calls the heap is well formed. The blocks tile it, with headers, footers and lists
as they should be. -/
theorem wellFormed (r : Rest mgr h g bs ls) : WellFormed h (bs.map Block.addr) := by
  refine ⟨r.rep.phys.tiles.walk fun b hb => (r.rep.phys.good b hb).header, ?_, ?_, ?_, ?_⟩
  · intro c hc
    obtain ⟨b, hb, rfl⟩ := List.mem_map.mp hc
    have hgood := r.rep.phys.good b hb
    have hspan := hgood.fits.span_ge
    rw [hgood.header]
    omega
  · intro c hc
    obtain ⟨b, hb, rfl⟩ := List.mem_map.mp hc
    have hgood := r.rep.phys.good b hb
    rw [getFooter_eq hgood.fits hgood.header, hgood.header, hgood.footer]
  · intro c hc
    obtain ⟨b, hb, rfl⟩ := List.mem_map.mp hc
    rw [r.free_iff hb, r.used_iff hb]
    exact r.settled b hb
  · refine (List.isChain_map Block.addr).mpr (r.adj.imp_of_mem_imp fun b d hb hd hfree => ?_)
    rw [r.free_iff hb, r.free_iff hd]
    exact hfree

/-- The nodes of a list are the free blocks of its spans. -/
theorem node_iff (r : Rest mgr h g bs ls) (i : ι) (c : Nat) :
    c ∈ ls i ↔ c ∈ bs.map Block.addr ∧ chunkGetStatus h.mem c = chunkFree ∧
      mgr.binOf (chunkGetSpan h.mem c) = some i := by
  rw [r.rep.mem_iff]
  constructor
  · intro ⟨b, hb, haddr, hfree, hbin⟩
    rw [← haddr, (r.rep.phys.good b hb).header]
    exact ⟨List.mem_map.mpr ⟨b, hb, rfl⟩, (r.free_iff hb).mpr hfree, hbin⟩
  · intro ⟨hc, hfree, hbin⟩
    obtain ⟨b, hb, rfl⟩ := List.mem_map.mp hc
    rw [(r.rep.phys.good b hb).header] at hbin
    exact ⟨b, hb, rfl, (r.free_iff hb).mp hfree, hbin⟩

/-- Between two calls every block in use is one that the client has. -/
theorem usedAreLive (r : Rest mgr h g bs ls) {live : List (Nat × Nat)}
    (hserves : Serves live (liveBlocks bs)) : UsedAreLive h (bs.map Block.addr) live := by
  refine ⟨hserves.nodup, fun p => ?_⟩
  constructor
  · intro hp
    obtain ⟨q, hq, rfl⟩ := List.mem_map.mp hp
    obtain ⟨d, hd, haddr, _⟩ := hserves.block q hq
    obtain ⟨hmem, hlive⟩ := mem_liveBlocks.mp hd
    exact ⟨d.addr, List.mem_map.mpr ⟨d, hmem, rfl⟩, (r.used_iff hmem).mpr hlive, haddr⟩
  · intro ⟨c, hc, hused, hp⟩
    obtain ⟨d, hd, rfl⟩ := List.mem_map.mp hc
    obtain ⟨q, hq, haddr⟩ := hserves.owner d (mem_liveBlocks.mpr ⟨hd, (r.used_iff hd).mp hused⟩)
    exact List.mem_map.mpr ⟨q, hq, haddr.trans hp.symm⟩

end Rest

/-- The heap of a program that keeps the contract. It is well formed, its lists have the free
blocks, and the used blocks are those of the program. -/
theorem Client.Inv.wellFormed (hinv : Client.Inv mgr s) :
    ∃ (cs : List Nat) (ls : ι → List Nat), WellFormed s.heap cs ∧
      (∀ i, FreeList s.heap.mem (s.heap.heads i) (ls i)) ∧
      (∀ i c, c ∈ ls i ↔ c ∈ cs ∧ chunkGetStatus s.heap.mem c = chunkFree ∧
        mgr.binOf (chunkGetSpan s.heap.mem c) = some i) ∧
      UsedAreLive s.heap cs s.live := by
  rcases hinv with ⟨hf, hnil⟩ | ⟨bs, ls, r, hserves⟩
  · -- Before the first allocation there is no block, and the lists are empty.
    have hnone : ∀ c : Nat, c ∉ ([] : List Nat) := fun _ => List.not_mem_nil
    refine ⟨[], fun _ => [], ⟨hf.lo.trans hf.hi.symm, ?_, ?_, ?_, List.isChain_nil⟩, ?_, ?_, ?_, ?_⟩
    · exact fun c hc => absurd hc (hnone c)
    · exact fun c hc => absurd hc (hnone c)
    · exact fun c hc => absurd hc (hnone c)
    · exact fun i => ⟨hf.heads i, List.nodup_nil⟩
    · exact fun i c => ⟨fun hc => absurd hc (hnone c), fun hc => absurd hc.1 (hnone c)⟩
    · rw [hnil]
      exact List.nodup_nil
    · intro p
      rw [hnil]
      exact ⟨fun hp => absurd hp (hnone p), fun ⟨c, hc, _⟩ => absurd hc (hnone c)⟩
  · exact ⟨bs.map Block.addr, ls, r.wellFormed, fun i => ⟨r.rep.linked i, r.rep.nodup i⟩,
      r.node_iff, r.usedAreLive hserves⟩

section
variable [DecidableEq ι] {debug : Bool}

/-- A program that keeps the contract goes on. -/
theorem Client.Inv.continues (hs : mgr.Sound) (debug : Bool) (hinv : Client.Inv mgr s)
    (hfit : ∀ a, s.SizesFit a) : s.Continues mgr debug := by
  intro a hlegal
  rcases hinv.call hs debug hlegal (hfit a) with ⟨s', out, hok, _⟩ | hexit
  · refine Or.inl ⟨(s', out), ?_⟩
    unfold clientStep
    rw [if_pos hlegal, hok]
    rfl
  · exact Or.inr hexit

/-! ### The data of the program -/

omit [DecidableEq ι] in
/-- The payload of a block is apart from the headers and the footers. -/
theorem Rest.apart_units (r : Rest mgr h g bs ls) {d c : Block} {n : Nat} (hd : d ∈ bs)
    (hc : c ∈ bs) (hn : n + 32 ≤ 16 * d.span) :
    Apart (d.addr + 16) n c.addr chunkUnit ∧ Apart (d.addr + 16) n c.foot chunkUnit := by
  have hspan := (r.rep.phys.good c hc).fits.span_ge
  unfold Apart chunkUnit Block.foot
  rcases r.rep.phys.apart hd hc with heq | hle | hle
  · rw [← heq]
    omega
  · unfold Block.stop at hle
    omega
  · unfold Block.stop at hle
    omega

/-- The data of a program that keeps the contract is safe. No call moves a block of the program or
writes into it. -/
theorem Client.Inv.liveIntact (hs : mgr.Sound) (hinv : Client.Inv mgr s)
    (hfit : ∀ a, s.SizesFit a) : LiveIntact mgr debug s := by
  -- The frame is the last part of the step lemma.
  have hframe : ∀ a s' out, (∀ x v, a ≠ .write x v) →
      clientStep mgr debug s a = some (s', out) → s.Keeps s' := by
    intro a s' out hne hstep
    obtain ⟨hlegal, hcall⟩ := clientStep_eq_some hstep
    rcases hinv.call hs debug hlegal (hfit a) with
      ⟨s'', out', hok, _, _, hkeeps⟩ | ⟨hexit, _⟩
    · rw [hcall] at hok
      cases hok
      exact hkeeps hne
    · rw [hcall] at hexit
      cases hexit
  rcases hinv with ⟨hf, hnil⟩ | ⟨bs, ls, r, hserves⟩
  · have hnone : ∀ q, q ∉ s.live := by
      rw [hnil]
      exact fun _ => List.not_mem_nil
    refine ⟨?_, fun q hq => absurd hq (hnone q), ⟨[], hf.lo.trans hf.hi.symm, ?_⟩, hframe⟩
    · rw [hnil]
      exact List.Pairwise.nil
    · intro c hc
      cases hc
  · refine ⟨?_, ?_, ⟨bs.map Block.addr, r.wellFormed.walk, ?_⟩, hframe⟩
    -- Distinct pointers belong to distinct blocks, and these do not overlap.
    · refine (List.pairwise_map.mp hserves.nodup).imp_of_mem ?_
      intro q t hq ht hne
      obtain ⟨d, hd, hdaddr, _, hdspan⟩ := hserves.block q hq
      obtain ⟨e, he, headdr, _, hespan⟩ := hserves.block t ht
      rcases r.rep.phys.apart (mem_liveBlocks.mp hd).1 (mem_liveBlocks.mp he).1 with heq | hle | hle
      · rw [heq] at hdaddr
        exact absurd (hdaddr.trans headdr.symm) hne
      · unfold Block.stop at hle
        exact Or.inl (by omega)
      · unfold Block.stop at hle
        exact Or.inr (by omega)
    · intro q hq
      obtain ⟨d, hd, haddr, _, hspan⟩ := hserves.block q hq
      obtain ⟨hlo, hhi⟩ := r.rep.phys.tiles.mem_bounds (mem_liveBlocks.mp hd).1
      unfold Block.stop at hhi
      omega
    · intro c hc q hq
      obtain ⟨b, hb, rfl⟩ := List.mem_map.mp hc
      obtain ⟨d, hd, haddr, _, hspan⟩ := hserves.block q hq
      have hgood := r.rep.phys.good b hb
      rw [haddr, getFooter_eq hgood.fits hgood.header]
      exact r.apart_units (mem_liveBlocks.mp hd).1 hb hspan

end

/-! ### Runs -/

/-- In every run of a program that keeps the contract, the heap of `heapmgr1` is well formed
after each call. The list from `s_free_head` has exactly the free blocks, the used blocks are
the allocations, and the next call returns. -/
theorem heapmgr1_invariant {debug : Bool} {mem : Mem} {brk limit : Nat}
    (hbreak : BreakRange brk limit) {calls : List Call} {s : Client Unit} {out : List Nat}
    (hrun : run (clientStep Heapmgr1.manager debug) (Client.start mem brk limit) calls
      = some (s, out)) :
    (∃ cs l, WellFormed s.heap cs ∧ FreeList s.heap.mem (s.heap.heads ()) l ∧
      (∀ c, c ∈ l ↔ c ∈ cs ∧ chunkGetStatus s.heap.mem c = chunkFree) ∧
      UsedAreLive s.heap cs s.live) ∧
    s.Continues Heapmgr1.manager debug := by
  obtain ⟨hinv, hfit⟩ := Client.inv_run_of_breakRange Heapmgr1.sound hbreak hrun
  obtain ⟨cs, ls, hwell, hlists, hnodes, hused⟩ := hinv.wellFormed
  refine ⟨⟨cs, ls (), hwell, hlists (), fun c => ?_, hused⟩,
    hinv.continues Heapmgr1.sound debug hfit⟩
  rw [hnodes () c]
  constructor
  · intro ⟨hc, hfree, _⟩
    exact ⟨hc, hfree⟩
  · intro ⟨hc, hfree⟩
    exact ⟨hc, hfree, rfl⟩

/-- A block is cut off, freed, cut again and merged on both sides, and one call of `sbrk`
fails. -/
theorem heapmgr1_invariant_merge :
    ∃ s : Client Unit,
      run (clientStep Heapmgr1.manager true) (Client.start ⟨fun _ => 0⟩ 4096 100000)
        [.malloc 100 ⟨true, true⟩, .malloc 200 ⟨true, true⟩, .write 11960 5, .free 12192,
          .malloc 64 ⟨true, true⟩, .malloc 100000 ⟨true, false⟩, .free 11952]
        = some (s, [12192, 11952, 12240, 0]) ∧
      s.live = [(12240, 64)] ∧
      (∃ cs l, WellFormed s.heap cs ∧ FreeList s.heap.mem (s.heap.heads ()) l ∧
        (∀ c, c ∈ l ↔ c ∈ cs ∧ chunkGetStatus s.heap.mem c = chunkFree) ∧
        UsedAreLive s.heap cs s.live) ∧
      s.Continues Heapmgr1.manager true := by
  have hmap : (run (clientStep Heapmgr1.manager true) (Client.start ⟨fun _ => 0⟩ 4096 100000)
      [.malloc 100 ⟨true, true⟩, .malloc 200 ⟨true, true⟩, .write 11960 5, .free 12192,
        .malloc 64 ⟨true, true⟩, .malloc 100000 ⟨true, false⟩, .free 11952]).map
        (fun r => (r.1.live, r.2))
      = some ([(12240, 64)], [12192, 11952, 12240, 0]) := by decide +kernel
  obtain ⟨⟨s, out⟩, hrun, heq⟩ := Option.map_eq_some_iff.mp hmap
  obtain ⟨hlive, hout⟩ := Prod.mk.inj heq
  simp only at hout
  rw [hout] at hrun
  have hbreak : BreakRange 4096 100000 := ⟨by decide, by decide, by decide, by decide⟩
  exact ⟨s, hrun, hlive, heapmgr1_invariant hbreak hrun⟩

/-- In every run of a program that keeps the contract, the heap of `heapmgr2` is well formed
after each call. The lists from `s_bins` are well formed, a node of a list is a free block
whose bin is that of the list, and every free block is in one list. The used blocks are the
allocations, and the next call returns. -/
theorem heapmgr2_invariant {debug : Bool} {mem : Mem} {brk limit : Nat}
    (hbreak : BreakRange brk limit) {calls : List Call} {s : Client (Fin Heapmgr2.numBins)}
    {out : List Nat}
    (hrun : run (clientStep Heapmgr2.manager debug) (Client.start mem brk limit) calls
      = some (s, out)) :
    (∃ (cs : List Nat) (ls : Fin Heapmgr2.numBins → List Nat), WellFormed s.heap cs ∧
      (∀ b, FreeList s.heap.mem (s.heap.heads b) (ls b) ∧
        ∀ c ∈ ls b, c ∈ cs ∧ chunkGetStatus s.heap.mem c = chunkFree ∧
          Heapmgr2.getBinIndex (chunkGetSpan s.heap.mem c) = b) ∧
      (∀ c ∈ cs, chunkGetStatus s.heap.mem c = chunkFree → ∃! b, c ∈ ls b) ∧
      UsedAreLive s.heap cs s.live) ∧
    s.Continues Heapmgr2.manager debug := by
  obtain ⟨hinv, hfit⟩ := Client.inv_run_of_breakRange Heapmgr2.sound hbreak hrun
  obtain ⟨cs, ls, hwell, hlists, hnodes, hused⟩ := hinv.wellFormed
  have hmanager : Heapmgr2.manager.binOf = Heapmgr2.binOf := by rw [Heapmgr2.manager]
  rw [hmanager] at hnodes
  refine ⟨⟨cs, ls, hwell, fun b => ⟨hlists b, fun c hc => ?_⟩, fun c hc hfree => ?_, hused⟩,
    hinv.continues Heapmgr2.sound debug hfit⟩
  · obtain ⟨hmem, hfree, hbin⟩ := (hnodes b c).mp hc
    exact ⟨hmem, hfree, Heapmgr2.binOf_eq_some hbin⟩
  · obtain ⟨b, hb⟩ := Heapmgr2.exists_binOf (hwell.span c hc)
    refine ⟨b, (hnodes b c).mpr ⟨hc, hfree, hb⟩, fun d hd => ?_⟩
    have hbin := ((hnodes d c).mp hd).2.2
    rw [hb] at hbin
    exact (Option.some.inj hbin).symm

/-- A block is cut off, freed, taken again as a whole and merged, and one call of `sbrk`
fails. -/
theorem heapmgr2_invariant_merge :
    ∃ s : Client (Fin Heapmgr2.numBins),
      run (clientStep Heapmgr2.manager true) (Client.start ⟨fun _ => 0⟩ 4096 100000)
        [.malloc 100 ⟨true, true⟩, .malloc 200 ⟨true, true⟩, .write 4260 5, .free 4112,
          .malloc 64 ⟨true, true⟩, .malloc 100000 ⟨true, false⟩, .free 4256]
        = some (s, [4112, 4256, 4112, 0]) ∧
      s.live = [(4112, 64)] ∧
      (∃ (cs : List Nat) (ls : Fin Heapmgr2.numBins → List Nat), WellFormed s.heap cs ∧
        (∀ b, FreeList s.heap.mem (s.heap.heads b) (ls b) ∧
          ∀ c ∈ ls b, c ∈ cs ∧ chunkGetStatus s.heap.mem c = chunkFree ∧
            Heapmgr2.getBinIndex (chunkGetSpan s.heap.mem c) = b) ∧
        (∀ c ∈ cs, chunkGetStatus s.heap.mem c = chunkFree → ∃! b, c ∈ ls b) ∧
        UsedAreLive s.heap cs s.live) ∧
      s.Continues Heapmgr2.manager true := by
  have hmap : (run (clientStep Heapmgr2.manager true) (Client.start ⟨fun _ => 0⟩ 4096 100000)
      [.malloc 100 ⟨true, true⟩, .malloc 200 ⟨true, true⟩, .write 4260 5, .free 4112,
        .malloc 64 ⟨true, true⟩, .malloc 100000 ⟨true, false⟩, .free 4256]).map
        (fun r => (r.1.live, r.2))
      = some ([(4112, 64)], [4112, 4256, 4112, 0]) := by decide +kernel
  obtain ⟨⟨s, out⟩, hrun, heq⟩ := Option.map_eq_some_iff.mp hmap
  obtain ⟨hlive, hout⟩ := Prod.mk.inj heq
  simp only at hout
  rw [hout] at hrun
  have hbreak : BreakRange 4096 100000 := ⟨by decide, by decide, by decide, by decide⟩
  exact ⟨s, hrun, hlive, heapmgr2_invariant hbreak hrun⟩

/-- In every run of a program that keeps the contract, its data is safe, with either manager. -/
theorem live_data_intact {debug : Bool} {mem : Mem} {brk limit : Nat}
    (hbreak : BreakRange brk limit) :
    (∀ calls (s : Client Unit) out,
      run (clientStep Heapmgr1.manager debug) (Client.start mem brk limit) calls
        = some (s, out) → LiveIntact Heapmgr1.manager debug s) ∧
    ∀ calls (s : Client (Fin Heapmgr2.numBins)) out,
      run (clientStep Heapmgr2.manager debug) (Client.start mem brk limit) calls
        = some (s, out) → LiveIntact Heapmgr2.manager debug s := by
  constructor
  · intro calls s out hrun
    obtain ⟨hinv, hfit⟩ := Client.inv_run_of_breakRange Heapmgr1.sound hbreak hrun
    exact hinv.liveIntact Heapmgr1.sound hfit
  · intro calls s out hrun
    obtain ⟨hinv, hfit⟩ := Client.inv_run_of_breakRange Heapmgr2.sound hbreak hrun
    exact hinv.liveIntact Heapmgr2.sound hfit

/-- Two allocations of the same program, one of them written to, with both managers. The data of
both is safe from here on. -/
theorem live_data_intact_two :
    (∃ s : Client Unit,
      run (clientStep Heapmgr1.manager true) (Client.start ⟨fun _ => 0⟩ 4096 100000)
        [.malloc 100 ⟨true, true⟩, .malloc 200 ⟨true, true⟩, .write 11960 5]
        = some (s, [12192, 11952]) ∧ LiveIntact Heapmgr1.manager true s) ∧
    ∃ s : Client (Fin Heapmgr2.numBins),
      run (clientStep Heapmgr2.manager true) (Client.start ⟨fun _ => 0⟩ 4096 100000)
        [.malloc 100 ⟨true, true⟩, .malloc 200 ⟨true, true⟩, .write 4260 5]
        = some (s, [4112, 4256]) ∧ LiveIntact Heapmgr2.manager true s := by
  have hbreak : BreakRange 4096 100000 := ⟨by decide, by decide, by decide, by decide⟩
  have hmap₁ : (run (clientStep Heapmgr1.manager true) (Client.start ⟨fun _ => 0⟩ 4096 100000)
      [.malloc 100 ⟨true, true⟩, .malloc 200 ⟨true, true⟩, .write 11960 5]).map Prod.snd
      = some [12192, 11952] := by decide +kernel
  have hmap₂ : (run (clientStep Heapmgr2.manager true) (Client.start ⟨fun _ => 0⟩ 4096 100000)
      [.malloc 100 ⟨true, true⟩, .malloc 200 ⟨true, true⟩, .write 4260 5]).map Prod.snd
      = some [4112, 4256] := by decide +kernel
  obtain ⟨⟨s, _⟩, hrun₁, rfl⟩ := Option.map_eq_some_iff.mp hmap₁
  obtain ⟨⟨t, _⟩, hrun₂, rfl⟩ := Option.map_eq_some_iff.mp hmap₂
  exact ⟨⟨s, hrun₁, (live_data_intact hbreak).1 _ s _ hrun₁⟩,
    ⟨t, hrun₂, (live_data_intact hbreak).2 _ t _ hrun₂⟩⟩

end SysProg.Memory
