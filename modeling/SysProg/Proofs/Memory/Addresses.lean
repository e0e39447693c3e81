import SysProg.Memory.Addresses
import SysProg.Proofs.Memory.Invariant

/-!
# `SysProg.Proofs.Memory.Addresses`: the address arithmetic is exact

As long as no call makes a block of more than `INT_MAX` bytes, the products of `chunk.c` do not
wrap around, and every address that it computes from a span is exact. For a larger block the
address of the next block is always wrong.
-/

set_option autoImplicit false

namespace SysProg.Memory

open SysProg.Lib

variable {ι : Type} {mgr : Manager ι} {h : Heap ι} {g m : Mem} {bs : List Block}
  {ls : ι → List Nat} {s : Client ι} {c k : Nat}

/-! ### One address -/

/-- The address behind `k` units is exact when their size is an `int`, and only then. -/
theorem ptrAdd_span_iff (hk : k ≤ intMax) (hstop : c + k * chunkUnit < 2 ^ 64) :
    ptrAdd c (i32 (k * chunkUnit)) = c + k * chunkUnit ↔ chunkUnit * k ≤ intMax := by
  unfold chunkUnit intMax at *
  constructor
  · intro heq
    by_contra hlarge
    unfold ptrAdd i32 Int.bmod at heq
    simp only at heq
    split at heq
    · omega
    · omega
  · intro hsize
    rw [i32_eq (by omega) (by omega)]
    exact ptrAdd_eq (by omega) hstop

/-- The address of the next block is exact when the size of the block is an `int`, and only
then. -/
theorem chunkGetNextPhys_eq_iff (hspan : chunkGetSpan m c = k) (hk : k ≤ intMax)
    (hstop : c + k * chunkUnit < 2 ^ 64) :
    chunkGetNextPhys m c (2 ^ 64) = c + k * chunkUnit ↔ chunkUnit * k ≤ intMax := by
  have hlt : ¬ 2 ^ 64 ≤ ptrAdd c (i32 (k * chunkUnit)) := by
    unfold ptrAdd
    omega
  unfold chunkGetNextPhys
  rw [hspan]
  simp only [if_neg hlt]
  exact ptrAdd_span_iff hk hstop

/-! ### The parts of a block -/

/-- A block whose size is an `int` has exact parts. The product of a part is at most that of the
whole block. -/
theorem PartsExact.of_small {b : PhysBlock} (hsmall : chunkUnit * b.span ≤ intMax)
    (hlt : b.exactNext < 2 ^ 64) : PartsExact b := by
  unfold PhysBlock.exactNext chunkUnit at hlt
  unfold chunkUnit intMax at hsmall
  have hpart : ∀ {c k}, InPart b c k → 1 ≤ k ∧ 16 * k ≤ 2147483647 ∧ c + k * 16 < 2 ^ 64 := by
    intro c k hin
    have hpos := hin.pos
    have hle := hin.le
    have hstop := hin.stop
    unfold PhysBlock.exactNext chunkUnit at hstop
    omega
  refine ⟨fun m c k hin hspan => ?_, fun m c k stop hin hspan => ?_,
    fun m c k start hin hfoot => ?_⟩
  · obtain ⟨hpos, hsize, hstop⟩ := hpart hin
    have hunits : i32 ((k : Int) - 1) = k - 1 := i32_eq (by omega) (by omega)
    have hoffset : i32 (((k : Int) - 1) * chunkUnit) = (k - 1) * chunkUnit :=
      i32_eq (by unfold chunkUnit; omega) (by unfold chunkUnit; omega)
    unfold getFooter
    rw [hspan, hunits, hoffset]
    exact ptrAdd_eq (by unfold chunkUnit; omega) (by unfold chunkUnit; omega)
  · obtain ⟨hpos, hsize, hstop⟩ := hpart hin
    have hnext : ptrAdd c (i32 (k * chunkUnit)) = c + k * chunkUnit :=
      (ptrAdd_span_iff (by unfold intMax; omega) hstop).mpr hsize
    unfold chunkGetNextPhys
    rw [hspan, hnext]
  · obtain ⟨hpos, hsize, hstop⟩ := hpart hin
    have hback : ptrAdd (c + k * chunkUnit) (-chunkUnit) = c + (k - 1) * chunkUnit :=
      ptrAdd_eq (by unfold chunkUnit; omega) (by unfold chunkUnit; omega)
    have hunits : i32 ((k : Int) * chunkUnit) = k * chunkUnit :=
      i32_eq (by unfold chunkUnit; omega) (by unfold chunkUnit; omega)
    have hprev : ptrAdd (c + k * chunkUnit) (-(k * chunkUnit)) = c :=
      ptrAdd_eq (by push_cast; omega) (by omega)
    unfold chunkGetPrevPhys
    rw [hback, hfoot, hunits, hprev]

/-- Blocks that lie one behind the other below `hi` have exact parts when their sizes are
`int`s. -/
theorem Tiles.partsExact {lo hi : Nat} (htiles : Tiles lo bs hi) (hhi : hi < 2 ^ 64)
    (hsmall : SizesFit (bs.map Block.entry)) {b : PhysBlock} (hb : b ∈ bs.map Block.entry) :
    PartsExact b := by
  have hsize := hsmall b hb
  obtain ⟨d, hd, rfl⟩ := List.mem_map.mp hb
  have hstop := (htiles.mem_bounds hd).2
  refine PartsExact.of_small hsize ?_
  show (d.addr : Int) + d.span * (16 : Nat) < 2 ^ 64
  unfold Block.stop at hstop
  omega

namespace Rest

/-- The sizes of the blocks in memory are `int`s. -/
theorem sizesFit (r : Rest mgr h g bs ls) : SizesFit (bs.map Block.entry) :=
  sizesFit_map_entry.mpr fun b hb => (r.rep.phys.good b hb).fits.small

/-- The blocks in memory have exact addresses. A block at rest is small enough for an `int` product
of its span, and it ends at or below the end of the heap. -/
theorem exactAddresses (r : Rest mgr h g bs ls) : ExactAddresses h := by
  have hhi := r.rep.phys.hi_lt
  refine ⟨?_, ?_, ?_⟩
  · intro b hb
    rw [r.layout_eq] at hb
    obtain ⟨d, hd, rfl⟩ := List.mem_map.mp hb
    have hgood := r.rep.phys.good d hd
    have hspan := hgood.fits.span_ge
    show (getFooter h.mem d.addr : Int) = d.addr + ((d.span : Int) - 1) * (16 : Nat)
    rw [getFooter_eq hgood.fits hgood.header]
    unfold Block.foot
    omega
  · intro b hb
    rw [r.layout_eq] at hb
    obtain ⟨d, hd, rfl⟩ := List.mem_map.mp hb
    have hgood := r.rep.phys.good d hd
    have hbound := (r.rep.phys.tiles.mem_bounds hd).2
    have hstop : (d.stop : Int) = d.entry.exactNext := by
      show ((d.addr + 16 * d.span : Nat) : Int) = d.addr + d.span * (16 : Nat)
      omega
    show ((chunkGetNextPhys h.mem d.addr h.hi : Nat) : Int) = _ ∨
      chunkGetNextPhys h.mem d.addr h.hi = 0 ∧ _
    rw [hgood.nextPhys, ← hstop]
    by_cases hend : h.hi ≤ d.stop
    · rw [if_pos hend]
      exact .inr ⟨rfl, by omega⟩
    · rw [if_neg hend]
      exact .inl rfl
  · intro b hb
    rw [r.layout_eq] at hb
    obtain ⟨d, hd, rfl⟩ := List.mem_map.mp hb
    obtain ⟨pre, suf, rfl⟩ := List.append_of_mem hd
    have htiles := (tiles_split.mp r.rep.phys.tiles).1
    have hprev := r.rep.prevPhys
    show ((chunkGetPrevPhys h.mem d.addr h.lo : Nat) : Int)
        = (d.addr : Int) - footerSpan h.mem (d.addr - 16) * (16 : Nat) ∨
      chunkGetPrevPhys h.mem d.addr h.lo = 0 ∧ d.addr = h.lo
    rcases List.eq_nil_or_concat pre with rfl | ⟨pre, e, rfl⟩
    · exact .inr ⟨hprev, (show h.lo = d.addr from htiles).symm⟩
    · -- The footer in front of the block is that of its left neighbour.
      rw [List.concat_eq_append] at htiles hprev r
      have hgood := r.rep.phys.good e (by simp)
      have hstop : e.stop = d.addr := (tiles_split.mp htiles).2
      have hspan := hgood.fits.span_ge
      have hfoot : d.addr - 16 = e.foot := by
        unfold Block.foot
        unfold Block.stop at hstop
        omega
      rw [List.getLast?_append, List.getLast?_singleton] at hprev
      rw [hprev, hfoot, hgood.footer]
      left
      show (e.addr : Int) = d.addr - (e.span : Int) * (16 : Nat)
      unfold Block.stop at hstop
      omega

end Rest

/-- The blocks that a call works on have exact parts, when it makes none that is too large. -/
theorem Client.Inv.partsExact (hinv : Client.Inv mgr s) {a : Call} (hfit : s.SizesFit a)
    {b : PhysBlock} (hb : s.Handles b a) : PartsExact b := by
  obtain ⟨hf, -⟩ | ⟨bs, ls, r, -⟩ := hinv
  · have hnil := hf.layout_eq
    cases a with
    | malloc size env =>
        obtain hb | ⟨hgrows, hb⟩ := hb
        · rw [hnil] at hb
          cases hb
        · have hsmall := hfit hgrows
          have hlimit := hgrows.2.2.2
          have hlt := hf.limit_lt
          refine PartsExact.of_small (hsmall b hb) ?_
          rw [hnil] at hb
          rw [List.mem_singleton.mp hb]
          show (s.heap.brk : Int) + (growSpan (needUnits size) : Int) * (16 : Nat) < 2 ^ 64
          unfold chunkUnit at hlimit
          omega
    | free p =>
        obtain hb | hb := hb
        · rw [hnil] at hb
          cases hb
        · rw [hnil] at hb
          cases hb
    | write x v =>
        rw [Client.Handles, hnil] at hb
        cases hb
  · have hhi := r.rep.phys.hi_lt
    have hcurrent : ∀ b ∈ layout s.heap, PartsExact b := by
      intro b hb
      rw [r.layout_eq] at hb
      exact r.rep.phys.tiles.partsExact hhi r.sizesFit hb
    cases a with
    | malloc size env =>
        obtain hb | ⟨hgrows, hb⟩ := hb
        · exact hcurrent b hb
        · have hsmall := hfit hgrows
          have hlimit := hgrows.2.2.2
          have hlt := r.bounded.limit_lt
          have htiles : Tiles s.heap.lo (bs ++ [⟨s.heap.hi, growSpan (needUnits size), .free⟩])
              (s.heap.hi + 16 * growSpan (needUnits size)) :=
            tiles_append.mpr ⟨s.heap.hi, r.rep.phys.tiles, rfl, rfl⟩
          rw [r.layout_append, ← map_entry_coalesceFree] at hsmall hb
          rw [r.bounded.brk] at hlimit
          unfold chunkUnit at hlimit
          exact htiles.coalesceFree.partsExact (by omega) hsmall hb
    | free p =>
        obtain hb | hb := hb
        · exact hcurrent b hb
        · have hsmall : SysProg.Memory.SizesFit (mergeFree ((layout s.heap).map (markFree [p]))) :=
            hfit
          rw [r.layout_eq, ← r.entry_freed] at hsmall hb
          exact (r.rep.phys.tiles.map_freed [p]).coalesceFree.partsExact hhi hsmall hb
    | write x v => exact hcurrent b hb

/-- The invariant gives exact addresses. -/
theorem Client.Inv.exactAddresses (hinv : Client.Inv mgr s) : ExactAddresses s.heap := by
  obtain ⟨hf, -⟩ | ⟨bs, ls, r, -⟩ := hinv
  · have hnil := hf.layout_eq
    have hnone : ∀ b, b ∉ layout s.heap := by
      intro b hb
      rw [hnil] at hb
      cases hb
    exact ⟨fun b hb => absurd hb (hnone b), fun b hb => absurd hb (hnone b),
      fun b hb => absurd hb (hnone b)⟩
  · exact r.exactAddresses

/-- The address arithmetic is exact in every run that makes no block of more than `INT_MAX` bytes:
for the blocks in memory, and for all parts of the blocks that the next call works on. For a larger
block the address of the next one is not exact in any memory. -/
theorem addresses_exact {debug : Bool} {mem : Mem} {brk limit : Nat}
    (haddr : AddressRange brk limit) :
    (∀ calls (s : Client Unit) out,
      run (clientStep Heapmgr1.manager debug) (Client.start mem brk limit) calls = some (s, out) →
      CallsFit Heapmgr1.manager debug (Client.start mem brk limit) calls →
      ExactAddresses s.heap ∧ ∀ a, s.SizesFit a → ∀ b, s.Handles b a → PartsExact b) ∧
    (∀ calls (s : Client (Fin Heapmgr2.numBins)) out,
      run (clientStep Heapmgr2.manager debug) (Client.start mem brk limit) calls = some (s, out) →
      CallsFit Heapmgr2.manager debug (Client.start mem brk limit) calls →
      ExactAddresses s.heap ∧ ∀ a, s.SizesFit a → ∀ b, s.Handles b a → PartsExact b) ∧
    ∀ (m : Mem) (c k : Nat), chunkGetSpan m c = k → k ≤ intMax → c + k * chunkUnit < 2 ^ 64 →
      (chunkGetNextPhys m c (2 ^ 64) = c + k * chunkUnit ↔ chunkUnit * k ≤ intMax) := by
  refine ⟨?_, ?_, fun m c k hspan hk hstop => chunkGetNextPhys_eq_iff hspan hk hstop⟩
  · intro calls s out hrun hcalls
    have hinv := Client.inv_run Heapmgr1.sound haddr hcalls hrun
    exact ⟨hinv.exactAddresses, fun a hfit b hb => hinv.partsExact hfit hb⟩
  · intro calls s out hrun hcalls
    have hinv := Client.inv_run Heapmgr2.sound haddr hcalls hrun
    exact ⟨hinv.exactAddresses, fun a hfit b hb => hinv.partsExact hfit hb⟩

/-- Two allocations, and one of them freed again, with both managers. The blocks are small, so all
addresses are exact. -/
theorem addresses_exact_two :
    (∃ s : Client Unit,
      run (clientStep Heapmgr1.manager true) (Client.start ⟨fun _ => 0⟩ 4096 100000)
        [.malloc 100 ⟨true, true⟩, .malloc 200 ⟨true, true⟩, .free 12192]
        = some (s, [12192, 11952]) ∧ ExactAddresses s.heap) ∧
    (∃ s : Client (Fin Heapmgr2.numBins),
      run (clientStep Heapmgr2.manager true) (Client.start ⟨fun _ => 0⟩ 4096 100000)
        [.malloc 100 ⟨true, true⟩, .malloc 200 ⟨true, true⟩, .free 4112]
        = some (s, [4112, 4256]) ∧ ExactAddresses s.heap) ∧
    (chunkGetNextPhys (storeInt ⟨fun _ => 0⟩ 4100 9) 4096 (2 ^ 64) = 4096 + 9 * chunkUnit ↔
      chunkUnit * 9 ≤ intMax) := by
  have hbreak : BreakRange 4096 100000 := ⟨by decide, by decide, by decide, by decide⟩
  have hmap₁ : (run (clientStep Heapmgr1.manager true) (Client.start ⟨fun _ => 0⟩ 4096 100000)
      [.malloc 100 ⟨true, true⟩, .malloc 200 ⟨true, true⟩, .free 12192]).map Prod.snd
      = some [12192, 11952] := by decide +kernel
  have hmap₂ : (run (clientStep Heapmgr2.manager true) (Client.start ⟨fun _ => 0⟩ 4096 100000)
      [.malloc 100 ⟨true, true⟩, .malloc 200 ⟨true, true⟩, .free 4112]).map Prod.snd
      = some [4112, 4256] := by decide +kernel
  have hspan : chunkGetSpan (storeInt ⟨fun _ => 0⟩ 4100 9) 4096 = 9 := by decide +kernel
  obtain ⟨⟨s, _⟩, hrun₁, rfl⟩ := Option.map_eq_some_iff.mp hmap₁
  obtain ⟨⟨t, _⟩, hrun₂, rfl⟩ := Option.map_eq_some_iff.mp hmap₂
  have hexact := @addresses_exact true ⟨fun _ => 0⟩ 4096 100000 hbreak.addresses
  exact ⟨⟨s, hrun₁, (hexact.1 _ s _ hrun₁ (callsFit_of_breakRange Heapmgr1.sound hbreak _)).1⟩,
    ⟨t, hrun₂, (hexact.2.1 _ t _ hrun₂ (callsFit_of_breakRange Heapmgr2.sound hbreak _)).1⟩,
    hexact.2.2 _ 4096 9 hspan (by decide) (by decide)⟩

/-- Eight allocations of 300000000 bytes are freed and joined. The footer of the one block of
2400000256 bytes is looked for in front of the heap, with either manager. -/
theorem addresses_not_exact :
    AddressRange 4096 10000000000 ∧
    (∃ s : Client Unit,
      run (clientStep Heapmgr1.manager false) (Client.start ⟨fun _ => 0⟩ 4096 10000000000)
        (List.replicate 8 (.malloc 300000000 ⟨true, true⟩) ++
          (List.range 8).map fun i => .free (4112 + 300000032 * i))
        = some (s, (List.range 8).map fun i => 4112 + 300000032 * i) ∧
      ¬ ExactAddresses s.heap) ∧
    ∃ s : Client (Fin Heapmgr2.numBins),
      run (clientStep Heapmgr2.manager false) (Client.start ⟨fun _ => 0⟩ 4096 10000000000)
        (List.replicate 8 (.malloc 300000000 ⟨true, true⟩) ++
          (List.range 8).map fun i => .free (4112 + 300000032 * i))
        = some (s, (List.range 8).map fun i => 4112 + 300000032 * i) ∧
      ¬ ExactAddresses s.heap := by
  have hmap₁ : (run (clientStep Heapmgr1.manager false)
      (Client.start ⟨fun _ => 0⟩ 4096 10000000000)
        (List.replicate 8 (.malloc 300000000 ⟨true, true⟩) ++
          (List.range 8).map fun i => .free (4112 + 300000032 * i))).map (fun r =>
            (r.2, layout r.1.heap, getFooter r.1.heap.mem 4096))
      = some ((List.range 8).map fun i => 4112 + 300000032 * i,
          [⟨4096, 150000016, 0⟩], 18446744071814588656) := by decide +kernel
  have hmap₂ : (run (clientStep Heapmgr2.manager false)
      (Client.start ⟨fun _ => 0⟩ 4096 10000000000)
        (List.replicate 8 (.malloc 300000000 ⟨true, true⟩) ++
          (List.range 8).map fun i => .free (4112 + 300000032 * i))).map (fun r =>
            (r.2, layout r.1.heap, getFooter r.1.heap.mem 4096))
      = some ((List.range 8).map fun i => 4112 + 300000032 * i,
          [⟨4096, 150000016, 0⟩], 18446744071814588656) := by decide +kernel
  -- The block of the layout has its footer elsewhere.
  have hwrong : ∀ {ι : Type} (h : Heap ι), layout h = [⟨4096, 150000016, 0⟩] →
      getFooter h.mem 4096 = 18446744071814588656 → ¬ ExactAddresses h := by
    intro ι h hlayout hfoot hexact
    have hmem : ⟨4096, 150000016, 0⟩ ∈ layout h := by
      rw [hlayout]
      exact List.mem_singleton_self _
    have heq := hexact.footer _ hmem
    simp only [hfoot] at heq
    exact absurd heq (by decide)
  obtain ⟨⟨s, _⟩, hrun₁, heq₁⟩ := Option.map_eq_some_iff.mp hmap₁
  obtain ⟨⟨t, _⟩, hrun₂, heq₂⟩ := Option.map_eq_some_iff.mp hmap₂
  simp only [Prod.mk.injEq] at heq₁ heq₂
  obtain ⟨rfl, hlayout₁, hfoot₁⟩ := heq₁
  obtain ⟨rfl, hlayout₂, hfoot₂⟩ := heq₂
  exact ⟨⟨by decide, by decide, by decide⟩, ⟨s, hrun₁, hwrong s.heap hlayout₁ hfoot₁⟩,
    ⟨t, hrun₂, hwrong t.heap hlayout₂ hfoot₂⟩⟩

end SysProg.Memory
