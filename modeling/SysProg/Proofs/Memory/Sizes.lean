import SysProg.Memory.Sizes
import SysProg.Proofs.Memory.Fit

/-!
# `SysProg.Proofs.Memory.Sizes`: `heapmgr_malloc` for any size

* `Rest.malloc_refused`: a refused request changes nothing, although its span was truncated.
* `Client.Inv.untruncated`: a request in range is served or refused.
* `malloc_untruncated` is the result, for both managers. `malloc_truncated` has requests that get
  a block of 16 bytes for more than `2 ^ 36`.
-/

set_option autoImplicit false

namespace SysProg.Memory

open SysProg.Lib

variable {ι : Type} {mgr : Manager ι} {h h' : Heap ι} {g : Mem} {bs : List Block}
  {ls : ι → List Nat} {s : Client ι} {env : Sbrk} {size : UInt64}

/-- A heap has the structure that it has. -/
theorem SameStructure.refl (h : Heap ι) : SameStructure h h := ⟨rfl, rfl, rfl, rfl⟩

/-- A request beyond the largest size is not for nothing. -/
theorem ne_zero_of_large (hlarge : maxSize < size.toNat) : size ≠ 0 := by
  rintro rfl
  exact absurd hlarge (by decide)

section
variable [DecidableEq ι]

/-- A refused request on a heap that is set up. It is answered with `NULL`, and the heap stays as it
is. -/
theorem Rest.malloc_refused (debug : Bool) (r : Rest mgr h g bs ls) (hsize : size ≠ 0)
    (hrefused : Refused mgr h env size) : heapmgrMalloc mgr debug h env size = .ok (h, 0) := by
  obtain ⟨bins, hbins⟩ := Option.isSome_iff_exists.mp hrefused.bins
  have hnone : searchFree mgr h (truncatedSpan size) = .ok none := by
    simp only [searchFree, hbins]
    obtain ⟨hnone, -⟩ | ⟨b, hb, hfree, -, hspan⟩ := r.rep.search_spec (truncatedSpan size) bins
    · exact hnone
    · exact absurd ((r.hasFit_int_iff _).mpr ⟨b, hb, hfree, hspan⟩) hrefused.noFit
  have hgrow : sysGrow mgr.binOf h env.extend (needUnits size) = .ok (h, 0) := by
    have hsbrk := hrefused.sbrk
    unfold growBytes growSpan at hsbrk
    unfold sysGrow
    simp only [if_pos hsbrk]
  unfold truncatedSpan at hnone
  rw [r.heapmgrMalloc_eq debug env hsize]
  unfold allocUnits
  simp only [r.assertValid_eq debug, hnone, hgrow, bind, Except.bind, if_true]
  rfl

/-- A request whose span is an `int`, on a heap that is set up. It is answered with `NULL` and
changes nothing, or the block has room for the size. -/
theorem Rest.malloc_hasRoom (hs : mgr.Sound) (debug : Bool) (r : Rest mgr h g bs ls)
    (hsize : size.toNat ≤ maxSize) (hfit : GrowthFits h env size) :
    ∃ h' p, heapmgrMalloc mgr debug h env size = .ok (h', p) ∧
      (p = 0 ∧ SameStructure h h' ∨ p ≠ 0 ∧ HasRoom h' p size) := by
  obtain heq | ⟨h', u, bs', ls', need, heq, -, hneed, hgain, -⟩ :=
    r.malloc_spec hs debug env hsize hfit
  · exact ⟨h, 0, heq, .inl ⟨rfl, .refl h⟩⟩
  · have hspan := hgain.span
    have hlive : u ∈ liveBlocks bs' := hgain.blocks.mem_iff.mpr List.mem_cons_self
    obtain ⟨hmem, hstate⟩ := mem_liveBlocks.mp hlive
    have hstatus : u.entry.status = chunkUsed := by
      unfold Block.entry
      rw [hstate]
      rfl
    refine ⟨h', u.addr + 16, heq, .inr ⟨by omega, u.entry, ?_, hstatus, rfl, ?_⟩⟩
    · rw [hgain.rest.layout_eq]
      exact List.mem_map_of_mem hmem
    · show (size.toNat : Int) ≤ ((u.span : Int) - 2) * (16 : Nat)
      omega

omit [DecidableEq ι] in
/-- The bootstrap does not matter to a request. -/
theorem Refused.congr {h₀ : Heap ι} (hrefused : Refused mgr h env size)
    (hrange : SameRange h h₀) (hbrk : h₀.brk = h.brk) (hlayout : layout h = layout h₀) :
    Refused mgr h₀ env size := by
  refine ⟨hrefused.bins, ?_, ?_⟩
  · unfold HasFit
    rw [← hlayout]
    exact hrefused.noFit
  · have hsbrk := hrefused.sbrk
    unfold Heap.sbrk at hsbrk ⊢
    rw [hbrk, hrange.base, hrange.limit]
    by_cases hgrant : env.extend ∧ h.base ≤ h.brk + growBytes size ∧
        h.brk + growBytes size ≤ h.limit
    · rwa [if_pos hgrant] at hsbrk ⊢
    · rw [if_neg hgrant]

omit [DecidableEq ι] in
/-- Two steps that keep the structure. -/
theorem SameStructure.trans {h₁ h₂ h₃ : Heap ι} (h₁₂ : SameStructure h₁ h₂)
    (h₂₃ : SameStructure h₂ h₃) : SameStructure h₁ h₃ :=
  ⟨h₂₃.mem.trans h₁₂.mem, h₂₃.heads.trans h₁₂.heads, h₂₃.layout.trans h₁₂.layout,
    h₂₃.brk.trans h₁₂.brk⟩

omit [DecidableEq ι] in
/-- The bootstrap changes neither the memory nor the lists. -/
theorem Fresh.searched_same (hs : mgr.Sound) (hf : Fresh h) {h₀ : Heap ι}
    (hsearched : searchedHeap mgr h env = .ok h₀) (hbrk : h₀.brk = h.brk)
    (hlayout : layout h = layout h₀) : SameStructure h h₀ := by
  unfold searchedHeap heapBootstrap at hsearched
  rw [if_neg (by rw [hf.booted]; exact Bool.false_ne_true)] at hsearched
  simp only at hsearched
  split at hsearched
  case isTrue => cases hsearched
  case isFalse =>
    cases hsearched
    refine ⟨rfl, ?_, hlayout.symm, hbrk⟩
    funext i
    exact (hs.boot h.heads hf.heads i).trans (hf.heads i).symm

/-- A request in range, in a run of a program. Either it is refused, or its span is an `int`, so the
block is not too small. -/
theorem Client.Inv.untruncated (hs : mgr.Sound) (debug : Bool) (hinv : Client.Inv mgr s)
    (hrange : SysProg.Memory.InRange mgr s.heap env size) : Untruncated mgr debug s env size := by
  by_cases hzero : size = 0
  · have heq : heapmgrMalloc mgr debug s.heap env size = .ok (s.heap, 0) := by
      rw [heapmgrMalloc, if_pos hzero]
      rfl
    exact .inl ⟨s.heap, 0, heq, .inl ⟨rfl, .refl _⟩⟩
  -- The call on a heap that is set up.
  have hcall : ∀ {h : Heap ι} {g : Mem} {bs : List Block} {ls : ι → List Nat},
      Rest mgr h g bs ls → SysProg.Memory.InRange mgr h env size →
      ∃ h' p, heapmgrMalloc mgr debug h env size = .ok (h', p) ∧
        (p = 0 ∧ SameStructure h h' ∨ p ≠ 0 ∧ HasRoom h' p size) := by
    intro h g bs ls r hrange
    obtain ⟨hsize, hfit⟩ | ⟨-, hrefused⟩ := hrange
    · exact r.malloc_hasRoom hs debug hsize hfit
    · exact ⟨h, 0, r.malloc_refused debug hzero hrefused, .inl ⟨rfl, .refl h⟩⟩
  obtain ⟨hf, -⟩ | ⟨bs, ls, r, -⟩ := hinv
  · obtain ⟨hexit, hquery⟩ | ⟨h₀, r, hsearched, hsame, hbrk, hlayout, heq⟩ :=
      hf.malloc_cases hs debug env hzero
    · exact .inr ⟨hexit, hf.booted, size, env, rfl, hquery⟩
    · have hrange₀ : SysProg.Memory.InRange mgr h₀ env size :=
        hrange.imp (fun h => ⟨h.1, h.2.congr hsame hbrk hlayout⟩)
          (fun h => ⟨h.1, h.2.congr hsame hbrk hlayout⟩)
      have hboot := hf.searched_same hs hsearched hbrk hlayout
      obtain ⟨h', p, hok, hresult⟩ := hcall r hrange₀
      exact .inl ⟨h', p, heq.trans hok, hresult.imp_left fun h => ⟨h.1, hboot.trans h.2⟩⟩
  · exact .inl (hcall r hrange)

/-- A request in range keeps the invariant. A refused one leaves the heap as it is, and any other is
a legal call. -/
theorem Client.Inv.malloc_inRange (hs : mgr.Sound) (debug : Bool) (hinv : Client.Inv mgr s)
    (hrange : SysProg.Memory.InRange mgr s.heap env size) {s' : Client ι} {out : List Nat}
    (hcall : clientCall mgr debug s (.malloc size env) = .ok (s', out)) : Client.Inv mgr s' := by
  obtain ⟨hsize, hfit⟩ | ⟨hlarge, hrefused⟩ := hrange
  · obtain ⟨s'', out', hok, hinv', -⟩ | ⟨hexit, -⟩ := hinv.malloc hs debug hsize hfit
    · rw [hcall] at hok
      cases hok
      exact hinv'
    · rw [hcall] at hexit
      cases hexit
  · have hzero := ne_zero_of_large hlarge
    rw [clientCall] at hcall
    obtain ⟨⟨h', p⟩, hmalloc, heq⟩ := map_eq_ok hcall
    obtain ⟨hf, hnil⟩ | ⟨bs, ls, r, hserves⟩ := hinv
    · obtain ⟨hexit, -⟩ | ⟨h₀, r, -, hsame, hbrk, hlayout, heq₀⟩ :=
        hf.malloc_cases hs debug env hzero
      · rw [hmalloc] at hexit
        cases hexit
      · rw [heq₀, r.malloc_refused debug hzero (hrefused.congr hsame hbrk hlayout)] at hmalloc
        cases hmalloc
        cases heq
        refine .inr ⟨[], _, r, ?_⟩
        rw [if_pos rfl, hnil]
        exact ⟨List.nodup_nil, fun _ hr => (by cases hr), fun _ hd => (by cases hd)⟩
    · rw [r.malloc_refused debug hzero hrefused] at hmalloc
      cases hmalloc
      cases heq
      refine .inr ⟨bs, ls, r, ?_⟩
      rw [if_pos rfl]
      exact hserves

/-- A step whose request is in range keeps the invariant. A write or a free is taken as in
`clientStep`. -/
theorem Client.Inv.anySizeStep (hs : mgr.Sound) (debug : Bool) (hinv : Client.Inv mgr s) {a : Call}
    (hrange : s.InRange mgr a) {s' : Client ι} {out : List Nat}
    (hstep : anySizeStep mgr debug s a = some (s', out)) : Client.Inv mgr s' := by
  unfold SysProg.Memory.anySizeStep at hstep
  split at hstep
  case isFalse => cases hstep
  case isTrue howns =>
    have hcall := toOption_eq_some hstep
    cases a with
    | malloc size env => exact hinv.malloc_inRange hs debug hrange hcall
    | free p =>
        obtain ⟨s'', out', hok, hinv', -⟩ := hinv.free hs debug howns hrange
        rw [hcall] at hok
        cases hok
        exact hinv'
    | write x v =>
        obtain ⟨s'', out', hok, hinv', -⟩ := hinv.write debug howns
        rw [hcall] at hok
        cases hok
        exact hinv'

/-- The run lemma. -/
theorem Client.inv_anySizeRun (hs : mgr.Sound) {debug : Bool} {mem : Mem} {brk limit : Nat}
    (haddr : AddressRange brk limit) {calls : List Call} {out : List Nat}
    (hrange : EveryStep (SysProg.Memory.anySizeStep mgr debug) (fun s a => s.InRange mgr a)
      (Client.start mem brk limit) calls)
    (hrun : run (SysProg.Memory.anySizeStep mgr debug) (Client.start mem brk limit) calls
      = some (s, out)) : Client.Inv mgr s :=
  run_induction_of_steps (I := fun s _ => Client.Inv mgr s) (Client.inv_start haddr)
    (fun _ _ _ _ _ hinv hrange hstep => hinv.anySizeStep hs debug hrange hstep) calls hrange s out
    hrun

/-! ### A truncated request that is served -/

omit [DecidableEq ι] in
/-- A span in memory is an `int`, so no block has room for more than `maxSize` bytes. -/
theorem span_le_of_layout (h : Heap ι) : ∀ b ∈ layout h, b.span ≤ 2147483647 := by
  have hwalk : ∀ fuel w, ∀ b ∈ physFrom h fuel w, b.span ≤ 2147483647 := by
    intro fuel
    induction fuel with
    | zero =>
        intro w b hb
        cases hb
    | succ fuel ih =>
        intro w b hb
        rw [physFrom] at hb
        split at hb
        case isTrue => cases hb
        case isFalse =>
          obtain hb | hb := List.mem_cons.mp hb
          · have hspan : b.span = i32 (load h.mem (w + 4) 4) := by
              rw [hb, chunkGetSpan, loadInt]
            rw [hspan]
            exact i32_le _
          · exact ih _ b hb
  intro b hb
  unfold layout at hb
  split at hb
  case isTrue => cases hb
  case isFalse => exact hwalk (2 ^ 64) h.lo b hb

omit [DecidableEq ι] in
/-- There is no room for a request that is larger than the largest block. -/
theorem not_hasRoom (hlarge : maxSize < size.toNat) (h : Heap ι) (p : Nat) :
    ¬ HasRoom h p size := by
  intro ⟨b, hb, _, _, hroom⟩
  have hspan := span_le_of_layout h b hb
  unfold maxSize chunkUnit intMax at hlarge
  unfold chunkUnit at hroom
  omega

/-- A pointer that is not `NULL` is too much for a request beyond the largest size. -/
theorem not_untruncated {debug : Bool} {p : Nat} (hlarge : maxSize < size.toNat)
    (hmalloc : (heapmgrMalloc mgr debug s.heap env size).map Prod.snd = .ok p) (hp : p ≠ 0) :
    ¬ Untruncated mgr debug s env size := by
  intro huntruncated
  obtain ⟨h', q, hok, ⟨rfl, -⟩ | ⟨-, hhas⟩⟩ | ⟨hexit, -⟩ := huntruncated
  · rw [hok] at hmalloc
    exact hp (Except.ok.inj hmalloc).symm
  · exact not_hasRoom hlarge h' q hhas
  · rw [hexit] at hmalloc
    cases hmalloc

/-- What else the proofs need of a manager, for spans that are not positive: `do_alloc` answers a
pointer behind the block, and the search looks into the lists of all larger spans. -/
structure Manager.Plain (mgr : Manager ι) : Prop where
  above : ∀ h cur need h' p, mgr.doAlloc h cur need = .ok (h', p) → cur + 2 ^ 36 ≤ 2 ^ 64 → p ≠ 0
  complete : ∀ need bins, mgr.searchBins need = some bins → ∀ (span : Nat) i,
    need ≤ span → mgr.binOf span = some i → i ∈ bins

omit [DecidableEq ι] in
/-- The bytes of a truncated request are none only for one number of units. -/
theorem growSpan_of_growBytes_eq_zero (hzero : growBytes size = 0) :
    growSpan (needUnits size) = 2 ^ 60 := by
  have hsize : size.toNat < 2 ^ 64 := size.toNat_lt
  unfold growBytes at hzero
  have hdvd : (2 ^ 64 : Int) ∣ (growSpan (needUnits size) : Int) * chunkUnit :=
    Int.dvd_of_bmod_eq_zero hzero
  unfold growSpan needUnits sysMinAllocUnits chunkUnit at *
  split at hdvd <;> split <;> omega

/-- The footer of a block without units is in front of its header. The span is written there as
well, so it reads as `0`. -/
theorem footerSpan_initBlock_zero {m : Mem} {c : Nat} {status : Int} (hc : 16 ≤ c)
    (hlt : c + 16 < 2 ^ 64) :
    footerSpan (initBlock m c 0 status) (ptrAdd c (-chunkUnit)) = 0 := by
  have hunit : ptrAdd c (-chunkUnit) = c - 16 :=
    ptrAdd_eq (by unfold chunkUnit; omega) (by omega)
  -- The footer of a header with the span `0`, whatever else is in memory.
  have hfoot : ∀ m' : Mem, loadInt m' (c + 4) = 0 → getFooter m' c = c - 16 := by
    intro m' hspan
    have hoffset : i32 (i32 (0 - 1) * chunkUnit) = -16 := by decide
    rw [getFooter, chunkGetSpan, hspan, hoffset]
    exact ptrAdd_eq (by omega) (by omega)
  have hspan₁ : loadInt (storeInt m (c + 4) 0) (c + 4) = 0 :=
    loadInt_storeInt m (c + 4) (by omega) (by omega)
  have hset : chunkSetSpan m c 0 = storeInt (storeInt m (c + 4) 0) (c - 16) 0 := by
    simp only [chunkSetSpan, hfoot _ hspan₁]
  obtain ⟨m₁, hm₁⟩ : ∃ m₁, m₁ = chunkSetSpan m c 0 := ⟨_, rfl⟩
  have hspan₂ : loadInt m₁ (c + 4) = 0 := by
    rw [hm₁, hset, loadInt_storeInt_ne (by omega), hspan₁]
  have hfoot₂ : loadInt m₁ (c - 16) = 0 := by
    rw [hm₁, hset]
    exact loadInt_storeInt _ _ (by omega) (by omega)
  unfold initBlock
  simp only [← hm₁, chunkSetStatus, chunkSetNextFree, chunkSetPrevFree]
  have hspan₃ : loadInt (storePtr (storeInt m₁ c status) (c + 8) 0) (c + 4) = 0 := by
    rw [loadInt_storePtr_ne (by omega), loadInt_storeInt_ne (by omega), hspan₂]
  rw [hfoot _ hspan₃, hunit, footerSpan, loadInt_storePtr_ne (by omega),
    loadInt_storePtr_ne (by omega), loadInt_storeInt_ne (by omega), hfoot₂]

/-- A block whose footer seems to belong to a block of span `0` is merged with nothing else. -/
theorem growMerge_of_span_zero {binOf : Int → Option ι} {c : Nat} {span : Int} {r : Heap ι × Nat}
    (hfoot : h.lo < c → footerSpan h.mem (ptrAdd c (-chunkUnit)) = 0) (hlt : c < 2 ^ 64)
    (hmerge : growMerge binOf h c span = .ok r) : r.2 = c := by
  unfold growMerge at hmerge
  by_cases hprev : chunkGetPrevPhys h.mem c h.lo ≠ 0 ∧
      chunkGetStatus h.mem (chunkGetPrevPhys h.mem c h.lo) = chunkFree
  · simp only [if_pos hprev] at hmerge
    obtain ⟨h₁, -, hr⟩ := map_eq_ok hmerge
    rw [hr]
    show chunkGetPrevPhys h.mem c h.lo = c
    have hne := hprev.1
    unfold chunkGetPrevPhys at hne ⊢
    by_cases hlo : c ≤ h.lo
    · rw [if_pos hlo] at hne
      exact absurd rfl hne
    · have hzero : i32 (0 * (chunkUnit : Int)) = 0 := by decide
      rw [if_neg hlo, hfoot (Nat.lt_of_not_le hlo), hzero]
      exact ptrAdd_eq (by omega) hlt
  · simp only [if_neg hprev] at hmerge
    rw [← Except.ok.inj hmerge]

/-- A block of span `0` at the break is not merged. `sys_grow` takes the footer that it has just
written for that of the block in front, and answers with the old break. -/
theorem sysGrow_of_span_zero {binOf : Int → Option ι} {granted : Bool} {needUnits : Nat}
    {h₁ : Heap ι} {r : Heap ι × Nat} (hspan : i32 (growSpan needUnits : Int) = 0)
    (hbytes : Int.bmod ((growSpan needUnits : Int) * chunkUnit) (2 ^ 64) = 0)
    (hsbrk : h.sbrk granted 0 = (h.brk, h₁)) (hok : ¬ h.brk = sbrkFailed)
    (hbrk : h₁.lo < h.brk → 16 ≤ h.brk) (hlt : h.brk + 16 < 2 ^ 64)
    (hgrow : sysGrow binOf h granted needUnits = .ok r) : r.2 = h.brk := by
  have hgrown : ((if needUnits < sysMinAllocUnits then sysMinAllocUnits else needUnits) + 2 : Nat)
      = growSpan needUnits := rfl
  unfold sysGrow at hgrow
  simp only [hgrown, hbytes, hspan, hsbrk, if_neg hok] at hgrow
  obtain ⟨g₁, hmerge, hinsert⟩ := bind_eq_ok hgrow
  obtain ⟨h₂, -, rfl⟩ := map_eq_ok hinsert
  -- The heap is named, so that its memory is not computed.
  obtain ⟨h₃, hh₃⟩ : ∃ h₃ : Heap ι, h₃ = Heap.setMem { h₁ with hi := h₁.brk }
    (initBlock h₁.mem h.brk 0 chunkFree) := ⟨_, rfl⟩
  have hlo : h₃.lo = h₁.lo := by rw [hh₃, Heap.setMem]
  have hmem : h₃.mem = initBlock h₁.mem h.brk 0 chunkFree := by rw [hh₃, Heap.setMem]
  rw [← hh₃] at hmerge
  show g₁.2 = h.brk
  refine growMerge_of_span_zero (fun hlt' => ?_) (by omega) hmerge
  rw [hmem]
  exact footerSpan_initBlock_zero (hbrk (hlo ▸ hlt')) hlt

/-- The number of bytes by which the heap grows. -/
theorem growBytes_eq : Int.bmod ((growSpan (needUnits size) : Int) * chunkUnit) (2 ^ 64)
    = growBytes size := rfl

omit [DecidableEq ι] in
/-- What the search finds is a block. -/
theorem Rest.search_some (r : Rest mgr h g bs ls) {need : Int} {cur : Nat}
    (hsome : searchFree mgr h need = .ok (some cur)) : ∃ b ∈ bs, b.addr = cur := by
  unfold searchFree at hsome
  cases hbins : mgr.searchBins need with
  | none =>
      rw [hbins] at hsome
      cases hsome
  | some bins =>
      simp only [hbins] at hsome
      obtain ⟨hnone, -⟩ | ⟨b, hb, -, hfound, -⟩ := r.rep.search_spec need bins
      · rw [hnone] at hsome
        cases hsome
      · rw [hfound] at hsome
        cases hsome
        exact ⟨b, hb, rfl⟩

omit [DecidableEq ι] in
/-- When the search finds nothing, no free block has the span. This holds for any `int` that the
search is given. -/
theorem Rest.search_none (hs : mgr.Sound) (hp : mgr.Plain) (r : Rest mgr h g bs ls) {need : Int}
    (hnone : searchFree mgr h need = .ok none) :
    (mgr.searchBins need).isSome ∧ ¬ HasFit h need := by
  unfold searchFree at hnone
  cases hbins : mgr.searchBins need with
  | none =>
      rw [hbins] at hnone
      cases hnone
  | some bins =>
      refine ⟨rfl, ?_⟩
      simp only [hbins] at hnone
      obtain ⟨-, hall⟩ | ⟨b, -, -, hfound, -⟩ := r.rep.search_spec need bins
      · rw [r.hasFit_int_iff]
        intro ⟨b, hb, hfree, hspan⟩
        have hfits := (r.rep.phys.good b hb).fits
        obtain ⟨i, hi⟩ := hs.cover b.span hfits.span_ge hfits.small
        have hlt := hall b hb hfree i (hp.complete _ bins hbins b.span i hspan hi) hi
        omega
      · rw [hfound] at hnone
        cases hnone

omit [DecidableEq ι] in
/-- A heap with a block ends behind its first unit. -/
theorem Rest.unit_le_brk (r : Rest mgr h g bs ls) (hlt : h.lo < h.brk) : 16 ≤ h.brk := by
  have hbrk := r.bounded.brk
  have htiles := r.rep.phys.tiles
  cases bs with
  | nil =>
      have heq : h.lo = h.hi := htiles
      omega
  | cons b bs =>
      have hbound := (htiles.mem_bounds List.mem_cons_self).2
      have hspan := (r.rep.phys.good b List.mem_cons_self).fits.span_ge
      unfold Block.stop at hbound
      omega

/-- A truncated request that is answered with `NULL` and an old break was refused. If `sbrk` had
granted it, the break would have moved or there would be a block. -/
theorem Rest.refused_of_null (hs : mgr.Sound) (hp : mgr.Plain) (debug : Bool)
    (r : Rest mgr h g bs ls) (hroom : h.limit + 2 ^ 36 ≤ 2 ^ 64) (hlarge : maxSize < size.toNat)
    (hmalloc : heapmgrMalloc mgr debug h env size = .ok (h', 0)) (hbrk : h'.brk = h.brk) :
    Refused mgr h env size := by
  have hbounded := r.bounded
  have hle := hbounded.brk_le
  have hhi := hbounded.brk
  have hok : ¬ h.brk = sbrkFailed := by
    unfold sbrkFailed
    omega
  rw [r.heapmgrMalloc_eq debug env (ne_zero_of_large hlarge)] at hmalloc
  clear hlarge
  obtain ⟨cur, hsome, halloc⟩ | ⟨hnone, h₁, c, hgrow, hrest⟩ := allocUnits_ok hmalloc
  · -- A free block has the span, and a pointer behind it is not `NULL`.
    obtain ⟨b, hb, rfl⟩ := r.search_some hsome
    have hstop := (r.rep.phys.tiles.mem_bounds hb).2
    unfold Block.stop at hstop
    exact absurd rfl (hp.above _ _ _ _ _ halloc (by omega))
  · -- No free block has the span, and the heap would have grown.
    obtain ⟨hbins, hnofit⟩ := r.search_none hs hp hnone
    refine ⟨hbins, hnofit, ?_⟩
    by_contra hgranted
    obtain ⟨e, hsbrk, hebrk, helo⟩ := Heap.sbrk_of_ne_failed hgranted
    have hbrk₁ : h₁.brk = e.brk := brk_sysGrow growBytes_eq hsbrk hok hgrow
    -- Behind `sys_grow` the break stays where it is.
    have hend : h'.brk = h₁.brk ∧ (c + 2 ^ 36 ≤ 2 ^ 64 → c = 0) := by
      obtain ⟨hc, rfl, -⟩ | ⟨-, halloc⟩ := hrest
      · exact ⟨rfl, fun _ => hc⟩
      · exact ⟨hs.brk_alloc _ _ _ _ _ halloc,
          fun hroom => absurd rfl (hp.above _ _ _ _ _ halloc hroom)⟩
    have hbytes : growBytes size = 0 := by
      have hsame : h'.brk = e.brk := hend.1.trans hbrk₁
      omega
    rw [hbytes] at hsbrk
    -- Without bytes the new block is at the break, and its pointer is not `NULL`.
    have hspan : i32 (growSpan (needUnits size) : Int) = 0 := by
      rw [growSpan_of_growBytes_eq_zero hbytes]
      decide
    have hc : c = h.brk := sysGrow_of_span_zero hspan (growBytes_eq.trans hbytes)
      hsbrk hok (fun hlt => r.unit_le_brk (helo ▸ hlt)) (by omega) hgrow
    have hnull := hend.2 (by omega)
    have hpos := r.rep.phys.pos
    have hlo := r.rep.phys.tiles.le
    omega

/-- A request beyond the largest size is not truncated exactly when it is refused. Here the memory
ends early enough for no pointer to wrap around. -/
theorem Client.Inv.untruncated_iff_refused (hs : mgr.Sound) (hp : mgr.Plain) (debug : Bool)
    (hinv : Client.Inv mgr s) (hroom : s.heap.limit + 2 ^ 36 ≤ 2 ^ 64)
    (hlarge : maxSize < size.toNat) :
    Untruncated mgr debug s env size ↔
      Refused mgr s.heap env size ∨
        heapmgrMalloc mgr debug s.heap env size = .error .exited ∧
          s.Exits (.malloc size env) := by
  have hzero := ne_zero_of_large hlarge
  constructor
  · intro huntruncated
    obtain ⟨h', p, hmalloc, ⟨rfl, hsame⟩ | ⟨-, hhas⟩⟩ | hexit := huntruncated
    · left
      obtain ⟨hf, -⟩ | ⟨bs, ls, r, -⟩ := hinv
      · obtain ⟨hexit, -⟩ | ⟨h₀, r, -, hrange, hbrk, hlayout, heq⟩ :=
          hf.malloc_cases hs debug env hzero
        · rw [hmalloc] at hexit
          cases hexit
        · have hroom₀ : h₀.limit + 2 ^ 36 ≤ 2 ^ 64 := hrange.limit ▸ hroom
          have hrefused : Refused mgr h₀ env size :=
            r.refused_of_null hs hp debug hroom₀ hlarge (heq ▸ hmalloc) (hsame.brk.trans hbrk.symm)
          exact hrefused.congr ⟨hrange.base.symm, hrange.limit.symm⟩ hbrk.symm hlayout.symm
      · exact r.refused_of_null hs hp debug hroom hlarge hmalloc hsame.brk
    · exact absurd hhas (not_hasRoom hlarge h' p)
    · exact .inr hexit
  · intro hcases
    obtain hrefused | hexit := hcases
    · exact hinv.untruncated hs debug (.inr ⟨hlarge, hrefused⟩)
    · exact .inr hexit

end

namespace Heapmgr1

/-- `heapmgr1` with spans that are not positive. Its only list is searched for every span. -/
theorem plain : manager.Plain where
  above := by
    intro h cur need h' p halloc hcur
    have hdef : manager.doAlloc = doAlloc := by rw [manager]
    rw [hdef] at halloc
    unfold doAlloc at halloc
    by_cases hsplit : 2 ≤ i32 (chunkGetSpan h.mem cur - need)
    · simp only [if_pos hsplit, Except.ok.injEq, Prod.mk.injEq] at halloc
      have hle := i32_le (chunkGetSpan h.mem cur - need)
      have hcut : ptrAdd cur (i32 (chunkGetSpan h.mem cur - need) * chunkUnit)
          = cur + 16 * (i32 (chunkGetSpan h.mem cur - need)).toNat :=
        ptrAdd_eq (by unfold chunkUnit; omega) (by omega)
      have hpay : ptrAdd (cur + 16 * (i32 (chunkGetSpan h.mem cur - need)).toNat) chunkUnit
          = cur + 16 * (i32 (chunkGetSpan h.mem cur - need)).toNat + 16 :=
        ptrAdd_chunkUnit (by omega)
      rw [← halloc.2, hcut, hpay]
      omega
    · simp only [if_neg hsplit] at halloc
      obtain ⟨h₁, -, hpair⟩ := map_eq_ok halloc
      rw [(Prod.mk.inj hpair).2, ptrAdd_chunkUnit (by omega)]
      omega
  complete := by
    intro need bins hbins span i _ _
    cases hbins
    exact List.mem_singleton.mpr rfl

end Heapmgr1

namespace Heapmgr2

/-- `heapmgr2` with spans that are not positive. When the search has a list to start at, the lists
of all larger spans come behind it. -/
theorem plain : manager.Plain where
  above := by
    intro h cur need h' p halloc hcur
    have hdef : manager.doAlloc = doAlloc := by rw [manager]
    rw [hdef] at halloc
    unfold doAlloc at halloc
    obtain ⟨h₁, -, halloc⟩ := bind_eq_ok halloc
    have hpay : ptrAdd cur chunkUnit = cur + 16 := ptrAdd_chunkUnit (by omega)
    by_cases hsplit : 2 ≤ i32 (chunkGetSpan h.mem cur - need)
    · simp only [if_pos hsplit] at halloc
      obtain ⟨h₂, -, hpair⟩ := map_eq_ok halloc
      rw [(Prod.mk.inj hpair).2, hpay]
      omega
    · simp only [if_neg hsplit, Except.ok.injEq, Prod.mk.injEq] at halloc
      rw [← halloc.2, hpay]
      omega
  complete := by
    intro need bins hbins span i hneed hi
    have hbin := binOf_eq_some (show binOf span = some i from hi)
    have hmono := getBinIndex_mono hneed
    have hsearch : searchBins need = some bins := hbins
    unfold searchBins getSearchBin at hsearch
    by_cases hneg : getBinIndex need < 0
    · simp only [if_pos hneg] at hsearch
      cases hsearch
    · simp only [if_neg hneg] at hsearch
      cases hsearch
      exact mem_drop_finRange (by omega)

end Heapmgr2

/-- In every reachable state the next call keeps to the sizes. It is `KeepsSizes` field by field. -/
theorem Client.Inv.keepsSizes [DecidableEq ι] (hs : mgr.Sound) (hp : mgr.Plain) (debug : Bool)
    (hinv : Client.Inv mgr s) : s.KeepsSizes mgr debug where
  inRange := fun _ _ hrange => hinv.untruncated hs debug hrange
  large := fun hroom _ _ hlarge => hinv.untruncated_iff_refused hs hp debug hroom hlarge

/-- No request size is silently truncated, as long as the sizes are in range. In every state of a
program whose calls all are, a further request in range gets a block with room for its bytes, or
`NULL` with a heap that is as before, with either manager. -/
theorem malloc_untruncated {debug : Bool} {mem : Mem} {brk limit : Nat}
    (haddr : AddressRange brk limit) :
    (∀ calls (s : Client Unit) out,
      run (anySizeStep Heapmgr1.manager debug) (Client.start mem brk limit) calls = some (s, out) →
      EveryStep (anySizeStep Heapmgr1.manager debug) (fun s a => s.InRange Heapmgr1.manager a)
        (Client.start mem brk limit) calls → s.KeepsSizes Heapmgr1.manager debug) ∧
    ∀ calls (s : Client (Fin Heapmgr2.numBins)) out,
      run (anySizeStep Heapmgr2.manager debug) (Client.start mem brk limit) calls = some (s, out) →
      EveryStep (anySizeStep Heapmgr2.manager debug) (fun s a => s.InRange Heapmgr2.manager a)
        (Client.start mem brk limit) calls → s.KeepsSizes Heapmgr2.manager debug := by
  constructor
  · intro calls s out hrun hcalls
    have hinv := Client.inv_anySizeRun Heapmgr1.sound haddr hcalls hrun
    exact hinv.keepsSizes Heapmgr1.sound Heapmgr1.plain debug
  · intro calls s out hrun hcalls
    have hinv := Client.inv_anySizeRun Heapmgr2.sound haddr hcalls hrun
    exact hinv.keepsSizes Heapmgr2.sound Heapmgr2.plain debug

/-- The first call of a program with little memory is in range. -/
theorem everyStep_malloc_inRange {step : Client ι → Call → Option (Client ι × List Nat)}
    {mem : Mem} {brk limit : Nat} (hbreak : BreakRange brk limit) (hsize : size.toNat ≤ maxSize)
    {s' : Client ι} {out : List Nat}
    (hstep : step (Client.start mem brk limit) (.malloc size env) = some (s', out)) :
    EveryStep step (fun s a => s.InRange mgr a) (Client.start mem brk limit)
      [.malloc size env] := by
  have hinv : Client.Inv mgr (Client.start mem brk limit) := Client.inv_start hbreak.addresses
  have hfit := hinv.sizesFit hbreak.small (.malloc size env)
  exact everyStep_cons (.inl ⟨hsize, hfit⟩) hstep everyStep_nil

/-- After an allocation, 68719492736 bytes are searched for as 1002 units. No block has them, and
`sbrk` refuses the 68719492768 bytes of the truncated growth. -/
theorem malloc_untruncated_refused :
    (∃ s : Client Unit,
      run (anySizeStep Heapmgr1.manager true) (Client.start ⟨fun _ => 0⟩ 4096 100000)
        [.malloc 100 ⟨true, true⟩] = some (s, [12192]) ∧
      Untruncated Heapmgr1.manager true s ⟨true, true⟩ 68719492736) ∧
    ∃ s : Client (Fin Heapmgr2.numBins),
      run (anySizeStep Heapmgr2.manager true) (Client.start ⟨fun _ => 0⟩ 4096 100000)
        [.malloc 100 ⟨true, true⟩] = some (s, [4112]) ∧
      Untruncated Heapmgr2.manager true s ⟨true, true⟩ 68719492736 := by
  have hbreak : BreakRange 4096 100000 := ⟨by decide, by decide, by decide, by decide⟩
  have hmap₁ : (run (anySizeStep Heapmgr1.manager true) (Client.start ⟨fun _ => 0⟩ 4096 100000)
      [.malloc 100 ⟨true, true⟩]).map (fun r => (r.2, layout r.1.heap,
        (r.1.heap.sbrk true (growBytes 68719492736)).1))
      = some ([12192], [⟨4096, 505, 0⟩, ⟨12176, 9, 1⟩], sbrkFailed) := by decide +kernel
  have hmap₂ : (run (anySizeStep Heapmgr2.manager true) (Client.start ⟨fun _ => 0⟩ 4096 100000)
      [.malloc 100 ⟨true, true⟩]).map (fun r => (r.2, layout r.1.heap,
        (r.1.heap.sbrk true (growBytes 68719492736)).1))
      = some ([4112], [⟨4096, 9, 1⟩, ⟨4240, 505, 0⟩], sbrkFailed) := by decide +kernel
  constructor
  · obtain ⟨⟨s, out⟩, hrun, heq⟩ := Option.map_eq_some_iff.mp hmap₁
    simp only [Prod.mk.injEq] at heq
    obtain ⟨rfl, hlayout, hsbrk⟩ := heq
    have hnofit : ¬ HasFit s.heap (truncatedSpan 68719492736) := by
      unfold HasFit
      rw [hlayout]
      decide
    have hstep := (run_singleton _ _).symm.trans hrun
    exact ⟨s, hrun, ((malloc_untruncated hbreak.addresses).1 _ s _ hrun
      (everyStep_malloc_inRange hbreak (by decide) hstep)).inRange _ _
        (.inr ⟨by decide, by decide, hnofit, hsbrk⟩)⟩
  · obtain ⟨⟨s, out⟩, hrun, heq⟩ := Option.map_eq_some_iff.mp hmap₂
    simp only [Prod.mk.injEq] at heq
    obtain ⟨rfl, hlayout, hsbrk⟩ := heq
    have hnofit : ¬ HasFit s.heap (truncatedSpan 68719492736) := by
      unfold HasFit
      rw [hlayout]
      decide
    have hstep := (run_singleton _ _).symm.trans hrun
    exact ⟨s, hrun, ((malloc_untruncated hbreak.addresses).2 _ s _ hrun
      (everyStep_malloc_inRange hbreak (by decide) hstep)).inRange _ _
        (.inr ⟨by decide, by decide, hnofit, hsbrk⟩)⟩

/-- A request for 68719476752 bytes gets a block of 16 bytes, with either manager. The units of the
request do not fit into an `int`. -/
theorem malloc_truncated :
    (∃ s : Client Unit,
      run (anySizeStep Heapmgr1.manager true) (Client.start ⟨fun _ => 0⟩ 4096 100000)
        [.malloc 100 ⟨true, true⟩] = some (s, [12192]) ∧
      ¬ Untruncated Heapmgr1.manager true s ⟨true, true⟩ 68719476752) ∧
    ∃ s : Client (Fin Heapmgr2.numBins),
      run (anySizeStep Heapmgr2.manager true) (Client.start ⟨fun _ => 0⟩ 4096 100000)
        [.malloc 100 ⟨true, true⟩] = some (s, [4112]) ∧
      ¬ Untruncated Heapmgr2.manager true s ⟨true, true⟩ 68719476752 := by
  have hmap₁ : (run (anySizeStep Heapmgr1.manager true) (Client.start ⟨fun _ => 0⟩ 4096 100000)
      [.malloc 100 ⟨true, true⟩]).map (fun r => (r.2,
        ((heapmgrMalloc Heapmgr1.manager true r.1.heap ⟨true, true⟩ 68719476752).map
          Prod.snd).toOption)) = some ([12192], some 12144) := by decide +kernel
  have hmap₂ : (run (anySizeStep Heapmgr2.manager true) (Client.start ⟨fun _ => 0⟩ 4096 100000)
      [.malloc 100 ⟨true, true⟩]).map (fun r => (r.2,
        ((heapmgrMalloc Heapmgr2.manager true r.1.heap ⟨true, true⟩ 68719476752).map
          Prod.snd).toOption)) = some ([4112], some 4256) := by decide +kernel
  constructor
  · obtain ⟨⟨s, out⟩, hrun, heq⟩ := Option.map_eq_some_iff.mp hmap₁
    obtain ⟨rfl, hp⟩ := Prod.mk.inj heq
    refine ⟨s, hrun, ?_⟩
    exact not_untruncated (by decide) (toOption_eq_some hp) (by decide)
  · obtain ⟨⟨s, out⟩, hrun, heq⟩ := Option.map_eq_some_iff.mp hmap₂
    obtain ⟨rfl, hp⟩ := Prod.mk.inj heq
    refine ⟨s, hrun, ?_⟩
    exact not_untruncated (by decide) (toOption_eq_some hp) (by decide)

end SysProg.Memory
