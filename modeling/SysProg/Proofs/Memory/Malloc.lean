import SysProg.Proofs.Memory.Physical

/-!
# `SysProg.Proofs.Memory.Malloc`: the two calls

* `Rest.malloc_spec`: `heapmgr_malloc` leaves the heap as it is, or adds a block of the client.
* `Rest.free_spec`: `heapmgr_free` takes a block of the client away.
* `Rest.write_spec`: the client may write to the payload of its blocks.

None of them changes a byte of the other blocks of the client, and no assertion fails.
-/

set_option autoImplicit false

namespace SysProg.Memory

open SysProg.Lib

variable {ι : Type} {mgr : Manager ι} {h : Heap ι} {g : Mem} {pre suf bs : List Block}
  {b u : Block} {ls : ι → List Nat} {need : Nat}

/-- The answer of a call that adds the block `u` for `need` units to the heap of `bs`, whose
memory was `g`. -/
structure Gained (mgr : Manager ι) (g : Mem) (bs : List Block) (need : Nat) (h' : Heap ι)
    (u : Block) (bs' : List Block) (ls' : ι → List Nat) : Prop where
  rest : Rest mgr h' h'.mem bs' ls'
  blocks : (liveBlocks bs').Perm (u :: liveBlocks bs)
  span : need ≤ u.span
  kept : ∀ d ∈ liveBlocks bs, ∀ x, d.addr ≤ x → x < d.stop → h'.mem.byte x = g.byte x

/-! ### `heapmgr_malloc` -/

/-- `do_alloc` on a free block. The new block is among the blocks that the free one was turned
into, and it passes to the client. -/
theorem Rest.carve (hs : mgr.Sound) (r : Rest mgr h g (pre ++ b :: suf) ls)
    (hfree : b.state = .free) (hneed : 2 ≤ need) (hspan : need ≤ b.span) :
    ∃ h' u xs ys ls', mgr.doAlloc h b.addr need = .ok (h', u.addr + 16) ∧ SameBounds h h' ∧
      Carved b need (xs ++ u :: ys) u ∧
      Gained mgr g (pre ++ b :: suf) need h' { u with state := .live }
        ((pre ++ xs) ++ { u with state := .live } :: (ys ++ suf)) ls' := by
  obtain ⟨h', ls', mid, u, heq, hsame, hcarved, r'⟩ :=
    hs.alloc h g pre suf b ls need r.rep hfree hneed hspan
  have hadj := hcarved.noAdjacentFree hfree r.adj
  obtain ⟨hused, hneedu, xs, ys, rfl, hxs, hys⟩ := hcarved.split hspan
  have happend : pre ++ ((xs ++ u :: ys) ++ suf) = (pre ++ xs) ++ u :: (ys ++ suf) := by simp
  rw [happend] at r' hadj
  have hlive : liveBlocks (pre ++ b :: suf) = liveBlocks pre ++ liveBlocks suf := by
    rw [liveBlocks_append, liveBlocks_cons_ne (by rw [hfree]; decide)]
  -- The blocks of the client are on the two sides of the block that is carved.
  have hsides : ∀ d ∈ pre ++ b :: suf, d ∈ liveBlocks (pre ++ b :: suf) →
      d ∈ (pre ++ xs) ++ u :: (ys ++ suf) ∧ d.state = .live := by
    intro d _ hd
    rw [hlive] at hd
    rcases List.mem_append.mp hd with hd | hd
    · have hmem := mem_liveBlocks.mp hd
      exact ⟨by simp [hmem.1], hmem.2⟩
    · have hmem := mem_liveBlocks.mp hd
      exact ⟨by simp [hmem.1], hmem.2⟩
  -- The new block passes to the client, with the ghost of the end of the call.
  have hgain := (r'.reghost h'.mem fun _ _ _ _ _ => rfl).restate .live
    (Or.inl hused) (Or.inr rfl) fun _ _ _ _ => rfl
  refine ⟨h', u, xs, ys, ls', heq, hsame, hcarved, ⟨⟨hgain, ?_, ?_, ?_, ?_⟩, ?_, hneedu, ?_⟩⟩
  · intro d hd
    rcases List.mem_append.mp hd with hd | hd
    · rcases List.mem_append.mp hd with hd | hd
      · exact r.settled d (by simp [hd])
      · exact Or.inl (hxs d hd)
    · rcases List.mem_cons.mp hd with rfl | hd
      · exact Or.inr rfl
      · rcases List.mem_append.mp hd with hd | hd
        · exact Or.inl (hys d hd)
        · exact r.settled d (by simp [hd])
  · have hparts := (noAdjacentFree_middle (by rw [hused]; decide)).mp hadj
    exact (noAdjacentFree_middle BlockState.noConfusion).mpr hparts
  · exact r.bounded.same hsame
  · rw [hsame.booted, r.booted]
  · rw [liveBlocks_append, liveBlocks_append, liveBlocks_cons_live rfl, liveBlocks_append,
      liveBlocks_free hxs, liveBlocks_free hys, List.append_nil, List.nil_append, hlive]
    exact List.perm_middle
  · intro d hd x hlo hhi
    obtain ⟨hmem, hdlive⟩ := hsides d (mem_liveBlocks.mp hd).1 hd
    exact (r'.phys.good d hmem).live hdlive x hlo hhi

/-- Only the blocks of the client matter to the answer of a call. -/
theorem Gained.congr {bs₁ bs' : List Block} {h' : Heap ι} {ls' : ι → List Nat}
    (hgain : Gained mgr g bs₁ need h' u bs' ls') (hlive : liveBlocks bs₁ = liveBlocks bs) :
    Gained mgr g bs need h' u bs' ls' := by
  refine ⟨hgain.rest, ?_, hgain.span, ?_⟩
  · rw [← hlive]
    exact hgain.blocks
  · rw [← hlive]
    exact hgain.kept

/-- The block that `sys_grow` answers with is large enough. -/
theorem le_grown_span (bs : List Block) (hi needUnits : Nat) :
    needUnits + 2 ≤ (grown bs hi needUnits).2.span :=
  (le_growSpan needUnits).trans (le_absorbLeft_span bs ⟨hi, growSpan needUnits, .raw⟩)

/-- A size whose span is an `int`. -/
theorem needUnits_le {size : UInt64} (hsize : size.toNat ≤ maxSize) :
    needUnits size ≤ 2147483645 := by
  unfold maxSize chunkUnit intMax at hsize
  unfold needUnits chunkUnit
  omega

/-- The units have room for the size. -/
theorem le_needUnits {size : UInt64} (hsize : size.toNat ≤ maxSize) :
    size.toNat ≤ 16 * needUnits size := by
  unfold maxSize chunkUnit intMax at hsize
  unfold needUnits chunkUnit
  omega

/-- The span of a request is its units with a header and a footer. -/
theorem needSpan_eq (size : UInt64) : needSpan size = (needUnits size + 2 : Nat) := by
  unfold needSpan
  omega

/-- New memory makes a small block, when no free block has room. -/
theorem Rest.small_of_growthFits (r : Rest mgr h g bs ls) {env : Sbrk} {size : UInt64}
    (hpos : 0 < size) (hfit : GrowthFits h env size)
    (hnone : ∀ b ∈ bs, b.state = .free → b.span < needUnits size + 2) (hextend : env.extend = true)
    (hroom : h.brk + 16 * growSpan (needUnits size) ≤ h.limit) :
    (grown bs h.hi (needUnits size)).2.Small := by
  have hnofit : ¬ HasFit h (needSpan size) := by
    rw [needSpan_eq, r.hasFit_iff]
    intro ⟨b, hb, hfree, hspan⟩
    have hlt := hnone b hb hfree
    omega
  exact r.small_grown (hfit ⟨hpos, hnofit, hextend, hroom⟩)

section
variable [DecidableEq ι]

/-- `sys_grow` and the heap at rest. It is refused and leaves the heap alone, or it answers with a
free block at the end that has the span. -/
theorem Rest.grow (hs : mgr.Sound) (r : Rest mgr h g bs ls) (granted : Bool) {needUnits : Nat}
    (hunits : needUnits ≤ 2147483645)
    (hsmall : granted = true → h.brk + 16 * growSpan needUnits ≤ h.limit →
      (grown bs h.hi needUnits).2.Small) :
    sysGrow mgr.binOf h granted needUnits = .ok (h, 0) ∨
      ∃ h' pre b ls', sysGrow mgr.binOf h granted needUnits = .ok (h', b.addr) ∧
        b.state = .free ∧ needUnits + 2 ≤ b.span ∧ Rest mgr h' g (pre ++ b :: []) ls' ∧
        pre ++ b :: [] = release bs ⟨h.hi, growSpan needUnits, .raw⟩ [] ∧ SameRange h h' ∧
        h.brk < h'.brk := by
  rcases r.rep.grow_spec hs.cover r.bounded r.settled granted hunits hsmall with
    hrefused | hgranted
  · exact Or.inl hrefused
  · obtain ⟨h', ls', heq, hbounded, hrange, hbooted, hbrk, r'⟩ := hgranted
    -- The heap grows like a release of the new block, with nothing on its right.
    have hrelease : (grown bs h.hi needUnits).1 ++ [(grown bs h.hi needUnits).2]
        = release bs ⟨h.hi, growSpan needUnits, .raw⟩ [] := rfl
    refine Or.inr ⟨h', _, _, ls', heq, rfl, le_grown_span bs h.hi needUnits, ⟨r', ?_, ?_,
      hbounded, hbooted.trans r.booted⟩, hrelease, hrange, hbrk⟩
    · intro d hd
      rw [hrelease] at hd
      rcases mem_release hd with hd | hfree | hd
      · exact r.settled d hd
      · exact Or.inl hfree
      · cases hd
    · rw [hrelease]
      exact noAdjacentFree_release r.adj List.isChain_nil

/-- The span of the units is computed without overflow. -/
theorem i32_units {needUnits : Nat} (hunits : needUnits ≤ 2147483645) :
    i32 (i32 (needUnits : Int) + 2) = (needUnits + 2 : Nat) := by
  rw [i32_eq (x := (needUnits : Int)) (by omega) (by omega), i32_eq (by omega) (by omega)]
  omega

omit [DecidableEq ι] in
/-- The search finds a free block that is large enough, or there is none in the heap. -/
theorem Rest.searchFree_cases (hs : mgr.Sound) (r : Rest mgr h g bs ls) {needUnits : Nat}
    (hunits : needUnits ≤ 2147483645) :
    searchFree mgr h (needUnits + 2 : Nat) = .ok none ∧
        (∀ b ∈ bs, b.state = .free → b.span < needUnits + 2) ∨
      ∃ b ∈ bs, b.state = .free ∧ needUnits + 2 ≤ b.span ∧
        searchFree mgr h (needUnits + 2 : Nat) = .ok (some b.addr) := by
  obtain ⟨bins, hbins⟩ := hs.search (needUnits + 2) (by omega) (by omega)
  have hsearch : searchFree mgr h (needUnits + 2 : Nat)
      = searchLists h (needUnits + 2 : Nat) bins := by simp only [searchFree, hbins]
  rw [hsearch]
  rcases r.rep.search_spec (needUnits + 2 : Nat) bins with
    ⟨hnone, hall⟩ | ⟨b, hb, hfree, hsome, hspan⟩
  · refine Or.inl ⟨hnone, ?_⟩
    -- A free block that is large enough would be in one of the lists that were searched.
    intro b hb hfree
    by_contra hlt
    have hfits := (r.rep.phys.good b hb).fits
    obtain ⟨i, hi⟩ := hs.cover b.span hfits.span_ge hfits.small
    obtain ⟨bins', hbins', hmem⟩ :=
      hs.complete (needUnits + 2) b.span (by omega) (by omega) i hi
    rw [hbins] at hbins'
    have hspan := hall b hb hfree i (Option.some.inj hbins' ▸ hmem) hi
    omega
  · exact Or.inr ⟨b, hb, hfree, by omega, hsome⟩

/-- What `heapmgr_malloc` has done behind the bootstrap, when it returns. It has carved a block that
it found, or the heap has grown, and it has carved the new block or answered `NULL`. -/
theorem allocUnits_ok {debug : Bool} {env : Sbrk} {needUnits : Nat} {h' : Heap ι} {p : Nat}
    (halloc : allocUnits mgr debug h env needUnits = .ok (h', p)) :
    (∃ cur, searchFree mgr h (i32 (i32 needUnits + 2)) = .ok (some cur) ∧
      mgr.doAlloc h cur (i32 (i32 needUnits + 2)) = .ok (h', p)) ∨
    searchFree mgr h (i32 (i32 needUnits + 2)) = .ok none ∧
      ∃ h₁ c, sysGrow mgr.binOf h env.extend needUnits = .ok (h₁, c) ∧
        (c = 0 ∧ h' = h₁ ∧ p = 0 ∨
          c ≠ 0 ∧ mgr.doAlloc h₁ c (i32 (i32 needUnits + 2)) = .ok (h', p)) := by
  unfold allocUnits at halloc
  obtain ⟨_, -, halloc⟩ := bind_eq_ok halloc
  obtain ⟨found, hfound, halloc⟩ := bind_eq_ok halloc
  cases found with
  | some cur =>
      obtain ⟨r, hcarve, halloc⟩ := bind_eq_ok halloc
      obtain ⟨_, -, heq⟩ := bind_eq_ok halloc
      cases heq
      exact Or.inl ⟨cur, hfound, hcarve⟩
  | none =>
      obtain ⟨⟨h₁, c⟩, hgrow, halloc⟩ := bind_eq_ok halloc
      refine Or.inr ⟨hfound, h₁, c, hgrow, ?_⟩
      by_cases hc : c = 0
      · simp only [if_pos hc] at halloc
        obtain ⟨_, -, heq⟩ := bind_eq_ok halloc
        cases heq
        exact Or.inl ⟨hc, rfl, rfl⟩
      · simp only [if_neg hc] at halloc
        obtain ⟨r, hcarve, halloc⟩ := bind_eq_ok halloc
        obtain ⟨_, -, heq⟩ := bind_eq_ok halloc
        cases heq
        exact Or.inr ⟨hc, hcarve⟩

/-- The two ways of `heapmgr_malloc` behind the bootstrap. No free block is large enough, and the
heap grows or stays as it is. Or a free block is found. Then `do_alloc` has the last word. -/
theorem Rest.allocUnits_cases (hs : mgr.Sound) (debug : Bool) (r : Rest mgr h g bs ls)
    (env : Sbrk) {needUnits : Nat} (hunits : needUnits ≤ 2147483645)
    (hsmall : (∀ b ∈ bs, b.state = .free → b.span < needUnits + 2) → env.extend = true →
      h.brk + 16 * growSpan needUnits ≤ h.limit → (grown bs h.hi needUnits).2.Small) :
    (searchFree mgr h (needUnits + 2 : Nat) = .ok none ∧
      (∀ b ∈ bs, b.state = .free → b.span < needUnits + 2) ∧
      (sysGrow mgr.binOf h env.extend needUnits = .ok (h, 0) ∧
          allocUnits mgr debug h env needUnits = .ok (h, 0) ∨
        ∃ h₁ pre b ls₁, sysGrow mgr.binOf h env.extend needUnits = .ok (h₁, b.addr) ∧
          b.state = .free ∧ needUnits + 2 ≤ b.span ∧ Rest mgr h₁ g (pre ++ b :: []) ls₁ ∧
          pre ++ b :: [] = release bs ⟨h.hi, growSpan needUnits, .raw⟩ [] ∧ SameRange h h₁ ∧
          h.brk < h₁.brk ∧
          allocUnits mgr debug h env needUnits
            = mgr.doAlloc h₁ b.addr (needUnits + 2 : Nat))) ∨
      ∃ pre b suf, bs = pre ++ b :: suf ∧ b.state = .free ∧ needUnits + 2 ≤ b.span ∧
        searchFree mgr h (needUnits + 2 : Nat) = .ok (some b.addr) ∧
        allocUnits mgr debug h env needUnits = mgr.doAlloc h b.addr (needUnits + 2 : Nat) := by
  have hneed := i32_units hunits
  -- `do_alloc` returns, and the assertion behind it holds.
  have hcarve : ∀ {h₁ : Heap ι} {pre suf : List Block} {b : Block} {ls₁ : ι → List Nat},
      Rest mgr h₁ g (pre ++ b :: suf) ls₁ → b.state = .free → needUnits + 2 ≤ b.span →
      (do let c ← mgr.doAlloc h₁ b.addr (needUnits + 2 : Nat)
          assertValid mgr debug c.1
          return c) = mgr.doAlloc h₁ b.addr (needUnits + 2 : Nat) := by
    intro h₁ pre suf b ls₁ r₁ hfree hspan
    obtain ⟨h', u, xs, ys, ls', halloc, -, -, hgain⟩ := r₁.carve hs hfree (by omega) hspan
    simp only [halloc, bind, Except.bind, hgain.rest.assertValid_eq debug]
    rfl
  unfold allocUnits
  simp only [hneed, r.assertValid_eq debug, bind, Except.bind] at hcarve ⊢
  rcases r.searchFree_cases hs hunits with ⟨hnone, hnofit⟩ | ⟨b, hb, hfree, hspan, hsome⟩
  · -- No free block is large enough.
    refine Or.inl ⟨hnone, hnofit, ?_⟩
    rw [hnone]
    simp only
    rcases r.grow hs env.extend hunits (hsmall hnofit) with
      hrefused | ⟨h₁, pre, b, ls₁, heq, hfree, hspan, r₁, hgrown, hrange, hbrk⟩
    · refine Or.inl ⟨hrefused, ?_⟩
      rw [hrefused]
      simp only [if_true, r.assertValid_eq debug]
      rfl
    -- The grown heap is at rest apart from its break, so its last block is carved like any other.
    · have hpos := (r₁.rep.phys.good b (by simp)).fits.pos
      refine Or.inr ⟨h₁, pre, b, ls₁, heq, hfree, hspan, r₁, hgrown, hrange, hbrk, ?_⟩
      rw [heq]
      simp only [if_neg (show ¬ b.addr = 0 by omega)]
      exact hcarve r₁ hfree hspan
  -- A block of the lists fits.
  · rw [hsome]
    obtain ⟨pre, suf, rfl⟩ := List.append_of_mem hb
    exact Or.inr ⟨pre, b, suf, rfl, hfree, hspan, rfl, hcarve r hfree hspan⟩

/-- On a heap that is set up there is no bootstrap. -/
theorem Rest.heapmgrMalloc_eq (r : Rest mgr h g bs ls) (debug : Bool) (env : Sbrk) {size : UInt64}
    (hsize : size ≠ 0) :
    heapmgrMalloc mgr debug h env size = allocUnits mgr debug h env (needUnits size) := by
  unfold heapmgrMalloc
  rw [if_neg hsize, if_pos r.booted]
  rfl

/-- `heapmgr_malloc` on a heap that is set up. It answers `NULL` and does nothing, or the client
gains a block with room for the size. -/
theorem Rest.malloc_spec (hs : mgr.Sound) (debug : Bool) (r : Rest mgr h g bs ls) (env : Sbrk)
    {size : UInt64} (hsize : size.toNat ≤ maxSize) (hfit : GrowthFits h env size) :
    heapmgrMalloc mgr debug h env size = .ok (h, 0) ∨
      ∃ h' u bs' ls' need, heapmgrMalloc mgr debug h env size = .ok (h', u.addr + 16) ∧
        0 < size.toNat ∧ size.toNat + 32 ≤ 16 * need ∧ Gained mgr g bs need h' u bs' ls' ∧
        SameRange h h' := by
  have hunits := needUnits_le hsize
  have hle := le_needUnits hsize
  by_cases hzero : size = 0
  · rw [heapmgrMalloc, if_pos hzero]
    exact Or.inl rfl
  · have hpos := UInt64.pos_iff_ne_zero.mpr hzero
    rw [r.heapmgrMalloc_eq debug env hzero]
    rcases r.allocUnits_cases hs debug env hunits (r.small_of_growthFits hpos hfit) with
      ⟨_, _, ⟨_, heq⟩ | ⟨h₁, pre, b, ls₁, _, hfree, hspan, r₁, hgrown, hrange, _, heq⟩⟩ |
        ⟨pre, b, suf, rfl, hfree, hspan, _, heq⟩
    · exact Or.inl heq
    · obtain ⟨h', u, xs, ys, ls', halloc, hsame, -, hgain⟩ := r₁.carve hs hfree (by omega) hspan
      -- The growth adds no block of the client.
      have hlive : liveBlocks (pre ++ b :: []) = liveBlocks bs := by
        rw [hgrown, liveBlocks_release]
        exact List.append_nil _
      exact Or.inr ⟨h', { u with state := .live }, _, ls', _, heq.trans halloc, hpos, by omega,
        hgain.congr hlive, hrange.trans hsame.range⟩
    · obtain ⟨h', u, xs, ys, ls', halloc, hsame, -, hgain⟩ := r.carve hs hfree (by omega) hspan
      exact Or.inr ⟨h', { u with state := .live }, _, ls', _, heq.trans halloc, hpos, by omega,
        hgain, hsame.range⟩

/-! ### `heap_bootstrap` -/

/-- The heap before the first allocation. -/
structure Fresh (h : Heap ι) : Prop where
  booted : h.booted = false
  lo : h.lo = 0
  hi : h.hi = 0
  heads : ∀ i, h.heads i = 0
  base : h.base = h.brk
  pos : 0 < h.brk
  brk_le : h.brk ≤ h.limit
  limit_lt : h.limit < 2 ^ 64 - 1

omit [DecidableEq ι] in
/-- There are no blocks then. -/
theorem Fresh.layout_eq (hf : Fresh h) : layout h = [] := by
  rw [layout, if_pos (hf.lo.trans hf.hi.symm)]

omit [DecidableEq ι] in
/-- `heap_bootstrap` stops the program, or sets an empty heap up. The break stays where it is. -/
theorem Fresh.bootstrap_spec (hs : mgr.Sound) (hf : Fresh h) (granted : Bool) :
    granted = false ∧ heapBootstrap mgr h granted = .error .exited ∨
      ∃ h', heapBootstrap mgr h granted = .ok h' ∧ SameRange h h' ∧ h'.brk = h.brk ∧
        Rest mgr h' h'.mem [] fun _ => [] := by
  have hbase := hf.base
  have hle := hf.brk_le
  have hlt := hf.limit_lt
  have hpos := hf.pos
  unfold heapBootstrap Heap.sbrk
  cases granted with
  | false => exact Or.inl ⟨rfl, by simp⟩
  | true =>
      have hok : ¬ h.brk = sbrkFailed := by
        unfold sbrkFailed
        omega
      -- `sbrk(0)` is always within the bounds of the break.
      have hgrant : true = true ∧ (h.base : Int) ≤ h.brk + 0 ∧ (h.brk : Int) + 0 ≤ h.limit :=
        ⟨rfl, by omega, by omega⟩
      have hsame : ((h.brk : Int) + 0).toNat = h.brk := by omega
      rw [if_pos hgrant, hsame]
      simp only [if_neg hok]
      refine Or.inr ⟨_, rfl, ⟨rfl, rfl⟩, rfl,
        ⟨⟨⟨rfl, ?_, ?_, hpos⟩, ?_, ?_, ?_⟩, ?_, List.isChain_nil, ?_, rfl⟩⟩
      · intro b hb
        cases hb
      · show h.brk < 2 ^ 64
        omega
      · intro i
        exact hs.boot h.heads hf.heads i
      · intro i
        exact List.nodup_nil
      · intro i c
        constructor
        · intro hc
          cases hc
        · intro ⟨b, hb, _⟩
          cases hb
      · intro b hb
        cases hb
      · exact ⟨rfl, hbase, hle, hlt⟩

/-- The first call of `heapmgr_malloc` exits, or goes on as on the empty heap that is set up. -/
theorem Fresh.malloc_cases (hs : mgr.Sound) (debug : Bool) (hf : Fresh h) (env : Sbrk)
    {size : UInt64} (hsize : size ≠ 0) :
    heapmgrMalloc mgr debug h env size = .error .exited ∧ env.query = false ∨
      ∃ h₀, Rest mgr h₀ h₀.mem [] (fun _ => []) ∧ searchedHeap mgr h env = .ok h₀ ∧
        SameRange h h₀ ∧ h₀.brk = h.brk ∧ layout h = layout h₀ ∧
        heapmgrMalloc mgr debug h env size = heapmgrMalloc mgr debug h₀ env size := by
  have hbooted : ¬ h.booted = true := by
    rw [hf.booted]
    exact Bool.false_ne_true
  have hsearched : searchedHeap mgr h env = heapBootstrap mgr h env.query := by
    unfold searchedHeap
    rw [if_neg hbooted]
  rcases hf.bootstrap_spec hs env.query with ⟨hquery, heq⟩ | ⟨h₀, heq, hrange, hbrk, r⟩
  · refine Or.inl ⟨?_, hquery⟩
    unfold heapmgrMalloc
    simp only [if_neg hsize, if_neg hbooted, heq]
    rfl
  · refine Or.inr ⟨h₀, r, hsearched.trans heq, hrange, hbrk, ?_, ?_⟩
    · rw [r.layout_eq, hf.layout_eq]
      rfl
    · unfold heapmgrMalloc
      simp only [if_neg hsize, if_neg hbooted, if_pos r.booted, heq]
      rfl

omit [DecidableEq ι] in
/-- The bootstrap does not matter to the growth. -/
theorem GrowthFits.congr {h₀ : Heap ι} {env : Sbrk} {size : UInt64} (hfit : GrowthFits h env size)
    (hrange : SameRange h h₀) (hbrk : h₀.brk = h.brk) (hlayout : layout h = layout h₀) :
    GrowthFits h₀ env size := by
  unfold GrowthFits Grows HasFit at hfit ⊢
  rwa [← hlayout, hbrk, hrange.limit]

/-! ### `heapmgr_free` -/

/-- `heapmgr_free` of a block of the client releases it. The blocks afterwards are those of
`release`. -/
theorem Rest.free_release (hs : mgr.Sound) (debug : Bool) (r : Rest mgr h g (pre ++ u :: suf) ls)
    (hlive : u.state = .live) (hfit : FreesFit h [u.addr + 16]) :
    ∃ h' ls', heapmgrFree mgr debug h (u.addr + 16) = .ok h' ∧ SameBounds h h' ∧
      Rest mgr h' g (release pre { u with state := .used } suf) ls' := by
  have hgood := r.rep.phys.good u (by simp)
  have hspan := hgood.fits.span_ge
  have hstop := hgood.fits.stop_lt
  -- The pointer leads back to the header, and the status there passes the assertion.
  have hchunk : ptrAdd (u.addr + 16) (-chunkUnit) = u.addr :=
    ptrAdd_neg_chunkUnit (by omega)
  have hstatus : chunkGetStatus h.mem u.addr = chunkUsed := hgood.used (Or.inr hlive)
  have hparts := (noAdjacentFree_middle (by rw [hlive]; decide)).mp r.adj
  have r₁ := r.rep.restate .used (Or.inr hlive) (Or.inl rfl) fun hused => by cases hused
  obtain ⟨h₁, h₂, c, h', ls', hright, hleft, hinsert, hsame, r'⟩ :=
    r₁.release_spec hs.cover (Or.inl rfl) (fun d hd => r.settled d (by simp [hd]))
      (fun d hd => r.settled d (by simp [hd])) (r.small_release hlive hfit)
  have hrest : Rest mgr h' g (release pre { u with state := .used } suf) ls' := by
    refine ⟨r', ?_, noAdjacentFree_release hparts.1 hparts.2, r.bounded.same hsame, ?_⟩
    · intro d hd
      rcases mem_release hd with hd | hfree | hd
      · exact r.settled d (by simp [hd])
      · exact Or.inl hfree
      · exact r.settled d (by simp [hd])
    · rw [hsame.booted, r.booted]
  refine ⟨h', ls', ?_, hsame, hrest⟩
  have hstate : ({ u with state := .used } : Block).addr = u.addr := rfl
  rw [hstate] at hright hleft
  unfold heapmgrFree
  simp only [hchunk, hstatus, r.assertValid_eq debug, hrest.assertValid_eq debug, hright, hleft,
    hinsert, bind, Except.bind]
  simp [pure, Except.pure]

/-- `heapmgr_free` of a block of the client. -/
theorem Rest.free_spec (hs : mgr.Sound) (debug : Bool) (r : Rest mgr h g bs ls)
    (hu : u ∈ liveBlocks bs) (hfit : FreesFit h [u.addr + 16]) :
    ∃ h' bs' ls', heapmgrFree mgr debug h (u.addr + 16) = .ok h' ∧ SameRange h h' ∧
      Rest mgr h' h'.mem bs' ls' ∧
      (liveBlocks bs).Perm (u :: liveBlocks bs') ∧
      ∀ d ∈ liveBlocks bs', ∀ x, d.addr ≤ x → x < d.stop → h'.mem.byte x = g.byte x := by
  obtain ⟨hmem, hlive⟩ := mem_liveBlocks.mp hu
  obtain ⟨pre, suf, rfl⟩ := List.append_of_mem hmem
  obtain ⟨h', ls', heq, hsame, hrest⟩ := r.free_release hs debug hlive hfit
  refine ⟨h', _, ls', heq, hsame.range, hrest.refresh, ?_,
    fun d hd x hlo hhi => hrest.kept hd hlo hhi⟩
  rw [liveBlocks_release, liveBlocks_append, liveBlocks_cons_live hlive]
  exact List.perm_middle

end

/-! ### Writes of the client -/

/-- A write to the payload of a block of the client. No header and no footer is there, so the heap
stays at rest. -/
theorem Rest.write_spec (r : Rest mgr h h.mem bs ls) (hu : u ∈ liveBlocks bs) {m : Mem} {x : Nat}
    (hlo : u.addr + 16 ≤ x) (hhi : x + 16 < u.stop)
    (hout : ∀ y, y ≠ x → m.byte y = h.mem.byte y) :
    Rest mgr (h.setMem m) m bs ls := by
  obtain ⟨hmem, hlive⟩ := mem_liveBlocks.mp hu
  obtain ⟨pre, suf, rfl⟩ := List.append_of_mem hmem
  have hgood := r.rep.phys.good u hmem
  have hspan := hgood.fits.span_ge
  -- The header and the footer of the block are not written to.
  have hint : ∀ a, a + 4 ≤ u.addr + 16 ∨ u.foot ≤ a → loadInt m a = loadInt h.mem a := by
    intro a ha
    unfold Block.stop at hhi
    unfold Block.foot at ha
    unfold loadInt
    rw [load_congr fun y hylo hyhi => hout y (by omega)]
  have hnew : Good m m u := by
    refine ⟨hgood.fits, ?_, ?_, fun hfree => ?_, fun hused => ?_, fun _ _ _ _ => rfl⟩
    · rw [← hgood.header]
      exact hint _ (by omega)
    · rw [← hgood.footer]
      exact hint _ (Or.inr (Nat.le_refl _))
    · rw [hlive] at hfree
      cases hfree
    · rw [← hgood.used hused]
      exact hint _ (by omega)
  -- While the client writes, the block is a used one, and the ghost is the memory afterwards.
  have r₁ := r.rep.restate .used (Or.inr hlive) (Or.inl rfl) fun hused => by cases hused
  have r₂ := r₁.reghost m fun d hd y hylo hyhi => by
    rw [liveBlocks_append, liveBlocks_cons_ne BlockState.noConfusion] at hd
    refine (hout y ?_).symm
    rcases List.mem_append.mp hd with hd | hd
    · have hle := r.rep.phys.tiles.before (mem_liveBlocks.mp hd).1
      omega
    · have hle := r.rep.phys.tiles.behind (mem_liveBlocks.mp hd).1
      omega
  have hold : Tiles u.addr [{ u with state := .used }] u.stop := ⟨rfl, rfl⟩
  have htiles : Tiles u.addr [u] u.stop := ⟨rfl, rfl⟩
  have hbusy : ∀ d ∈ [({ u with state := .used } : Block)], d.state ≠ .free := by
    intro d hd
    rw [List.mem_singleton.mp hd]
    exact BlockState.noConfusion
  have hbusy' : ∀ d ∈ [u], d.state ≠ .free := by
    intro d hd
    rw [List.mem_singleton.mp hd, hlive]
    exact BlockState.noConfusion
  have r₃ := Rep.resize (show Rep mgr.binOf h m (pre ++ ([{ u with state := .used }] ++ suf)) ls
    from r₂) hold htiles (List.cons_ne_nil _ _) (fun y hy => hout y (by omega))
    (fun d hd => by rw [List.mem_singleton.mp hd]; exact hnew) hbusy hbusy'
  exact ⟨r₃, r.settled, r.adj, r.bounded.same (SameBounds.setMem h m), r.booted⟩

end SysProg.Memory
