import SysProg.Memory.Physical
import SysProg.Proofs.Memory.Invariant

/-!
# `SysProg.Proofs.Memory.Fit`: `heapmgr_malloc` grows the heap only when it must

* `Rest.placed`: how the new block is cut out of a free one.
* `malloc_grows_iff` is the result, for both managers. It needs that no block is so large that its
  size is not an `int`, and `malloc_grows_lost_block` is a run that has such a block.
-/

set_option autoImplicit false

namespace SysProg.Memory

open SysProg.Lib

variable {ι : Type} {mgr : Manager ι} {h : Heap ι} {g : Mem} {bs pre suf : List Block}
  {b : Block} {ls : ι → List Nat} {s : Client ι}

/-! ### `heapmgr_malloc` -/

/-- A result that is there. -/
theorem toOption_eq_some {α ε : Type} {x : Except ε α} {a : α} (h : x.toOption = some a) :
    x = .ok a := by
  cases x with
  | error e => cases h
  | ok b => exact congrArg Except.ok (Option.some.inj h)

/-- A free block can be found. -/
theorem Rest.findable (hs : mgr.Sound) (r : Rest mgr h g bs ls) (hb : b ∈ bs)
    (hfree : b.state = .free) : Findable mgr h b.entry := by
  have hfits := (r.rep.phys.good b hb).fits
  obtain ⟨i, hi⟩ := hs.cover b.span hfits.span_ge hfits.small
  refine ⟨i, ls i, ⟨r.rep.linked i, r.rep.nodup i⟩, r.rep.mem_of_free hb hfree hi, ?_⟩
  intro need hneed hle
  obtain ⟨n, rfl⟩ := Int.eq_ofNat_of_zero_le (show 0 ≤ need by omega)
  have hspan : (n : Int) ≤ b.span := hle
  exact hs.complete n b.span (by omega) (by omega) i hi

/-- The block that `do_alloc` answers with is cut out of the free one. The other blocks keep their
places and their states. -/
theorem Rest.placed (hs : mgr.Sound) {h' : Heap ι} {u : Block}
    {xs ys : List Block} {need : Nat} {ls' : ι → List Nat} (r : Rest mgr h g (pre ++ b :: suf) ls)
    (hfree : b.state = .free) (hspan : need ≤ b.span) (hcarved : Carved b need (xs ++ u :: ys) u)
    (r' : Rest mgr h' h'.mem ((pre ++ xs) ++ { u with state := .live } :: (ys ++ suf)) ls') :
    Placed mgr need h b.entry h' (u.addr + 16) { u with state := .live : Block }.entry := by
  obtain ⟨hused, _, _⟩ := hcarved.split hspan
  -- In memory a block of the client is a used block.
  have hentry : { u with state := .live : Block }.entry = u.entry := by
    unfold Block.entry
    rw [hused]
    rfl
  have hlayout : layout h' = pre.map Block.entry ++ (xs ++ u :: ys).map Block.entry ++
      suf.map Block.entry := by
    rw [r'.layout_eq]
    simp [hentry]
  have hmem : ∀ d ∈ xs ++ ys, d ∈ (pre ++ xs) ++ { u with state := .live } :: (ys ++ suf) := by
    intro d hd
    rcases List.mem_append.mp hd with hd | hd
    · simp [hd]
    · simp [hd]
  have hstatus : u.entry.status = chunkUsed := by
    unfold Block.entry
    rw [hused]
    rfl
  have hfind : ∀ d ∈ xs ++ ys, d.state = .free → Findable mgr h' d.entry := by
    intro d hd hdfree
    exact r'.findable hs (hmem d hd) hdfree
  rw [hentry]
  have hcut : Cut mgr h' need b.entry.span u.entry ((xs ++ u :: ys).map Block.entry) ∧
      (u.span = need ∨ u.span = need + 1) := by
    have hbspan : b.entry.span = b.span := rfl
    rw [hbspan]
    generalize hmid : xs ++ u :: ys = mid at hcarved
    cases hcarved with
    | whole hwhole =>
        refine ⟨.whole (by omega) rfl, ?_⟩
        simp only
        omega
    | back hback =>
        refine ⟨.back (by omega) rfl ?_ rfl
          (hfind ⟨b.addr, b.span - need, .free⟩ ?_ rfl), Or.inl rfl⟩
        · show ((b.span - need : Nat) : Int) = b.span - need
          omega
        · have hin : (⟨b.addr, b.span - need, .free⟩ : Block)
              ∈ xs ++ (⟨b.addr + 16 * (b.span - need), need, .used⟩ : Block) :: ys := by
            rw [hmid]
            simp
          simpa using hin
    | front hfront =>
        refine ⟨.front (by omega) rfl ?_ rfl
          (hfind ⟨b.addr + 16 * need, b.span - need, .free⟩ ?_ rfl), Or.inl rfl⟩
        · show ((b.span - need : Nat) : Int) = b.span - need
          omega
        · have hin : (⟨b.addr + 16 * need, b.span - need, .free⟩ : Block)
              ∈ xs ++ (⟨b.addr, need, .used⟩ : Block) :: ys := by
            rw [hmid]
            simp
          simpa using hin
  refine ⟨b.entry_free_iff.mpr hfree, ?_, ⟨_, _, _, ?_, hlayout, hcut.1⟩, hstatus, ?_, rfl⟩
  · show (need : Int) ≤ b.span
    omega
  · rw [r.layout_eq, List.map_append, List.map_cons]
  · show (u.span : Int) = need ∨ (u.span : Int) = need + 1
    have hneed := hcut.2
    omega

section
variable [DecidableEq ι]

omit [DecidableEq ι] in
/-- On a heap that is set up the search starts at once. -/
theorem Rest.searchedHeap_eq (r : Rest mgr h g bs ls) (env : Sbrk) :
    searchedHeap mgr h env = .ok h := by
  unfold searchedHeap
  rw [if_pos r.booted]

/-- `sys_grow` moves the break over the new block when `sbrk` grants it, and changes nothing when
`sbrk` refuses. -/
theorem Rest.sysGrow_brk (r : Rest mgr h g bs ls) {env : Sbrk} {size : UInt64}
    (hunits : needUnits size ≤ 2147483645) {h₁ : Heap ι} {c : Nat}
    (hgrow : sysGrow mgr.binOf h env.extend (needUnits size) = .ok (h₁, c)) :
    Granted h env size ∧ h₁.brk = h.brk + chunkUnit * growSpan (needUnits size) ∨
      ¬ Granted h env size ∧ h₁ = h ∧ c = 0 := by
  have hbytes := bmod_bytes (growSpan_le hunits)
  have hlimit := r.bounded.limit_lt
  by_cases hgrant : Granted h env size
  · have hsbrk := r.bounded.sbrk_granted r.rep.phys.tiles.le hgrant.2
    have hok : ¬ h.brk = sbrkFailed := by
      have hle := r.bounded.brk_le
      unfold sbrkFailed
      omega
    rw [hgrant.1] at hgrow
    exact Or.inl ⟨hgrant, brk_sysGrow hbytes hsbrk hok hgrow⟩
  · refine Or.inr ⟨hgrant, ?_⟩
    obtain hrefused | ⟨hextend, hroom, -⟩ :=
      r.bounded.sbrk_cases r.rep.phys.tiles.le env.extend (16 * growSpan (needUnits size))
    · unfold sysGrow at hgrow
      have hspan : ((if needUnits size < sysMinAllocUnits then sysMinAllocUnits
          else needUnits size) + 2 : Nat) = growSpan (needUnits size) := rfl
      simp only [hspan, hbytes, hrefused, if_true] at hgrow
      cases hgrow
      exact ⟨rfl, rfl⟩
    · exact absurd ⟨hextend, hroom⟩ hgrant

/-- When the search finds a block, `heapmgr_malloc` does not look at what `sbrk` would answer. -/
theorem allocUnits_of_found {debug : Bool} {units c : Nat} (hunits : units ≤ 2147483645)
    (hfound : searchFree mgr h (units + 2 : Nat) = .ok (some c)) (env env' : Sbrk) :
    allocUnits mgr debug h env units = allocUnits mgr debug h env' units := by
  simp only [allocUnits, i32_units hunits, hfound, bind, Except.bind]

/-- `heapmgr_malloc` on a heap that is set up. It takes a free block that fits, or the heap grows,
or it answers `NULL`. -/
theorem Rest.malloc_exact (hs : mgr.Sound) (debug : Bool) (r : Rest mgr h g bs ls) {env : Sbrk}
    {size : UInt64} (hpos : 0 < size) (hunits : needUnits size ≤ 2147483645)
    (hfit : GrowthFits h env size) :
    ∃ h' p, heapmgrMalloc mgr debug h env size = .ok (h', p) ∧
      MallocExact mgr debug h env size h' p := by
  have hneed := needSpan_eq size
  have hsearched := r.searchedHeap_eq env
  have hhas := r.hasFit_iff (needUnits size + 2)
  have hunfold := fun env => r.heapmgrMalloc_eq debug env (UInt64.pos_iff_ne_zero.mp hpos)
  rw [hunfold env]
  rcases r.allocUnits_cases hs debug env hunits (r.small_of_growthFits hpos hfit) with
    ⟨hnone, hall, hgrow⟩ | ⟨pre, b, suf, rfl, hfree, hspan, hsome, halloc⟩
  · have hnofit : ¬ HasFit h (needSpan size) := by
      rw [hneed, hhas]
      intro ⟨b, hb, hfree, hspan⟩
      have hlt := hall b hb hfree
      omega
    rcases hgrow with ⟨hgrow, heq⟩ | ⟨h₁, pre, b, ls₁, hgrow, hfree, hspan, r₁, _, _, hbrk, heq⟩
    · -- The break has not moved, so `sbrk` has refused.
      have hrefused : ¬ Granted h env size := by
        intro hgrant
        obtain ⟨-, hbrk⟩ | ⟨hnot, -⟩ := r.sysGrow_brk hunits hgrow
        · have hgrown := le_growSpan (needUnits size)
          unfold chunkUnit at hbrk
          omega
        · exact hnot hgrant
      exact ⟨h, 0, heq, iff_of_true (Or.inr ⟨hrefused, rfl, rfl⟩) hnofit,
        iff_of_true rfl ⟨hnofit, hrefused⟩, fun hyes => absurd hyes hnofit,
        fun hne => absurd rfl hne⟩
    · obtain ⟨h', u, xs, ys, ls', halloc, hsame, hcarved, hgain⟩ :=
        r₁.carve hs hfree (by omega) hspan
      have hne : u.addr + 16 ≠ 0 := by omega
      -- The break has moved, so `sbrk` has granted.
      obtain ⟨hgrant, hgrown⟩ | ⟨-, rfl, -⟩ := r.sysGrow_brk hunits hgrow
      · have htries : TriesToGrow h env size h' (u.addr + 16) :=
          Or.inl ⟨hgrant, hne, hsame.brk.trans hgrown⟩
        refine ⟨h', u.addr + 16, heq.trans halloc, iff_of_true htries hnofit,
          iff_of_false hne fun hboth => hboth.2 hgrant, fun hyes => absurd hyes hnofit,
          fun _ => ⟨h, h₁, b.entry, { u with state := .live : Block }.entry, hsearched, ?_, ?_, ?_⟩⟩
        · exact Or.inr ⟨by rw [hneed, hnone], hgrow⟩
        · rw [hneed]
          exact halloc
        · rw [hneed]
          exact r₁.placed hs hfree hspan hcarved hgain.rest
      · exact absurd hbrk (Nat.lt_irrefl _)
  · obtain ⟨h', u, xs, ys, ls', hcarve, hsame, hcarved, hgain⟩ := r.carve hs hfree (by omega) hspan
    have hyes : HasFit h (needSpan size) := by
      rw [hneed, hhas]
      exact ⟨b, by simp, hfree, hspan⟩
    have hne : u.addr + 16 ≠ 0 := by omega
    -- The break has not moved, and there is a pointer.
    have hno : ¬ TriesToGrow h env size h' (u.addr + 16) := by
      rintro (⟨-, -, hbrk⟩ | ⟨-, hnull, -⟩)
      · have hkept : h'.brk = h.brk := hsame.brk
        have hgrown := le_growSpan (needUnits size)
        unfold chunkUnit at hbrk
        omega
      · exact hne hnull
    refine ⟨h', u.addr + 16, halloc.trans hcarve, iff_of_false hno (not_not_intro hyes),
      iff_of_false hne fun hboth => hboth.1 hyes, fun _ => ⟨hne, hsame.brk, fun extend => ?_⟩,
      fun _ => ⟨h, h, b.entry, { u with state := .live : Block }.entry, hsearched, ?_, ?_, ?_⟩⟩
    · rw [hunfold, allocUnits_of_found hunits hsome _ env]
      exact halloc.trans hcarve
    · exact Or.inl ⟨by rw [hneed, hsome]; rfl, rfl⟩
    · rw [hneed]
      exact hcarve
    · rw [hneed]
      exact r.placed hs hfree hspan hcarved hgain.rest

/-- `heapmgr_malloc` on the heap before the first allocation. The bootstrap fails and the program
exits, or the call goes on as on an empty heap. -/
theorem Fresh.malloc_exact (hs : mgr.Sound) (debug : Bool) (hf : Fresh h) {env : Sbrk}
    {size : UInt64} (hpos : 0 < size) (hunits : needUnits size ≤ 2147483645)
    (hfit : GrowthFits h env size) :
    (∃ h' p, heapmgrMalloc mgr debug h env size = .ok (h', p) ∧
        MallocExact mgr debug h env size h' p) ∨
      heapmgrMalloc mgr debug h env size = .error .exited ∧ env.query = false := by
  rcases hf.malloc_cases hs debug env (UInt64.pos_iff_ne_zero.mp hpos) with
    hexit | ⟨h₀, r, hsearched, hrange, hbrk, hlayout, hmalloc⟩
  · exact Or.inr hexit
  · have hsame : searchedHeap mgr h env = searchedHeap mgr h₀ env := by
      rw [hsearched, r.searchedHeap_eq env]
    -- The bootstrap changes neither the break nor the blocks, and there are none.
    have hhas : HasFit h (needSpan size) ↔ HasFit h₀ (needSpan size) := by
      unfold HasFit
      rw [hlayout]
    have hgrant : Granted h env size ↔ Granted h₀ env size := by
      unfold Granted
      rw [hbrk, hrange.limit]
    have hnofit : ¬ HasFit h (needSpan size) := by
      rintro ⟨b, hb, -⟩
      rw [hf.layout_eq] at hb
      cases hb
    obtain ⟨h', p, hok, hexact⟩ :=
      r.malloc_exact hs debug hpos hunits (hfit.congr hrange hbrk hlayout)
    refine Or.inl ⟨h', p, hmalloc.trans hok, ?_, ?_, fun hyes => absurd hyes hnofit, ?_⟩
    · rw [hhas, ← hexact.grows_iff]
      unfold TriesToGrow
      rw [hgrant, hbrk]
    · rw [hhas, hgrant]
      exact hexact.null_iff
    · rw [hsame]
      exact hexact.placed

/-- `heapmgr_malloc` in a run of a program. -/
theorem Client.Inv.malloc_exact (hs : mgr.Sound) (debug : Bool) (hinv : Client.Inv mgr s)
    {size : UInt64} {env : Sbrk} (hpos : 0 < size) (hsize : size.toNat ≤ maxSize)
    (hfit : s.SizesFit (.malloc size env)) :
    (∃ h' p, heapmgrMalloc mgr debug s.heap env size = .ok (h', p) ∧
        MallocExact mgr debug s.heap env size h' p) ∨
      heapmgrMalloc mgr debug s.heap env size = .error .exited ∧ s.Exits (.malloc size env) := by
  have hunits := needUnits_le hsize
  rcases hinv with ⟨hf, _⟩ | ⟨bs, ls, r, _⟩
  · rcases hf.malloc_exact hs debug hpos hunits hfit with hok | ⟨hexit, hquery⟩
    · exact Or.inl hok
    · exact Or.inr ⟨hexit, hf.booted, size, env, rfl, hquery⟩
  · exact Or.inl (r.malloc_exact hs debug hpos hunits hfit)

end

/-- `heapmgr_malloc` grows the heap only when it must, and wastes at most one unit, as long as no
block is so large that its size is not an `int`. In every state of a program that keeps the
contract, a call with a size whose span is an `int` is as `MallocExact` says, with either manager,
unless the program exits because `sbrk` does not tell the break. No call of the run and not this
one either may make such a block. The index of the bin of a span is monotone and in range. -/
theorem malloc_grows_iff {debug : Bool} {mem : Mem} {brk limit : Nat}
    (haddr : AddressRange brk limit) :
    (∀ calls (s : Client Unit) out,
      run (clientStep Heapmgr1.manager debug) (Client.start mem brk limit) calls = some (s, out) →
      CallsFit Heapmgr1.manager debug (Client.start mem brk limit) calls →
      ∀ (size : UInt64) env, 0 < size → size.toNat ≤ maxSize → s.SizesFit (.malloc size env) →
        (∃ h' p, Heapmgr1.heapmgrMalloc debug s.heap env size = .ok (h', p) ∧
            MallocExact Heapmgr1.manager debug s.heap env size h' p) ∨
          Heapmgr1.heapmgrMalloc debug s.heap env size = .error .exited ∧
            s.Exits (.malloc size env)) ∧
    (∀ calls (s : Client (Fin Heapmgr2.numBins)) out,
      run (clientStep Heapmgr2.manager debug) (Client.start mem brk limit) calls = some (s, out) →
      CallsFit Heapmgr2.manager debug (Client.start mem brk limit) calls →
      ∀ (size : UInt64) env, 0 < size → size.toNat ≤ maxSize → s.SizesFit (.malloc size env) →
        (∃ h' p, Heapmgr2.heapmgrMalloc debug s.heap env size = .ok (h', p) ∧
            MallocExact Heapmgr2.manager debug s.heap env size h' p) ∨
          Heapmgr2.heapmgrMalloc debug s.heap env size = .error .exited ∧
            s.Exits (.malloc size env)) ∧
    ∀ span span' : Int, 2 ≤ span → span ≤ span' → 0 ≤ Heapmgr2.getBinIndex span ∧
      Heapmgr2.getBinIndex span ≤ Heapmgr2.getBinIndex span' ∧
      Heapmgr2.getBinIndex span' < Heapmgr2.numBins := by
  refine ⟨?_, ?_, ?_⟩
  · intro calls s out hrun hcalls size env hpos hsize hfit
    exact (Client.inv_run Heapmgr1.sound haddr hcalls hrun).malloc_exact Heapmgr1.sound debug
      hpos hsize hfit
  · intro calls s out hrun hcalls size env hpos hsize hfit
    exact (Client.inv_run Heapmgr2.sound haddr hcalls hrun).malloc_exact Heapmgr2.sound debug
      hpos hsize hfit
  · intro span span' hspan hle
    exact ⟨(Heapmgr2.getBinIndex_range hspan).1, Heapmgr2.getBinIndex_mono hle,
      (Heapmgr2.getBinIndex_range (by omega)).2⟩

/-- A freed block of 66 units is in the first bin that is not exact. It answers a request for 65
units as a whole, with either manager. -/
theorem malloc_grows_iff_boundary :
    (∃ s : Client Unit,
      run (clientStep Heapmgr1.manager true) (Client.start ⟨fun _ => 0⟩ 4096 100000)
        [.malloc 1024 ⟨true, true⟩, .malloc 100 ⟨true, true⟩, .free 11280]
        = some (s, [11280, 11136]) ∧
      ∃ h', Heapmgr1.heapmgrMalloc true s.heap ⟨true, false⟩ 1008 = .ok (h', 11280) ∧
        MallocExact Heapmgr1.manager true s.heap ⟨true, false⟩ 1008 h' 11280) ∧
    ∃ s : Client (Fin Heapmgr2.numBins),
      run (clientStep Heapmgr2.manager true) (Client.start ⟨fun _ => 0⟩ 4096 100000)
        [.malloc 1024 ⟨true, true⟩, .malloc 100 ⟨true, true⟩, .free 4112]
        = some (s, [4112, 5168]) ∧
      ∃ h', Heapmgr2.heapmgrMalloc true s.heap ⟨true, false⟩ 1008 = .ok (h', 4112) ∧
        MallocExact Heapmgr2.manager true s.heap ⟨true, false⟩ 1008 h' 4112 := by
  have hbreak : BreakRange 4096 100000 := ⟨by decide, by decide, by decide, by decide⟩
  have hmap₁ : (run (clientStep Heapmgr1.manager true) (Client.start ⟨fun _ => 0⟩ 4096 100000)
      [.malloc 1024 ⟨true, true⟩, .malloc 100 ⟨true, true⟩, .free 11280]).map (fun r =>
        (r.2, ((Heapmgr1.heapmgrMalloc true r.1.heap ⟨true, false⟩ 1008).map Prod.snd).toOption))
      = some ([11280, 11136], some 11280) := by decide +kernel
  have hmap₂ : (run (clientStep Heapmgr2.manager true) (Client.start ⟨fun _ => 0⟩ 4096 100000)
      [.malloc 1024 ⟨true, true⟩, .malloc 100 ⟨true, true⟩, .free 4112]).map (fun r =>
        (r.2, ((Heapmgr2.heapmgrMalloc true r.1.heap ⟨true, false⟩ 1008).map Prod.snd).toOption))
      = some ([4112, 5168], some 4112) := by decide +kernel
  constructor
  · obtain ⟨⟨s, out⟩, hrun, heq⟩ := Option.map_eq_some_iff.mp hmap₁
    obtain ⟨rfl, hp⟩ := Prod.mk.inj heq
    have hfit := (Client.inv_run_of_breakRange Heapmgr1.sound hbreak hrun).2
    rcases (malloc_grows_iff hbreak.addresses).1 _ s _ hrun
        (callsFit_of_breakRange Heapmgr1.sound hbreak _) 1008 ⟨true, false⟩ (by decide) (by decide)
        (hfit _) with ⟨h', p, hok, hexact⟩ | ⟨hexit, _⟩
    · simp only [hok, Except.map, Except.toOption, Option.some.injEq] at hp
      subst hp
      exact ⟨s, hrun, h', hok, hexact⟩
    · simp [hexit, Except.map, Except.toOption] at hp
  · obtain ⟨⟨s, out⟩, hrun, heq⟩ := Option.map_eq_some_iff.mp hmap₂
    obtain ⟨rfl, hp⟩ := Prod.mk.inj heq
    have hfit := (Client.inv_run_of_breakRange Heapmgr2.sound hbreak hrun).2
    rcases (malloc_grows_iff hbreak.addresses).2.1 _ s _ hrun
        (callsFit_of_breakRange Heapmgr2.sound hbreak _) 1008 ⟨true, false⟩ (by decide) (by decide)
        (hfit _) with ⟨h', p, hok, hexact⟩ | ⟨hexit, _⟩
    · simp only [hok, Except.map, Except.toOption, Option.some.injEq] at hp
      subst hp
      exact ⟨s, hrun, h', hok, hexact⟩
    · simp [hexit, Except.map, Except.toOption] at hp

/-- A block of 3000000032 bytes. Its size as an `int` is negative, so freeing it takes a place in
the first allocation for its right neighbour, which is detached from the head of the free list.
The list loses a block of 505 units, and a request for 65 units goes to `sys_grow`. The break
moves up by 8224 bytes, or the answer is `NULL` when `sbrk` refuses. -/
theorem malloc_grows_lost_block :
    AddressRange 4096 10000000000 ∧ ∃ s : Client Unit,
      run (clientStep Heapmgr1.manager false) (Client.start ⟨fun _ => 0⟩ 4096 10000000000)
        [.malloc 2000000000 ⟨true, true⟩, .malloc 100 ⟨true, true⟩,
          .malloc 3000000000 ⟨true, true⟩, .free 2000012368, .malloc 3000000000 ⟨true, true⟩]
        = some (s, [4112, 2000012224, 2000012368, 2000012368]) ∧
      HasFit s.heap (needSpan 1000) ∧
      ∀ extend, ∃ h' p, Heapmgr1.heapmgrMalloc false s.heap ⟨true, extend⟩ 1000 = .ok (h', p) ∧
        TriesToGrow s.heap ⟨true, extend⟩ 1000 h' p := by
  have hmap : (run (clientStep Heapmgr1.manager false)
      (Client.start ⟨fun _ => 0⟩ 4096 10000000000)
        [.malloc 2000000000 ⟨true, true⟩, .malloc 100 ⟨true, true⟩,
          .malloc 3000000000 ⟨true, true⟩, .free 2000012368,
          .malloc 3000000000 ⟨true, true⟩]).map (fun r => (r.2, r.1.heap.brk, r.1.heap.limit,
            (layout r.1.heap).take 2))
      = some ([4112, 2000012224, 2000012368, 2000012368], 5000012384, 10000000000,
          [⟨4096, 125000002, 1⟩, ⟨2000004128, 505, 0⟩]) := by
    decide +kernel
  -- The call with each answer of `sbrk`: the pointer, and the break behind it.
  have hcalls : (run (clientStep Heapmgr1.manager false)
      (Client.start ⟨fun _ => 0⟩ 4096 10000000000)
        [.malloc 2000000000 ⟨true, true⟩, .malloc 100 ⟨true, true⟩,
          .malloc 3000000000 ⟨true, true⟩, .free 2000012368,
          .malloc 3000000000 ⟨true, true⟩]).map (fun r => [true, false].map fun extend =>
            ((Heapmgr1.heapmgrMalloc false r.1.heap ⟨true, extend⟩ 1000).map
              fun q => (q.2, q.1.brk)).toOption)
      = some [some (5000027808, 5000020608), some (0, 5000012384)] := by
    decide +kernel
  obtain ⟨⟨s, out⟩, hrun, heq⟩ := Option.map_eq_some_iff.mp hmap
  simp only [Prod.mk.injEq] at heq
  obtain ⟨rfl, hbrk, hlimit, hlayout⟩ := heq
  rw [hrun] at hcalls
  simp only [Option.map_some, List.map_cons, List.map_nil, Option.some.injEq, List.cons.injEq,
    and_true] at hcalls
  refine ⟨⟨by decide, by decide, by decide⟩, s, hrun, ⟨⟨2000004128, 505, 0⟩, ?_, rfl, by decide⟩,
    fun extend => ?_⟩
  · exact List.mem_of_mem_take (by rw [hlayout]; decide)
  · cases extend with
    | true =>
        obtain ⟨⟨h', p⟩, hok, heq⟩ := map_eq_ok (toOption_eq_some hcalls.1)
        obtain ⟨rfl, hbrk'⟩ := Prod.mk.inj heq
        have hroom : s.heap.brk + chunkUnit * growSpan (needUnits 1000) ≤ s.heap.limit := by
          rw [hbrk, hlimit]
          decide
        refine ⟨h', _, hok, Or.inl ⟨⟨rfl, hroom⟩, by decide, ?_⟩⟩
        rw [hbrk, ← hbrk']
        rfl
    | false =>
        obtain ⟨⟨h', p⟩, hok, heq⟩ := map_eq_ok (toOption_eq_some hcalls.2)
        obtain ⟨rfl, hbrk'⟩ := Prod.mk.inj heq
        refine ⟨h', _, hok, Or.inr ⟨fun hgrant => ?_, rfl, hbrk'.symm.trans hbrk.symm⟩⟩
        cases hgrant.1

end SysProg.Memory
