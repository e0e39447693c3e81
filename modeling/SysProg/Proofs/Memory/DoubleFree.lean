import SysProg.Memory.DoubleFree
import SysProg.Proofs.Memory.Fit

/-!
# `SysProg.Proofs.Memory.DoubleFree`: freeing a pointer twice

In a reachable state the first assertion at the entry of `heapmgr_free` holds, so it is the status
word in front of the pointer that tells. While the freed block is a block of its own, this word is
that of a free block, and the assertion fails.

* `FreeHeader` says that a pointer is that of a free block. `FreeHeader.malloc` and
  `FreeHeader.free` are its step lemmas: only the call that returns the pointer and the calls that
  `Absorbs` names end it.
* `double_free_caught` is the result, for both managers and over all runs.
* `double_free_not_caught` is a block that a free left neighbour has absorbed. Nobody has written to
  its old header, which still says that the block is used.
-/

set_option autoImplicit false

namespace SysProg.Memory

open SysProg.Lib

variable {ι : Type} [DecidableEq ι] {mgr : Manager ι} {h h' : Heap ι} {g : Mem} {bs : List Block}
  {ls : ι → List Nat} {s s' : Client ι} {p : Nat} {a : Call} {out : List Nat} {debug : Bool}

/-! ### The entry -/

omit [DecidableEq ι] in
/-- An assertion in front of a computation `k` can be split off. -/
theorem assert_bind {α : Type} (x : Except Stop Unit) {P Q : Prop} [Decidable P] [Decidable Q]
    (hiff : P ↔ Q) (k : Except Stop α) :
    (x.bind fun _ => if P then (throw .assertFailed : Except Stop PUnit).bind fun _ => k else k)
      = (x.bind fun _ => if Q then throw .assertFailed else pure ()).bind fun _ => k := by
  cases x with
  | error e => rfl
  | ok u =>
      by_cases hP : P
      · simp only [Except.bind, if_pos hP, if_pos (hiff.mp hP)]
        rfl
      · simp only [Except.bind, if_neg hP, if_neg fun hQ => hP (hiff.mpr hQ)]
        rfl

/-- `heapmgr_free` writes nothing before its assertions at the entry. -/
theorem heapmgrFree_eq_bind (hp : p ≠ 0) :
    heapmgrFree mgr true h p = (freeEntry mgr h p).bind fun _ => freeRest mgr h p := by
  rw [heapmgrFree, freeEntry, freeRest, if_neg hp]
  -- The header is named, so that its address is not computed.
  generalize ptrAdd p (-chunkUnit) = c
  have hiff : true = true ∧ chunkGetStatus h.mem c ≠ chunkUsed ↔
      chunkGetStatus h.mem c ≠ chunkUsed := ⟨fun hboth => hboth.2, fun hne => ⟨rfl, hne⟩⟩
  refine Eq.trans ?_ (assert_bind (assertValid mgr true h) hiff _)
  rfl

/-- A pointer that is caught at the entry changes nothing. -/
theorem CaughtAtEntry.heapmgrFree_eq (hcaught : CaughtAtEntry mgr h p) (hp : p ≠ 0) :
    heapmgrFree mgr true h p = .error .assertFailed := by
  rw [heapmgrFree_eq_bind hp, show freeEntry mgr h p = _ from hcaught]
  rfl

/-- On a heap that is set up the status word tells. -/
theorem Rest.caughtAtEntry_iff (r : Rest mgr h g bs ls) {c : Nat} (hc : ptrAdd p (-chunkUnit) = c) :
    CaughtAtEntry mgr h p ↔ chunkGetStatus h.mem c ≠ chunkUsed := by
  unfold CaughtAtEntry freeEntry
  rw [r.assertValid_eq true, hc]
  by_cases hstatus : chunkGetStatus h.mem c = chunkUsed
  · rw [if_neg (not_not.mpr hstatus)]
    exact ⟨fun hcaught => (by cases hcaught), fun hne => absurd hstatus hne⟩
  · rw [if_pos hstatus]
    exact ⟨fun _ => hstatus, fun _ => rfl⟩

/-! ### Free headers -/

/-- A release keeps the addresses of the free blocks. Only the right neighbour of the block that is
released goes. -/
theorem exists_mem_release {pre suf : List Block} {u e : Block} (hfree : e.state = .free)
    (he : e ∈ pre ∨ e ∈ (absorbRight u suf).2) :
    ∃ e' ∈ release pre u suf, e'.addr = e.addr ∧ e'.state = .free := by
  unfold release
  dsimp only
  obtain hpre | hsuf := he
  · obtain ⟨heq, -⟩ | ⟨init, d, rfl, -, heq⟩ := absorbLeft_cases pre (absorbRight u suf).1
    · rw [heq]
      exact ⟨e, List.mem_append_left _ hpre, rfl, hfree⟩
    · rw [heq]
      -- The left neighbour takes the released block in, and keeps its header.
      obtain hinit | hlast := List.mem_append.mp hpre
      · exact ⟨e, List.mem_append_left _ hinit, rfl, hfree⟩
      · rw [List.mem_singleton.mp hlast]
        exact ⟨_, List.mem_append_right _ List.mem_cons_self, rfl, rfl⟩
  · exact ⟨e, List.mem_append_right _ (List.mem_cons_of_mem _ hsuf), rfl, hfree⟩

/-- A block that is carved leaves the addresses of the free blocks, unless the new block is
there. -/
theorem exists_mem_carved {pre suf mid : List Block} {b u e : Block} {need : Nat}
    (hcarved : Carved b need mid u) (hfree : e.state = .free) (he : e ∈ pre ++ b :: suf)
    (hne : u.addr ≠ e.addr) :
    ∃ e' ∈ pre ++ mid ++ suf, e'.addr = e.addr ∧ e'.state = .free := by
  rcases List.mem_append.mp he with hpre | htail
  · exact ⟨e, by simp [hpre], rfl, hfree⟩
  · rcases List.mem_cons.mp htail with rfl | hsuf
    · -- Of the block itself the front part stays free, or it is the new block.
      cases hcarved with
      | whole hspan => exact absurd rfl hne
      | back hspan => exact ⟨⟨e.addr, e.span - need, .free⟩, by simp, rfl, rfl⟩
      | front hspan => exact absurd rfl hne
    · exact ⟨e, by simp [hsuf], rfl, hfree⟩

/-- `p` is the pointer of a free block. -/
def FreeHeader (h : Heap ι) (p : Nat) : Prop :=
  ∃ b ∈ layout h, b.addr + chunkUnit = p ∧ b.status = chunkFree

omit [DecidableEq ι] in
/-- A free header, as a block of the list. -/
theorem Rest.freeHeader_iff (r : Rest mgr h g bs ls) :
    FreeHeader h p ↔ ∃ b ∈ bs, b.addr + 16 = p ∧ b.state = .free := by
  unfold FreeHeader
  rw [r.layout_eq]
  constructor
  · intro ⟨e, he, haddr, hfree⟩
    obtain ⟨b, hb, rfl⟩ := List.mem_map.mp he
    exact ⟨b, hb, haddr, b.entry_free_iff.mp hfree⟩
  · intro ⟨b, hb, haddr, hfree⟩
    exact ⟨b.entry, List.mem_map_of_mem hb, haddr, b.entry_free_iff.mpr hfree⟩

/-- A free header stays free in `heapmgr_malloc`, unless its pointer is the answer. No other header
becomes that of a block in use. -/
theorem FreeHeader.malloc (hs : mgr.Sound) (r : Rest mgr h g bs ls) {env : Sbrk} {size : UInt64}
    {q : Nat} (hheader : FreeHeader h p) (hsize : size.toNat ≤ maxSize)
    (hfit : GrowthFits h env size) (hmalloc : heapmgrMalloc mgr debug h env size = .ok (h', q))
    (hne : q ≠ p) : FreeHeader h' p := by
  have hunits := needUnits_le hsize
  by_cases hzero : size = 0
  · rw [heapmgrMalloc, if_pos hzero] at hmalloc
    cases hmalloc
    exact hheader
  · rw [r.heapmgrMalloc_eq debug env hzero] at hmalloc
    obtain ⟨e, he, rfl, hfree⟩ := r.freeHeader_iff.mp hheader
    have hfits := r.small_of_growthFits (UInt64.pos_iff_ne_zero.mpr hzero) hfit
    -- What is left is to carve a block out of a heap that has this header.
    have hcarve : ∀ {h₁ : Heap ι} {pre suf : List Block} {b e : Block} {ls₁ : ι → List Nat},
        Rest mgr h₁ g (pre ++ b :: suf) ls₁ → b.state = .free → needUnits size + 2 ≤ b.span →
        mgr.doAlloc h₁ b.addr (needUnits size + 2 : Nat) = .ok (h', q) → e.state = .free →
        e ∈ pre ++ b :: suf → q ≠ e.addr + 16 → FreeHeader h' (e.addr + 16) := by
      intro h₁ pre suf b e ls₁ r₁ hb hspan hdo he hmem hne
      obtain ⟨h₂, u, xs, ys, ls', halloc, -, hcarved, hgain⟩ := r₁.carve hs hb (by omega) hspan
      rw [hdo] at halloc
      cases halloc
      have hother : u.addr ≠ e.addr := fun heq => hne (by rw [heq])
      obtain ⟨e', he', haddr, hfree'⟩ := exists_mem_carved hcarved he hmem hother
      refine hgain.rest.freeHeader_iff.mpr ⟨e', ?_, by rw [haddr], hfree'⟩
      -- The new block is live now, and `e'` is none of the client.
      have hused := (hcarved.split hspan).1
      have hnew : e' ≠ u := by
        rintro rfl
        rw [hused] at hfree'
        cases hfree'
      simp only [List.append_assoc, List.mem_append, List.mem_cons, List.cons_append, hnew,
        false_or] at he' ⊢
      tauto
    rcases r.allocUnits_cases hs debug env hunits hfits with
      ⟨-, -, ⟨-, heq⟩ | ⟨h₁, pre, b, ls₁, -, hb, hspan, r₁, hgrown, -, -, heq⟩⟩ |
        ⟨pre, b, suf, rfl, hb, hspan, -, heq⟩
    · rw [heq] at hmalloc
      cases hmalloc
      exact hheader
    · -- The heap has grown, and a free last block has kept its header.
      have hside : e ∈ bs ∨
          e ∈ (absorbRight ⟨h.hi, growSpan (needUnits size), .raw⟩ []).2 := Or.inl he
      obtain ⟨e', he', haddr, hfree'⟩ := exists_mem_release hfree hside
      rw [← hgrown] at he'
      rw [← haddr] at hne ⊢
      exact hcarve r₁ hb hspan (heq ▸ hmalloc) hfree' he' hne
    · exact hcarve r hb hspan (heq ▸ hmalloc) hfree he hne

omit [DecidableEq ι] in
/-- The last block in front of `u` ends where `u` begins. -/
theorem Rest.stop_getLast (pre suf : List Block) {u d : Block}
    (r : Rest mgr h g (pre ++ [d] ++ u :: suf) ls) : d.stop = u.addr := by
  obtain ⟨mid, hleft, hright⟩ := tiles_append.mp r.rep.phys.tiles
  obtain ⟨start, -, hlast⟩ := tiles_append.mp hleft
  exact hlast.2.trans hright.1.symm

omit [DecidableEq ι] in
/-- The end of a block in memory. -/
theorem Block.entry_exactNext (b : Block) : b.entry.exactNext = b.stop := by
  show (b.addr : Int) + b.span * (16 : Nat) = (b.addr + 16 * b.span : Nat)
  omega

/-- A free header stays free when another block is freed, unless this is the block on its left. -/
theorem FreeHeader.free (hs : mgr.Sound) {pre suf : List Block} {u : Block}
    (r : Rest mgr h g (pre ++ u :: suf) ls) (hlive : u.state = .live) (hheader : FreeHeader h p)
    (hfit : FreesFit h [u.addr + 16]) (hfreed : heapmgrFree mgr debug h (u.addr + 16) = .ok h')
    (hapart : ¬ Absorbs h p (.free (u.addr + 16))) : FreeHeader h' p := by
  obtain ⟨h₁, ls₁, heq, -, r₁⟩ := r.free_release hs debug hlive hfit
  rw [hfreed] at heq
  cases heq
  obtain ⟨e, he, rfl, hfree⟩ := r.freeHeader_iff.mp hheader
  -- The header is not that of the right neighbour, which is the one that goes.
  have hside : e ∈ pre ∨ e ∈ (absorbRight { u with state := .used } suf).2 := by
    rcases List.mem_append.mp he with hpre | htail
    · exact Or.inl hpre
    · rcases List.mem_cons.mp htail with rfl | hsuf
      · rw [hlive] at hfree
        cases hfree
      · refine Or.inr ?_
        obtain ⟨heq, -⟩ | ⟨d, rest, rfl, -, heq⟩ := absorbRight_cases { u with state := .used } suf
        · rwa [heq]
        · rw [heq]
          rcases List.mem_cons.mp hsuf with rfl | hrest
          · have hstop : u.stop = e.addr :=
              Rest.stop_getLast pre rest (by simpa using r)
            refine absurd ⟨u.entry, ?_, ?_, Or.inr rfl⟩ hapart
            · rw [r.layout_eq]
              exact List.mem_map_of_mem (by simp)
            · rw [u.entry_exactNext, hstop]
              rfl
          · exact hrest
  obtain ⟨e', he', haddr, hfree'⟩ := exists_mem_release hfree hside
  exact r₁.freeHeader_iff.mpr ⟨e', he', by rw [haddr], hfree'⟩

/-- A block that is freed beside a left neighbour that is not free keeps its header. -/
theorem freeHeader_of_freed (hs : mgr.Sound) {pre suf : List Block} {u : Block}
    (r : Rest mgr h g (pre ++ u :: suf) ls) (hlive : u.state = .live)
    (hfit : FreesFit h [u.addr + 16]) (hfreed : heapmgrFree mgr debug h (u.addr + 16) = .ok h')
    (hapart : ¬ Absorbs h (u.addr + 16) (.free (u.addr + 16))) : FreeHeader h' (u.addr + 16) := by
  obtain ⟨h₁, ls₁, heq, -, r₁⟩ := r.free_release hs debug hlive hfit
  rw [hfreed] at heq
  cases heq
  refine r₁.freeHeader_iff.mpr ?_
  obtain ⟨heq, -⟩ | ⟨init, d, rfl, hfree, -⟩ :=
    absorbLeft_cases pre (absorbRight { u with state := .used } suf).1
  · unfold release
    dsimp only
    rw [heq]
    exact ⟨_, List.mem_append_right _ List.mem_cons_self, by rw [absorbRight_addr], rfl⟩
  · -- A free left neighbour would have absorbed the block.
    refine absurd ⟨d.entry, ?_, ?_, Or.inl ⟨rfl, d.entry_free_iff.mpr hfree⟩⟩ hapart
    · rw [r.layout_eq]
      exact List.mem_map_of_mem (by simp)
    · rw [d.entry_exactNext, Rest.stop_getLast _ _ r]
      rfl

/-! ### Runs -/

/-- What stays true of a pointer that is freed, as long as its block is not absorbed and no call
returns it. -/
structure Client.Standing (mgr : Manager ι) (s : Client ι) (p : Nat) : Prop where
  inv : Client.Inv mgr s
  header : FreeHeader s.heap p

omit [DecidableEq ι] in
/-- A heap with a free block is set up. -/
theorem Client.Standing.rest (hstand : s.Standing mgr p) :
    ∃ bs ls, Rest mgr s.heap s.heap.mem bs ls ∧ Serves s.live (liveBlocks bs) := by
  obtain ⟨hf, -⟩ | hrest := hstand.inv
  · obtain ⟨b, hb, -⟩ := hstand.header
    rw [hf.layout_eq] at hb
    cases hb
  · exact hrest

/-- The block of an allocation that is freed. -/
theorem Serves.exists_block {live : List (Nat × Nat)} (hserves : Serves live (liveBlocks bs))
    {q : Nat × Nat} (hq : q ∈ live) :
    ∃ pre u suf, bs = pre ++ u :: suf ∧ u.state = .live ∧ q.1 = u.addr + 16 := by
  obtain ⟨u, hu, haddr, -⟩ := hserves.block q hq
  obtain ⟨hmem, hlive⟩ := mem_liveBlocks.mp hu
  obtain ⟨pre, suf, rfl⟩ := List.append_of_mem hmem
  exact ⟨pre, u, suf, rfl, hlive, haddr⟩

/-- Freeing a pointer beside a left neighbour that is not free. -/
theorem Client.Inv.standing (hs : mgr.Sound) (hinv : Client.Inv mgr s) (hp : p ≠ 0)
    (hfit : s.SizesFit (.free p)) (hapart : ¬ Absorbs s.heap p (.free p))
    (hstep : clientStep mgr debug s (.free p) = some (s', out)) : s'.Standing mgr p := by
  refine ⟨(hinv.step hs hfit hstep).1, ?_⟩
  obtain ⟨hlegal, hcall⟩ := clientStep_eq_some hstep
  rw [clientCall] at hcall
  obtain ⟨h', hfreed, heq⟩ := map_eq_ok hcall
  cases heq
  obtain hzero | ⟨q, hq, rfl⟩ := hlegal
  · exact absurd hzero hp
  · obtain ⟨-, hnil⟩ | ⟨bs, ls, r, hserves⟩ := hinv
    · rw [hnil] at hq
      cases hq
    · obtain ⟨pre, u, suf, rfl, hlive, haddr⟩ := hserves.exists_block hq
      rw [haddr] at hfit hapart hfreed ⊢
      exact freeHeader_of_freed hs r hlive hfit hfreed hapart

/-- The step lemma for a freed pointer. It stays freed when the step neither absorbs its block nor
answers with it. -/
theorem Client.Standing.step (hs : mgr.Sound) (hstand : s.Standing mgr p) (hfit : s.SizesFit a)
    (hapart : ¬ Absorbs s.heap p a) (hstep : clientStep mgr debug s a = some (s', out))
    (hout : p ∉ out) : s'.Standing mgr p := by
  refine ⟨(hstand.inv.step hs hfit hstep).1, ?_⟩
  obtain ⟨bs, ls, r, hserves⟩ := hstand.rest
  obtain ⟨hlegal, hcall⟩ := clientStep_eq_some hstep
  cases a with
  | malloc size env =>
      rw [clientCall] at hcall
      obtain ⟨⟨h', q⟩, hmalloc, heq⟩ := map_eq_ok hcall
      cases heq
      refine hstand.header.malloc hs r hlegal hfit hmalloc fun hq => hout ?_
      exact List.mem_singleton.mpr hq.symm
  | free q =>
      rw [clientCall] at hcall
      obtain ⟨h', hfreed, heq⟩ := map_eq_ok hcall
      cases heq
      obtain rfl | ⟨q, hq, rfl⟩ := hlegal
      · cases hfreed
        exact hstand.header
      · obtain ⟨pre, u, suf, rfl, hlive, haddr⟩ := hserves.exists_block hq
        rw [haddr] at hfit hapart hfreed
        exact FreeHeader.free hs r hlive hstand.header hfit hfreed hapart
  | write x v =>
      obtain ⟨q, hq, hlo, hhi⟩ := hlegal
      cases hcall
      obtain ⟨u, hu, haddr, -, hspan⟩ := hserves.block q hq
      -- The write ends before the footer of a block of the client, and the blocks stay.
      have hstop : x + 16 < u.stop := by
        unfold Block.stop
        omega
      have r' := r.write_spec hu (m := ⟨Function.update s.heap.mem.byte x v⟩) (by omega) hstop
        fun y hy => Function.update_of_ne hy _ _
      exact r'.freeHeader_iff.mpr (r.freeHeader_iff.mp hstand.header)

/-- The assertion on the status word catches a free header. -/
theorem Client.Standing.caughtAtEntry (hstand : s.Standing mgr p) :
    CaughtAtEntry mgr s.heap p := by
  obtain ⟨bs, ls, r, -⟩ := hstand.rest
  obtain ⟨b, hb, rfl, hfree⟩ := r.freeHeader_iff.mp hstand.header
  have hgood := r.rep.phys.good b hb
  have hstop := hgood.fits.stop_lt
  have hspan := hgood.fits.span_ge
  have hc : ptrAdd (b.addr + 16) (-chunkUnit) = b.addr := ptrAdd_neg_chunkUnit (by omega)
  rw [r.caughtAtEntry_iff hc, hgood.free hfree]
  decide

/-- The run lemma for a freed pointer. -/
theorem FreedApart.standing (hs : mgr.Sound) {mem : Mem} {brk limit : Nat}
    (haddr : AddressRange brk limit) (hp : p ≠ 0)
    (hapart : FreedApart mgr (Client.start mem brk limit) s p) : s.Standing mgr p := by
  -- Induction on the history: the call that frees `p`, and the calls behind it.
  induction hapart with
  | free hrun hcalls hP hfit hstep =>
      exact (Client.inv_run hs haddr hcalls hrun).standing hs hp hfit hP hstep
  | call _ hP hfit hstep hout ih => exact ih.step hs hfit hP hstep hout

/-- A pointer that is freed by the last call, in a program with little memory. -/
theorem freedEarlier_of_breakRange (hs : mgr.Sound) {mem : Mem} {brk limit : Nat}
    (hbreak : BreakRange brk limit) (calls : List Call)
    (hrun : run (clientStep mgr true) (Client.start mem brk limit) (calls ++ [.free p])
      = some (s, out)) : FreedEarlier mgr (Client.start mem brk limit) s p := by
  obtain ⟨s₁, out₁, es, hrun₁, hstep, -⟩ := run_snoc_eq_some hrun
  exact .free hrun₁ (callsFit_of_breakRange hs hbreak calls) trivial
    ((Client.inv_run_of_breakRange hs hbreak hrun₁).2 _) hstep

/-- A debug build catches a double free at the entry of `heapmgr_free`, with either manager, as
long as the freed block has not become a part of the block on its left. No write has been made
then. -/
theorem double_free_caught {mem : Mem} {brk limit : Nat} (haddr : AddressRange brk limit) :
    (∀ (s : Client Unit) p, p ≠ 0 →
      FreedApart Heapmgr1.manager (Client.start mem brk limit) s p →
      CaughtAtEntry Heapmgr1.manager s.heap p ∧
        heapmgrFree Heapmgr1.manager true s.heap p = .error .assertFailed) ∧
    ∀ (s : Client (Fin Heapmgr2.numBins)) p, p ≠ 0 →
      FreedApart Heapmgr2.manager (Client.start mem brk limit) s p →
      CaughtAtEntry Heapmgr2.manager s.heap p ∧
        heapmgrFree Heapmgr2.manager true s.heap p = .error .assertFailed := by
  constructor
  · intro s p hp hapart
    have hcaught := (hapart.standing Heapmgr1.sound haddr hp).caughtAtEntry
    exact ⟨hcaught, hcaught.heapmgrFree_eq hp⟩
  · intro s p hp hapart
    have hcaught := (hapart.standing Heapmgr2.sound haddr hp).caughtAtEntry
    exact ⟨hcaught, hcaught.heapmgrFree_eq hp⟩

/-- A history of two calls of `heapmgr_free`, in a program with little memory. Neither call absorbs
the block of the first one. -/
theorem freedApart_of_breakRange (hs : mgr.Sound) {mem : Mem} {brk limit q : Nat}
    (hbreak : BreakRange brk limit) (calls : List Call)
    (hfirst : ((run (clientStep mgr true) (Client.start mem brk limit) calls).map fun r =>
      decide (Absorbs r.1.heap p (.free p))) = some false)
    (hsecond : ((run (clientStep mgr true) (Client.start mem brk limit) (calls ++ [.free p])).map
      fun r => decide (Absorbs r.1.heap p (.free q))) = some false)
    (hrun : run (clientStep mgr true) (Client.start mem brk limit)
      (calls ++ [.free p] ++ [.free q]) = some (s, out)) :
    FreedApart mgr (Client.start mem brk limit) s p := by
  obtain ⟨s₂, out₂, es₂, hrun₂, hstep₂, -⟩ := run_snoc_eq_some hrun
  obtain ⟨s₁, out₁, es₁, hrun₁, hstep₁, -⟩ := run_snoc_eq_some hrun₂
  rw [hrun₁, Option.map_some, Option.some.injEq, decide_eq_false_iff_not] at hfirst
  rw [hrun₂, Option.map_some, Option.some.injEq, decide_eq_false_iff_not] at hsecond
  -- `heapmgr_free` returns no pointer.
  have hnone : es₂ = [] := by
    obtain ⟨-, hcall⟩ := clientStep_eq_some hstep₂
    rw [clientCall] at hcall
    obtain ⟨h', -, heq⟩ := map_eq_ok hcall
    cases heq
    rfl
  exact .call (.free hrun₁ (callsFit_of_breakRange hs hbreak calls) hfirst
    ((Client.inv_run_of_breakRange hs hbreak hrun₁).2 _) hstep₁) hsecond
    ((Client.inv_run_of_breakRange hs hbreak hrun₂).2 _) hstep₂
    (by rw [hnone]; exact List.not_mem_nil)

/-- Three blocks, of which the middle one is freed and then the one on its right. The block in the
middle grows and keeps its header, so freeing it again is caught. With `heapmgr1` the blocks are
taken from the end of the heap, so it is the block with the second pointer as well. -/
theorem double_free_caught_middle :
    (∃ s : Client Unit,
      run (clientStep Heapmgr1.manager true) (Client.start ⟨fun _ => 0⟩ 4096 100000)
        [.malloc 100 ⟨true, true⟩, .malloc 200 ⟨true, true⟩, .malloc 300 ⟨true, true⟩,
          .free 11952, .free 12192] = some (s, [12192, 11952, 11616]) ∧
      CaughtAtEntry Heapmgr1.manager s.heap 11952) ∧
    ∃ s : Client (Fin Heapmgr2.numBins),
      run (clientStep Heapmgr2.manager true) (Client.start ⟨fun _ => 0⟩ 4096 100000)
        [.malloc 100 ⟨true, true⟩, .malloc 200 ⟨true, true⟩, .malloc 300 ⟨true, true⟩,
          .free 4256, .free 4496] = some (s, [4112, 4256, 4496]) ∧
      CaughtAtEntry Heapmgr2.manager s.heap 4256 := by
  have hbreak : BreakRange 4096 100000 := ⟨by decide, by decide, by decide, by decide⟩
  have hmap₁ : (run (clientStep Heapmgr1.manager true) (Client.start ⟨fun _ => 0⟩ 4096 100000)
      [.malloc 100 ⟨true, true⟩, .malloc 200 ⟨true, true⟩, .malloc 300 ⟨true, true⟩,
        .free 11952, .free 12192]).map Prod.snd = some [12192, 11952, 11616] := by decide +kernel
  have hmap₂ : (run (clientStep Heapmgr2.manager true) (Client.start ⟨fun _ => 0⟩ 4096 100000)
      [.malloc 100 ⟨true, true⟩, .malloc 200 ⟨true, true⟩, .malloc 300 ⟨true, true⟩,
        .free 4256, .free 4496]).map Prod.snd = some [4112, 4256, 4496] := by decide +kernel
  obtain ⟨⟨s₁, out₁⟩, hrun₁, rfl⟩ := Option.map_eq_some_iff.mp hmap₁
  obtain ⟨⟨s₂, out₂⟩, hrun₂, rfl⟩ := Option.map_eq_some_iff.mp hmap₂
  have hapart₁ := freedApart_of_breakRange Heapmgr1.sound hbreak [.malloc 100 ⟨true, true⟩,
    .malloc 200 ⟨true, true⟩, .malloc 300 ⟨true, true⟩] (by decide +kernel) (by decide +kernel)
    hrun₁
  have hapart₂ := freedApart_of_breakRange Heapmgr2.sound hbreak [.malloc 100 ⟨true, true⟩,
    .malloc 200 ⟨true, true⟩, .malloc 300 ⟨true, true⟩] (by decide +kernel) (by decide +kernel)
    hrun₂
  exact ⟨⟨s₁, hrun₁, ((double_free_caught hbreak.addresses).1 s₁ _ (by decide) hapart₁).1⟩,
    s₂, hrun₂, ((double_free_caught hbreak.addresses).2 s₂ _ (by decide) hapart₂).1⟩

/-- A block with a free left neighbour is freed. Its old header passes both assertions, with either
manager. -/
theorem double_free_not_caught :
    (∃ s : Client Unit,
      run (clientStep Heapmgr1.manager true) (Client.start ⟨fun _ => 0⟩ 4096 100000)
        [.malloc 100 ⟨true, true⟩, .free 12192] = some (s, [12192]) ∧
      FreedEarlier Heapmgr1.manager (Client.start ⟨fun _ => 0⟩ 4096 100000) s 12192 ∧
      freeEntry Heapmgr1.manager s.heap 12192 = .ok ()) ∧
    ∃ s : Client (Fin Heapmgr2.numBins),
      run (clientStep Heapmgr2.manager true) (Client.start ⟨fun _ => 0⟩ 4096 100000)
        [.malloc 100 ⟨true, true⟩, .malloc 200 ⟨true, true⟩, .free 4112, .free 4256]
        = some (s, [4112, 4256]) ∧
      FreedEarlier Heapmgr2.manager (Client.start ⟨fun _ => 0⟩ 4096 100000) s 4256 ∧
      freeEntry Heapmgr2.manager s.heap 4256 = .ok () := by
  have hbreak : BreakRange 4096 100000 := ⟨by decide, by decide, by decide, by decide⟩
  have hmap₁ : (run (clientStep Heapmgr1.manager true) (Client.start ⟨fun _ => 0⟩ 4096 100000)
      [.malloc 100 ⟨true, true⟩, .free 12192]).map (fun r =>
        (r.2, (freeEntry Heapmgr1.manager r.1.heap 12192).toOption)) = some ([12192], some ()) := by
    decide +kernel
  have hmap₂ : (run (clientStep Heapmgr2.manager true) (Client.start ⟨fun _ => 0⟩ 4096 100000)
      [.malloc 100 ⟨true, true⟩, .malloc 200 ⟨true, true⟩, .free 4112, .free 4256]).map (fun r =>
        (r.2, (freeEntry Heapmgr2.manager r.1.heap 4256).toOption))
      = some ([4112, 4256], some ()) := by decide +kernel
  constructor
  · obtain ⟨⟨s, out⟩, hrun, heq⟩ := Option.map_eq_some_iff.mp hmap₁
    obtain ⟨rfl, hentry⟩ := Prod.mk.inj heq
    exact ⟨s, hrun,
      freedEarlier_of_breakRange Heapmgr1.sound hbreak [.malloc 100 ⟨true, true⟩] hrun,
      toOption_eq_some hentry⟩
  · obtain ⟨⟨s, out⟩, hrun, heq⟩ := Option.map_eq_some_iff.mp hmap₂
    obtain ⟨rfl, hentry⟩ := Prod.mk.inj heq
    exact ⟨s, hrun, freedEarlier_of_breakRange Heapmgr2.sound hbreak
      [.malloc 100 ⟨true, true⟩, .malloc 200 ⟨true, true⟩, .free 4112] hrun,
      toOption_eq_some hentry⟩

end SysProg.Memory
