import Mathlib.Data.UInt
import SysProg.Proofs.Memory.Fit

/-!
# `SysProg.Proofs.Memory.Confluence`: the order of frees does not matter

`heapmgr_free` takes one of four ways, by the neighbours of the block. On the level of blocks all
of them free the block and coalesce (`release_eq_coalesce`). Coalescing may wait until the last
block is freed, so the result depends on the set of the pointers only (`Rest.free_run`).

`frees_confluent` is the result, for both managers.
-/

set_option autoImplicit false

namespace SysProg.Memory

open SysProg.Lib

variable {ι : Type} {mgr : Manager ι} {h : Heap ι} {g : Mem} {bs pre suf : List Block}
  {b d u : Block} {ls : ι → List Nat} {s : Client ι}

/-! ### A run of frees -/

section
variable [DecidableEq ι] {debug : Bool}

/-- Freeing a live pointer is a step of the program. -/
theorem clientStep_free {p : Nat} {h' : Heap ι} (hp : p ∈ s.live.map Prod.fst)
    (heq : heapmgrFree mgr debug s.heap p = .ok h') :
    clientStep mgr debug s (.free p)
      = some (⟨h', s.live.filter fun r => r.1 ≠ p⟩, []) := by
  have hlegal : s.Legal (.free p) := by
    obtain ⟨q, hq, rfl⟩ := List.mem_map.mp hp
    exact Or.inr ⟨q, hq, rfl⟩
  simp only [clientStep, if_pos hlegal, clientCall, heq, Except.map, Except.toOption]

/-- Freeing some live pointers frees their blocks and coalesces. The induction is on the pointers,
and the order does not matter for the result. -/
theorem Rest.free_run (hs : mgr.Sound) (debug : Bool) (r : Rest mgr s.heap s.heap.mem bs ls)
    (hserves : Serves s.live (liveBlocks bs)) {ps : List Nat} (hnodup : ps.Nodup)
    (hps : ∀ p ∈ ps, p ∈ s.live.map Prod.fst) (hfit : FreesFit s.heap ps) :
    ∃ s' ls', run (clientStep mgr debug) s (ps.map .free) = some (s', []) ∧
      SameBounds s.heap s'.heap ∧
      Rest mgr s'.heap s'.heap.mem (coalesceFree (bs.map (Block.freed ps))) ls' := by
  -- Induction on the pointers. The blocks are always those of the statement for what is left.
  induction ps generalizing s bs ls with
  | nil =>
      have hmap : bs.map (Block.freed []) = bs := by
        rw [List.map_congr_left fun b _ => b.freed_nil, List.map_id']
      rw [hmap, coalesceFree_eq_self r.adj]
      exact ⟨s, ls, rfl, SameBounds.refl _, r⟩
  | cons p ps ih =>
      obtain ⟨hp, hrest⟩ := List.nodup_cons.mp hnodup
      have hmem := hps p List.mem_cons_self
      obtain ⟨q, hq, rfl⟩ := List.mem_map.mp hmem
      obtain ⟨u, hu, haddr, -⟩ := hserves.block q hq
      obtain ⟨hub, hlive⟩ := mem_liveBlocks.mp hu
      obtain ⟨pre, suf, rfl⟩ := List.append_of_mem hub
      -- Freeing one block after the other joins what freeing all of them joins.
      have hcomp : Block.freed ps ∘ Block.freed [q.1] = Block.freed (q.1 :: ps) :=
        funext (Block.freed_freed q.1 ps)
      have hblocks : coalesceFree ((coalesceFree ((pre ++ u :: suf).map
          (Block.freed [q.1]))).map (Block.freed ps))
          = coalesceFree ((pre ++ u :: suf).map (Block.freed (q.1 :: ps))) := by
        have hcoalesce := joining_free.coalesce_map_coalesce
          (f := Block.freed ps) (fun b hb => Block.freed_of_free ps hb)
          ((pre ++ u :: suf).map (Block.freed [q.1]))
        rw [List.map_map, hcomp] at hcoalesce
        exact hcoalesce
      rw [r.freesFit_iff, ← hblocks] at hfit
      have hfirst : FreesFit s.heap [q.1] := by
        refine (r.freesFit_iff _).mpr fun b hb => ?_
        have hsmall := small_of_coalesceFree hfit (List.mem_map_of_mem hb)
        rwa [Block.small_freed_iff] at hsmall
      obtain ⟨h₁, ls₁, hfree, hsame, r₁⟩ := r.free_release hs debug hlive (haddr ▸ hfirst)
      have hparts := (noAdjacentFree_middle (by rw [hlive]; decide)).mp r.adj
      have hmap := r.map_freed hlive
      rw [release_eq_coalesce hparts.1 hparts.2, ← hmap] at r₁
      rw [← haddr] at hfree r₁
      -- The other pointers are still live.
      have hserves₁ : Serves (s.live.filter fun r => r.1 ≠ q.1)
          (liveBlocks (coalesceFree ((pre ++ u :: suf).map (Block.freed [q.1])))) := by
        rw [haddr, hmap, ← release_eq_coalesce (b := { u with state := .used }) hparts.1 hparts.2]
        refine hserves.lose ?_ r.nodup
        rw [liveBlocks_release, liveBlocks_append, liveBlocks_cons_live hlive]
        exact List.perm_middle
      have hps₁ : ∀ p ∈ ps, p ∈ (s.live.filter fun r => r.1 ≠ q.1).map Prod.fst := by
        intro p hpmem
        obtain ⟨t, ht, rfl⟩ := List.mem_map.mp (hps p (List.mem_cons_of_mem _ hpmem))
        refine List.mem_map_of_mem (List.mem_filter.mpr ⟨ht, ?_⟩)
        simpa using fun heq : t.1 = q.1 => hp (heq ▸ hpmem)
      obtain ⟨s', ls', hrun, hsame', r'⟩ :=
        ih (s := ⟨h₁, s.live.filter fun r => r.1 ≠ q.1⟩) r₁.refresh hserves₁ hrest hps₁
          ((r₁.freesFit_iff ps).mpr hfit)
      refine ⟨s', ls', ?_, hsame.trans hsame', ?_⟩
      · rw [List.map_cons, run, clientStep_free hmem hfree]
        simp only [hrun]
        rfl
      · rwa [hblocks] at r'

/-! ### Results -/

/-- Freeing some live pointers in a run of a program. The blocks in memory are then those of the
statement, whatever happened before. -/
theorem Client.Inv.layout_free (hs : mgr.Sound) (debug : Bool) (hinv : Client.Inv mgr s)
    {ps : List Nat} (hnodup : ps.Nodup) (hps : ∀ p ∈ ps, p ∈ s.live.map Prod.fst)
    (hfit : FreesFit s.heap ps) :
    ∃ s', run (clientStep mgr debug) s (ps.map .free) = some (s', []) ∧
      layout s'.heap = mergeFree ((layout s.heap).map (markFree ps)) := by
  rcases hinv with ⟨hf, hnil⟩ | ⟨bs, ls, r, hserves⟩
  · -- There is nothing to free.
    have hempty : ps = [] := by
      refine List.eq_nil_iff_forall_not_mem.mpr fun p hp => ?_
      have hmem := hps p hp
      rw [hnil] at hmem
      cases hmem
    rw [hempty]
    refine ⟨s, rfl, ?_⟩
    rw [hf.layout_eq]
    rfl
  · obtain ⟨s', ls', hrun, -, r'⟩ := r.free_run hs debug hserves hnodup hps hfit
    exact ⟨s', hrun, by rw [r'.layout_eq, r.layout_eq, r.entry_freed]⟩

/-- Freeing everything in a run of a program. What is left is one free block, or nothing if there
was no allocation. -/
theorem Client.Inv.layout_free_all (hs : mgr.Sound) (hinv : Client.Inv mgr s) {ps : List Nat}
    (hperm : ps.Perm (s.live.map Prod.fst)) (hsmall : s.heap.hi ≤ s.heap.lo + intMax) :
    ∃ s', run (clientStep mgr debug) s (ps.map .free) = some (s', []) ∧
      s'.heap.lo = s.heap.lo ∧ s'.heap.hi = s.heap.hi ∧
      (s.heap.lo < s.heap.hi → ∃ b, layout s'.heap = [b] ∧ b.status = chunkFree ∧
        b.addr = s.heap.lo ∧ b.addr + chunkUnit * b.span = s.heap.hi) ∧
      (s.heap.lo = s.heap.hi → layout s'.heap = []) := by
  have hempty : ∀ {h : Heap ι}, h.lo = h.hi → layout h = [] := by
    intro h heq
    rw [layout, if_pos heq]
  rcases hinv with ⟨hf, hnil⟩ | ⟨bs, ls, r, hserves⟩
  · rw [hnil] at hperm
    rw [List.map_nil, List.perm_nil] at hperm
    have heq := hf.lo.trans hf.hi.symm
    rw [hperm]
    exact ⟨s, rfl, rfl, rfl, fun hlt => by omega, fun _ => hempty heq⟩
  · obtain ⟨s', ls', hrun, hsame, r'⟩ := r.free_run hs debug hserves
      (hperm.nodup_iff.mpr hserves.nodup) (fun p hp => hperm.mem_iff.mp hp)
      (r.sizesFit_freed hsmall ps)
    refine ⟨s', hrun, hsame.lo, hsame.hi, fun hlt => ?_, fun heq =>
      hempty (by rw [hsame.lo, hsame.hi, heq])⟩
    -- Every block is free now.
    have hfree : ∀ b ∈ bs.map (Block.freed ps), b.state = .free := by
      intro b hb
      obtain ⟨d, hd, rfl⟩ := List.mem_map.mp hb
      rcases r.settled d hd with hfree | hlive
      · rw [Block.freed_of_free ps hfree, hfree]
      · obtain ⟨q, hq, haddr⟩ := hserves.owner d (mem_liveBlocks.mpr ⟨hd, hlive⟩)
        have hmem : d.addr + 16 ∈ ps := hperm.mem_iff.mpr (haddr ▸ List.mem_map_of_mem hq)
        simp [Block.freed, hlive, hmem]
    cases hbs : bs.map (Block.freed ps) with
    | nil =>
        rw [hbs] at r'
        have htiles : s'.heap.lo = s'.heap.hi := r'.rep.phys.tiles
        rw [hsame.lo, hsame.hi] at htiles
        omega
    | cons b rest =>
        rw [hbs] at hfree r'
        obtain ⟨c, hc, hcfree⟩ := joining_free.coalesce_eq_singleton
          (fun d hd => hfree d (List.mem_cons_of_mem b hd)) (hfree b List.mem_cons_self)
        have hone : coalesceFree (b :: rest) = [c] := hc
        rw [hone] at r'
        obtain ⟨haddr, hstop⟩ := r'.rep.phys.tiles
        have hstop' : c.stop = s'.heap.hi := hstop
        rw [hsame.hi] at hstop'
        rw [hsame.lo] at haddr
        refine ⟨c.entry, r'.layout_eq, c.entry_free_iff.mpr hcfree, haddr, ?_⟩
        show (c.addr : Int) + chunkUnit * c.span = s.heap.hi
        rw [← hstop', Block.stop, chunkUnit]
        omega

omit [DecidableEq ι] in
/-- The block that `do_alloc` cut out of a free one is joined with its rest again. -/
theorem Carved.coalesce_eq {need : Nat} {xs ys : List Block}
    (hcarved : Carved b need (xs ++ u :: ys) u) (hfree : b.state = .free) (pre suf : List Block) :
    coalesceFree ((pre ++ xs) ++ { u with state := .free } :: (ys ++ suf))
      = coalesceFree (pre ++ b :: suf) := by
  obtain ⟨addr, span, state⟩ := b
  have hstate : state = .free := hfree
  subst hstate
  generalize hmid : xs ++ u :: ys = mid at hcarved
  cases hcarved with
  | whole hwhole =>
      obtain ⟨rfl, hys⟩ : xs = [] ∧ ys = [] := by
        simpa [List.append_eq_singleton_iff] using hmid
      rw [hys, List.append_nil]
      rfl
  | back hback =>
      -- The rest is in front of the new block.
      have hspan : need + 2 ≤ span := hback
      cases xs with
      | nil => simp at hmid
      | cons f xs =>
          rw [List.cons_append, List.cons.injEq] at hmid
          obtain ⟨rfl, hrest⟩ := hmid
          obtain ⟨rfl, rfl⟩ : xs = [] ∧ ys = [] := by
            simpa [List.append_eq_singleton_iff] using hrest
          have hjoin := joining_free.coalesce_join (a := ⟨addr, span - need, .free⟩)
            (b := ⟨addr + 16 * (span - need), need, .free⟩) rfl rfl pre suf
          rw [Block.join, show span - need + need = span by omega] at hjoin
          rw [List.append_assoc]
          exact hjoin.symm
  | front hfront =>
      have hspan : need + 2 ≤ span := hfront
      cases xs with
      | nil =>
          obtain ⟨_, rfl⟩ := List.cons.inj hmid
          have hjoin := joining_free.coalesce_join (a := ⟨addr, need, .free⟩)
            (b := ⟨addr + 16 * need, span - need, .free⟩) rfl rfl pre suf
          rw [Block.join, show need + (span - need) = span by omega] at hjoin
          rw [List.append_nil]
          exact hjoin.symm
      | cons f xs =>
          obtain ⟨_, hrest⟩ := List.cons.inj hmid
          simp [List.append_eq_singleton_iff] at hrest

/-- Freeing the block that was allocated restores the blocks. -/
theorem Rest.free_carved (hs : mgr.Sound) {need : Nat} {h' : Heap ι} {xs ys : List Block}
    {ls' : ι → List Nat} (r : Rest mgr h g (pre ++ b :: suf) ls) (hfree : b.state = .free)
    (hcarved : Carved b need (xs ++ u :: ys) u)
    (r' : Rest mgr h' h'.mem ((pre ++ xs) ++ { u with state := .live } :: (ys ++ suf)) ls') :
    ∃ h'', heapmgrFree mgr debug h' (u.addr + 16) = .ok h'' ∧ layout h'' = layout h := by
  have hblocks := hcarved.coalesce_eq hfree pre suf
  rw [coalesceFree_eq_self r.adj] at hblocks
  -- The joined blocks are those from before the allocation, so they are small.
  have hfit : FreesFit h' [u.addr + 16] := by
    rw [r'.freesFit_iff, r'.map_freed rfl, hblocks]
    exact fun d hd => (r.rep.phys.good d hd).fits.small
  obtain ⟨h'', ls'', heq, -, r''⟩ := r'.free_release hs debug rfl hfit
  have hparts := (noAdjacentFree_middle BlockState.noConfusion).mp r'.adj
  rw [release_eq_coalesce hparts.1 hparts.2] at r''
  refine ⟨h'', heq, ?_⟩
  rw [r''.layout_eq, r.layout_eq, ← hblocks]

/-- A `heapmgr_malloc` that grows the heap moves the break up, whatever it answers. So the break
tells whether it has grown. -/
theorem Rest.lt_brk_of_grows (hs : mgr.Sound) (r : Rest mgr h g bs ls) {env : Sbrk}
    {size : UInt64} {h' : Heap ι} {p : Nat} (hunits : needUnits size ≤ 2147483645)
    (hgrows : Grows h env size) (hmalloc : heapmgrMalloc mgr debug h env size = .ok (h', p)) :
    h.brk < h'.brk := by
  obtain ⟨hpos, hnofit, hextend, hroom⟩ := hgrows
  have hneed := needSpan_eq size
  have hle := r.rep.phys.tiles.le
  have hspan := le_growSpan (needUnits size)
  have hnone : searchFree mgr h (needUnits size + 2 : Nat) = .ok none := by
    rcases r.searchFree_cases hs hunits with ⟨hnone, _⟩ | ⟨b, hb, hfree, hfits, _⟩
    · exact hnone
    · rw [hneed, r.hasFit_iff] at hnofit
      exact absurd ⟨b, hb, hfree, hfits⟩ hnofit
  have hsbrk : h.sbrk env.extend (16 * growSpan (needUnits size) : Nat)
      = (h.brk, { h with brk := h.brk + 16 * growSpan (needUnits size) }) := by
    rw [hextend]
    exact r.bounded.sbrk_granted hle hroom
  have hok : ¬ h.brk = sbrkFailed := by
    have hbrk := r.bounded.brk_le
    have hlt := r.bounded.limit_lt
    unfold sbrkFailed
    omega
  rw [r.heapmgrMalloc_eq debug env (UInt64.pos_iff_ne_zero.mp hpos)] at hmalloc
  obtain ⟨cur, hsome, -⟩ | ⟨-, h₁, c, hgrow, hrest⟩ := allocUnits_ok hmalloc
  · rw [i32_units hunits, hnone] at hsome
    cases hsome
  · have hbrk₁ := brk_sysGrow (bmod_bytes (growSpan_le hunits)) hsbrk hok hgrow
    -- Behind `sys_grow` the break stays where it is.
    have hbrk' : h'.brk = h₁.brk := by
      obtain ⟨-, rfl, -⟩ | ⟨-, halloc⟩ := hrest
      · rfl
      · exact hs.brk_alloc _ _ _ _ _ halloc
    rw [hbrk', hbrk₁]
    simp only
    omega

/-- Freeing what `heapmgr_malloc` answers, on a heap that is set up. If the call has not moved the
break, the heap has the same blocks afterwards as before it. -/
theorem Rest.malloc_free (hs : mgr.Sound) (r : Rest mgr h g bs ls) {env : Sbrk} {size : UInt64}
    {h' : Heap ι} {p : Nat} (hunits : needUnits size ≤ 2147483645)
    (hmalloc : heapmgrMalloc mgr debug h env size = .ok (h', p)) (hbrk : h'.brk = h.brk) :
    ∃ h'', heapmgrFree mgr debug h' p = .ok h'' ∧ layout h'' = layout h := by
  by_cases hsize : size = 0
  · rw [heapmgrMalloc, if_pos hsize] at hmalloc
    cases hmalloc
    exact ⟨h, rfl, rfl⟩
  · have hgrows : ¬ Grows h env size := by
      intro hgrows
      have hlt := r.lt_brk_of_grows hs hunits hgrows hmalloc
      omega
    have hpos := UInt64.pos_iff_ne_zero.mpr hsize
    rw [r.heapmgrMalloc_eq debug env hsize] at hmalloc
    rcases r.allocUnits_cases hs debug env hunits
        (r.small_of_growthFits hpos fun hyes => absurd hyes hgrows) with
      ⟨_, _, ⟨_, hnull⟩ | ⟨h₁, pre, b, ls₁, _, hfree, hspan, r₁, _, _, hgrown, halloc⟩⟩ |
        ⟨pre, b, suf, rfl, hfree, hspan, _, halloc⟩
    · rw [hnull] at hmalloc
      cases hmalloc
      exact ⟨h, rfl, rfl⟩
    · -- The heap has grown.
      obtain ⟨h₂, u, xs, ys, ls', hcarve, hsame, -, -⟩ := r₁.carve hs hfree (by omega) hspan
      rw [halloc, hcarve] at hmalloc
      cases hmalloc
      have hbrk₁ := hsame.brk
      omega
    · obtain ⟨h₂, u, xs, ys, ls', hcarve, -, hcarved, hgain⟩ := r.carve hs hfree (by omega) hspan
      rw [halloc, hcarve] at hmalloc
      cases hmalloc
      exact r.free_carved hs hfree hcarved hgain.rest

/-- Freeing what `heapmgr_malloc` answers, in a run of a program. -/
theorem Client.Inv.malloc_free (hs : mgr.Sound) (hinv : Client.Inv mgr s) {env : Sbrk}
    {size : UInt64} {h' : Heap ι} {p : Nat} (hunits : needUnits size ≤ 2147483645)
    (hmalloc : heapmgrMalloc mgr debug s.heap env size = .ok (h', p))
    (hbrk : h'.brk = s.heap.brk) :
    ∃ h'', heapmgrFree mgr debug h' p = .ok h'' ∧ layout h'' = layout s.heap := by
  rcases hinv with ⟨hf, _⟩ | ⟨bs, ls, r, _⟩
  · by_cases hsize : size = 0
    · rw [heapmgrMalloc, if_pos hsize] at hmalloc
      cases hmalloc
      exact ⟨s.heap, rfl, rfl⟩
    · rcases hf.malloc_cases hs debug env hsize with
        ⟨hexit, _⟩ | ⟨h₀, r, _, _, hbrk₀, hlayout, heq⟩
      · rw [hexit] at hmalloc
        cases hmalloc
      · rw [hlayout]
        exact r.malloc_free hs hunits (heq ▸ hmalloc) (hbrk.trans hbrk₀.symm)
  · exact r.malloc_free hs hunits hmalloc hbrk

/-- The marked blocks depend on the set of the pointers only. -/
theorem markFree_perm {ps qs : List Nat} (hperm : ps.Perm qs) : markFree ps = markFree qs := by
  funext b
  simp only [markFree, hperm.mem_iff]

/-- Freeing is confluent in every state of a program. -/
theorem Client.Inv.freesConfluent (hs : mgr.Sound) (hinv : Client.Inv mgr s) :
    FreesConfluent mgr debug s where
  layout_eq _ hnodup hps hfit := hinv.layout_free hs debug hnodup hps hfit
  order ps qs hnodup hps hperm hfit := by
    have hmark := markFree_perm hperm
    have hfit' : FreesFit s.heap qs := by
      unfold FreesFit at hfit ⊢
      rwa [← hmark]
    obtain ⟨s₁, hrun₁, hlayout₁⟩ := hinv.layout_free hs debug hnodup hps hfit
    obtain ⟨s₂, hrun₂, hlayout₂⟩ := hinv.layout_free hs debug
      (hperm.nodup_iff.mp hnodup) (fun p hp => hps p (hperm.mem_iff.mpr hp)) hfit'
    exact ⟨s₁, s₂, hrun₁, hrun₂, by rw [hlayout₁, hlayout₂, hmark]⟩
  all _ hperm hsmall := hinv.layout_free_all hs hperm hsmall
  undo size env h' p hunits hmalloc hbrk := by
    unfold intMax at hunits
    exact hinv.malloc_free hs (by omega) hmalloc hbrk

end

/-- The order of frees does not matter for the layout. In every state of a program that keeps
the contract, freeing is as `FreesConfluent` says, with either manager. No call of the run may make
a block whose size is not an `int`. -/
theorem frees_confluent {debug : Bool} {mem : Mem} {brk limit : Nat}
    (haddr : AddressRange brk limit) :
    (∀ calls (s : Client Unit) out,
      run (clientStep Heapmgr1.manager debug) (Client.start mem brk limit) calls = some (s, out) →
      CallsFit Heapmgr1.manager debug (Client.start mem brk limit) calls →
      FreesConfluent Heapmgr1.manager debug s) ∧
    ∀ calls (s : Client (Fin Heapmgr2.numBins)) out,
      run (clientStep Heapmgr2.manager debug) (Client.start mem brk limit) calls = some (s, out) →
      CallsFit Heapmgr2.manager debug (Client.start mem brk limit) calls →
      FreesConfluent Heapmgr2.manager debug s := by
  constructor
  · intro calls s out hrun hcalls
    exact (Client.inv_run Heapmgr1.sound haddr hcalls hrun).freesConfluent Heapmgr1.sound
  · intro calls s out hrun hcalls
    exact (Client.inv_run Heapmgr2.sound haddr hcalls hrun).freesConfluent Heapmgr2.sound

/-- Three allocations, of which the outer ones are freed before the middle one or after it, and a
heap without an allocation, with both managers. -/
theorem frees_confluent_three :
    (∃ s : Client Unit,
      run (clientStep Heapmgr1.manager true) (Client.start ⟨fun _ => 0⟩ 4096 100000)
        [.malloc 100 ⟨true, true⟩, .malloc 200 ⟨true, true⟩, .malloc 64 ⟨true, true⟩]
        = some (s, [12192, 11952, 11856]) ∧
      ∃ s₁ s₂, run (clientStep Heapmgr1.manager true) s [.free 12192, .free 11856, .free 11952]
          = some (s₁, []) ∧
        run (clientStep Heapmgr1.manager true) s [.free 11952, .free 12192, .free 11856]
          = some (s₂, []) ∧ layout s₁.heap = layout s₂.heap) ∧
    ∃ s : Client (Fin Heapmgr2.numBins),
      run (clientStep Heapmgr2.manager true) (Client.start ⟨fun _ => 0⟩ 4096 100000)
        [.malloc 100 ⟨true, true⟩, .malloc 200 ⟨true, true⟩, .malloc 64 ⟨true, true⟩]
        = some (s, [4112, 4256, 4496]) ∧
      ∃ s₁ s₂, run (clientStep Heapmgr2.manager true) s [.free 4112, .free 4496, .free 4256]
          = some (s₁, []) ∧
        run (clientStep Heapmgr2.manager true) s [.free 4256, .free 4112, .free 4496]
          = some (s₂, []) ∧ layout s₁.heap = layout s₂.heap := by
  have hbreak : BreakRange 4096 100000 := ⟨by decide, by decide, by decide, by decide⟩
  have hmap₁ : (run (clientStep Heapmgr1.manager true) (Client.start ⟨fun _ => 0⟩ 4096 100000)
      [.malloc 100 ⟨true, true⟩, .malloc 200 ⟨true, true⟩, .malloc 64 ⟨true, true⟩]).map
        (fun r => (r.2, r.1.live.map Prod.fst, r.1.heap.lo, r.1.heap.hi))
      = some ([12192, 11952, 11856], [11856, 11952, 12192], 4096, 12320) := by decide +kernel
  have hmap₂ : (run (clientStep Heapmgr2.manager true) (Client.start ⟨fun _ => 0⟩ 4096 100000)
      [.malloc 100 ⟨true, true⟩, .malloc 200 ⟨true, true⟩, .malloc 64 ⟨true, true⟩]).map
        (fun r => (r.2, r.1.live.map Prod.fst, r.1.heap.lo, r.1.heap.hi))
      = some ([4112, 4256, 4496], [4496, 4256, 4112], 4096, 12320) := by decide +kernel
  constructor
  · obtain ⟨⟨s, out⟩, hrun, heq⟩ := Option.map_eq_some_iff.mp hmap₁
    simp only [Prod.mk.injEq] at heq
    obtain ⟨rfl, hlive, hlo, hhi⟩ := heq
    have hinv := (Client.inv_run_of_breakRange Heapmgr1.sound hbreak hrun).1
    exact ⟨s, hrun, ((frees_confluent hbreak.addresses).1 _ s _ hrun
      (callsFit_of_breakRange Heapmgr1.sound hbreak _)).order
      [12192, 11856, 11952] [11952, 12192, 11856] (by decide) (by rw [hlive]; decide) (by decide)
      (hinv.freesFit (by omega) _)⟩
  · obtain ⟨⟨s, out⟩, hrun, heq⟩ := Option.map_eq_some_iff.mp hmap₂
    simp only [Prod.mk.injEq] at heq
    obtain ⟨rfl, hlive, hlo, hhi⟩ := heq
    have hinv := (Client.inv_run_of_breakRange Heapmgr2.sound hbreak hrun).1
    exact ⟨s, hrun, ((frees_confluent hbreak.addresses).2 _ s _ hrun
      (callsFit_of_breakRange Heapmgr2.sound hbreak _)).order
      [4112, 4496, 4256] [4256, 4112, 4496] (by decide) (by rw [hlive]; decide) (by decide)
      (hinv.freesFit (by omega) _)⟩

/-- A heap that could not grow has no block, so none is left when everything is freed. For a size
close to `2 ^ 64` the span wraps around, and a live block is overwritten. Two blocks of 1500000032
bytes are joined to one whose size is negative as an `int`, and then the order matters. -/
theorem frees_confluent_bounds :
    (∃ s : Client Unit,
      run (clientStep Heapmgr1.manager true) (Client.start ⟨fun _ => 0⟩ 4096 100000)
        [.malloc 100 ⟨true, false⟩] = some (s, [0]) ∧
      s.live = [] ∧ layout s.heap = []) ∧
    (∃ (s : Client Unit) (h' h'' : Heap Unit),
      run (clientStep Heapmgr1.manager false) (Client.start ⟨fun _ => 0⟩ 4096 100000)
        [.malloc 1024 ⟨true, true⟩, .malloc 100 ⟨true, true⟩] = some (s, [11280, 11136]) ∧
      Heapmgr1.heapmgrMalloc false s.heap ⟨true, true⟩ (2 ^ 64 - 32) = .ok (h', 11136) ∧
      h'.brk = s.heap.brk ∧ Heapmgr1.heapmgrFree false h' 11136 = .ok h'' ∧
      layout h'' ≠ layout s.heap) ∧
    ∃ s s₁ s₂ : Client Unit,
      run (clientStep Heapmgr1.manager false) (Client.start ⟨fun _ => 0⟩ 4096 10000000000)
        [.malloc 1500000000 ⟨true, true⟩, .malloc 1500000000 ⟨true, true⟩,
          .malloc 100 ⟨true, true⟩] = some (s, [4112, 1500004144, 3000012256]) ∧
      run (clientStep Heapmgr1.manager false) s
        [.free 4112, .free 1500004144, .free 3000012256] = some (s₁, []) ∧
      run (clientStep Heapmgr1.manager false) s
        [.free 3000012256, .free 1500004144, .free 4112] = some (s₂, []) ∧
      layout s₁.heap ≠ layout s₂.heap := by
  refine ⟨?_, ?_, ?_⟩
  · have hmap : (run (clientStep Heapmgr1.manager true) (Client.start ⟨fun _ => 0⟩ 4096 100000)
        [.malloc 100 ⟨true, false⟩]).map (fun r => (r.2, r.1.live, layout r.1.heap))
        = some ([0], [], []) := by decide +kernel
    obtain ⟨⟨s, out⟩, hrun, heq⟩ := Option.map_eq_some_iff.mp hmap
    obtain ⟨rfl, hrest⟩ := Prod.mk.inj heq
    obtain ⟨hlive, hlayout⟩ := Prod.mk.inj hrest
    exact ⟨s, hrun, hlive, hlayout⟩
  · have hmap : ((run (clientStep Heapmgr1.manager false)
        (Client.start ⟨fun _ => 0⟩ 4096 100000)
        [.malloc 1024 ⟨true, true⟩, .malloc 100 ⟨true, true⟩]).bind fun r =>
          (Heapmgr1.heapmgrMalloc false r.1.heap ⟨true, true⟩ (2 ^ 64 - 32)).toOption.bind fun q =>
            (Heapmgr1.heapmgrFree false q.1 q.2).toOption.map fun h =>
              ([r.2, [q.2, q.1.brk, r.1.heap.brk]], (layout r.1.heap).take 2, (layout h).take 2))
        = some ([[11280, 11136], [11136, 12320, 12320]], [⟨4096, 439, 0⟩, ⟨11120, 9, 1⟩],
            [⟨4096, 439, 0⟩, ⟨11120, 0, 0⟩]) := by decide +kernel
    obtain ⟨⟨s, out⟩, hrun, hbind⟩ := Option.bind_eq_some_iff.mp hmap
    obtain ⟨⟨h', p⟩, hmalloc, hbind⟩ := Option.bind_eq_some_iff.mp hbind
    obtain ⟨h'', hfree, heq⟩ := Option.map_eq_some_iff.mp hbind
    simp only [Prod.mk.injEq, List.cons.injEq, and_true] at heq
    obtain ⟨⟨rfl, rfl, hbrk', hbrk⟩, hold, hnew⟩ := heq
    refine ⟨s, h', h'', hrun, toOption_eq_some hmalloc, hbrk'.trans hbrk.symm,
      toOption_eq_some hfree, ?_⟩
    intro hsame
    rw [hsame, hold] at hnew
    exact absurd hnew (by decide)
  · have hmap : ((run (clientStep Heapmgr1.manager false)
        (Client.start ⟨fun _ => 0⟩ 4096 10000000000)
        [.malloc 1500000000 ⟨true, true⟩, .malloc 1500000000 ⟨true, true⟩,
          .malloc 100 ⟨true, true⟩]).bind fun r =>
          (run (clientStep Heapmgr1.manager false) r.1
            [.free 4112, .free 1500004144, .free 3000012256]).bind fun r₁ =>
            (run (clientStep Heapmgr1.manager false) r.1
              [.free 3000012256, .free 1500004144, .free 4112]).map fun r₂ =>
              ([r.2, r₁.2, r₂.2], (layout r₁.1.heap).take 1, (layout r₂.1.heap).take 1))
        = some ([[4112, 1500004144, 3000012256], [], []], [⟨4096, 187500509, 0⟩],
            [⟨4096, 187500518, 0⟩]) := by decide +kernel
    obtain ⟨⟨s, out⟩, hrun, hbind⟩ := Option.bind_eq_some_iff.mp hmap
    obtain ⟨⟨s₁, out₁⟩, hrun₁, hbind⟩ := Option.bind_eq_some_iff.mp hbind
    obtain ⟨⟨s₂, out₂⟩, hrun₂, heq⟩ := Option.map_eq_some_iff.mp hbind
    simp only [Prod.mk.injEq, List.cons.injEq, and_true] at heq
    obtain ⟨⟨rfl, rfl, rfl⟩, hfirst, hsecond⟩ := heq
    refine ⟨s, s₁, s₂, hrun, hrun₁, hrun₂, ?_⟩
    intro hsame
    rw [hsame, hsecond] at hfirst
    exact absurd hfirst (by decide)

end SysProg.Memory
