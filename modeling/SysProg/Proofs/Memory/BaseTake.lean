import SysProg.Proofs.Memory.BaseList

/-!
# `SysProg.Proofs.Memory.BaseTake`: taking a block out of the free list

`freelist_detach` and `split_for_alloc` on a node of the free list, and the walks that read the
heap: the scan of `heapmgr_malloc`, the search of `heapmgr_free` and `check_heap_validity`.
-/

set_option autoImplicit false

namespace SysProg.Memory.Heapmgrbase

open SysProg.Lib

section
variable {h : Heap Unit} {m : Mem} {lo hi c cur : Nat} {p u : Piece}
  {ps pre suf ds rs xs ys : List Piece}

/-! ### Detaching and splitting -/

/-- The addresses of the free pieces. -/
def FreeAt (ps : List Piece) (x : Nat) : Prop :=
  ∃ p ∈ ps, p.free = true ∧ p.start ≤ x ∧ x < p.stop

/-- The unit of a free block is free. -/
theorem Blocks.freeAt_unit (hb : Blocks m lo ps hi) (hp : p ∈ ps) (hfree : p.free = true) {x : Nat}
    (hx : unitAt p.start x) : FreeAt ps x := by
  have hbounds := hb.bounds hp
  unfold unitAt at hx
  exact ⟨p, hp, hfree, hx.1, by omega⟩

/-- `freelist_detach` on a node. The link in front of it, or the head, leads past it, and the block
is in use. -/
theorem Rep.freelistDetach (r : Rep h (pre ++ p :: suf)) (debug : Bool) (hp : p.free = true) :
    ∃ h', freelistDetach debug h (lastStart 0 (frees pre)) p.start = .ok h' ∧
      Rep h' (pre ++ { p with free := false } :: suf) ∧ Edits (FreeAt (pre ++ p :: suf)) h h' := by
  have hmem : p ∈ pre ++ p :: suf := List.mem_append_right _ List.mem_cons_self
  have hstatus : check debug (decide (chunkGetStatus h.mem p.start = chunkFree)) = .ok () :=
    check_of (decide_eq_true (by rw [r.blocks.status p hmem, hp]; rfl))
  have hpfree : ∀ x, unitAt p.start x → FreeAt (pre ++ p :: suf) x :=
    fun x hx => r.blocks.freeAt_unit hmem hp hx
  have hbehind : ∀ d ∈ frees suf, d ∈ pre ++ p :: suf ∧ p.start < d.start := by
    intro d hd
    have hdsuf := (mem_frees.mp hd).1
    have hle := r.blocks.laid.tiled.behind hdsuf
    have hbounds := r.blocks.bounds hmem
    exact ⟨List.mem_append_right _ (List.mem_cons_of_mem _ hdsuf), by omega⟩
  -- The last two writes are to the header of the block itself.
  have hlast : ∀ {m' : Mem}, Blocks m' h.lo (pre ++ p :: suf) h.hi →
      Blocks (chunkSetStatus (chunkSetNextFree m' p.start 0) p.start chunkUsed) h.lo
        (pre ++ { p with free := false } :: suf) h.hi ∧
      (∀ d ∈ pre ++ p :: suf, d.start ≠ p.start → headers.next
        (chunkSetStatus (chunkSetNextFree m' p.start 0) p.start chunkUsed) d.start
          = headers.next m' d.start) ∧
      Within (unitAt p.start) m'
        (chunkSetStatus (chunkSetNextFree m' p.start 0) p.start chunkUsed) := by
    intro m' hb
    have hw := (chunkSetNextFree_within m' p.start 0).trans
      (chunkSetStatus_within _ p.start chunkUsed)
    exact ⟨(hb.setNext hmem).setStatus false,
      fun d hd hne => headers.next_congr
        (HeaderLayout.congr_of_ne (hb.laid.apart hmem hd) hne hw), hw⟩
  rcases lastStart_cases 0 (frees pre) with ⟨hpre, hzero⟩ | ⟨fs, e, hpre, he⟩
  · obtain ⟨hblocks, hsame, hw⟩ := hlast r.blocks
    refine ⟨(h.setHead () (chunkGetNextFree h.mem p.start)).setMem
      (chunkSetStatus (chunkSetNextFree h.mem p.start 0) p.start chunkUsed), ?_, ⟨hblocks, ?_⟩, ?_⟩
    · rw [hzero]
      simp only [Heapmgrbase.freelistDetach, hstatus, bind, Except.bind, pure, Except.pure, if_true,
        setHead_mem]
    · rw [freeHead_setMem, freeHead_setHead]
      refine r.chain.remove_front hp hpre fun d hd => ?_
      obtain ⟨hd, hlt⟩ := hbehind d hd
      exact hsame d hd (by omega)
    · have hw' := hw.mono hpfree
      refine (edits_setHead _ h _).trans (edits_setMem ?_)
      rw [setHead_mem]
      exact hw'
  · obtain ⟨hepre, hefree⟩ := mem_frees.mp (hpre ▸ List.mem_append_right fs List.mem_cons_self)
    have hemem : e ∈ pre ++ p :: suf := List.mem_append_left _ hepre
    have hebounds := r.blocks.bounds hemem
    have hebefore := r.blocks.laid.tiled.before hepre
    have happ := r.blocks.laid.apart hemem hmem
    have hne : p.start ≠ e.start := by omega
    have he0 : e.start ≠ 0 := by omega
    have hlink := r.blocks.setNext (v := chunkGetNextFree h.mem p.start) hemem
    obtain ⟨hblocks, hsame, hw⟩ := hlast hlink
    refine ⟨h.setMem (chunkSetStatus (chunkSetNextFree (chunkSetNextFree h.mem e.start
      (chunkGetNextFree h.mem p.start)) p.start 0) p.start chunkUsed), ?_, ⟨hblocks, ?_⟩, ?_⟩
    · rw [he]
      simp only [Heapmgrbase.freelistDetach, hstatus, bind, Except.bind, pure, Except.pure, he0,
        if_false, setMem_mem, setMem_setMem]
    · rw [freeHead_setMem, setMem_mem]
      refine r.chain.remove hp hpre ?_ fun d hd => ?_
      · exact (hsame e hemem (by omega)).trans
          (headers.next_setNext _ _ (headers_next_lt h.mem p.start))
      · have hdmem : d ∈ pre ++ p :: suf ∧ d.start ≠ e.start ∧ d.start ≠ p.start := by
          rcases List.mem_append.mp hd with hd | hd
          · have hdpre := mem_frees.mp (hpre ▸ List.mem_append_left [e] hd)
            have hdmem := List.mem_append_left (p :: suf) hdpre.1
            have hdbounds := r.blocks.bounds hdmem
            have hdbefore := r.blocks.laid.tiled.before hdpre.1
            have hsorted : (fs ++ [e]).Pairwise fun a b => a.stop ≤ b.start := by
              rw [← hpre]
              exact (tiled_split.mp r.blocks.laid.tiled).1.pairwise.sublist List.filter_sublist
            have hle := (List.pairwise_append.mp hsorted).2.2 d hd e List.mem_cons_self
            exact ⟨hdmem, by omega, by omega⟩
          · obtain ⟨hdmem, hlt⟩ := hbehind d hd
            exact ⟨hdmem, by omega, by omega⟩
        obtain ⟨hdmem, hde, hdp⟩ := hdmem
        exact (hsame d hdmem hdp).trans
          (HeaderLayout.next_setNext_apart (r.blocks.laid.apart hemem hdmem) hde)
    · refine edits_setMem (((chunkSetNextFree_within _ _ _).mono fun x hx => ?_).trans
        (hw.mono hpfree))
      exact r.blocks.freeAt_unit hemem hefree hx

/-- `split_for_alloc` on a node that is larger than the new block. The end of it becomes the new
block, and the rest stays in the list. -/
theorem Rep.splitForAlloc (r : Rep h (pre ++ p :: suf)) (debug : Bool) (hp : p.free = true)
    {need : Nat} (hneed : 16 * (1 + need) < p.len) :
    ∃ h', splitForAlloc debug h p.start need = .ok (h', p.stop - 16 * (1 + need)) ∧
      Rep h' (pre ++ p.cut (16 * (1 + need)) ++ suf) ∧ Edits (FreeAt (pre ++ p :: suf)) h h' := by
  have hmem : p ∈ pre ++ p :: suf := List.mem_append_right _ List.mem_cons_self
  obtain ⟨hspan, hpos, hmax⟩ := r.blocks.span_eq hmem
  have hbounds := r.blocks.bounds hmem
  have hstop : p.stop = p.start + p.len := rfl
  have hlt : ((1 + need : Nat) : Int) < chunkGetSpanUnits h.mem p.start := by omega
  unfold intMax at hmax
  have halloc : i32 (1 + need) = (1 + need : Nat) := by
    rw [i32_eq (by omega) (by omega)]
    omega
  have hremain : i32 (chunkGetSpanUnits h.mem p.start - (1 + need : Nat))
      = chunkGetSpanUnits h.mem p.start - (1 + need : Nat) := i32_eq (by omega) (by omega)
  -- The assertions hold.
  have hrange : check debug (decide (h.lo ≤ p.start) && decide (p.start ≤ h.hi)) = .ok () := by
    refine check_of ?_
    rw [decide_eq_true hbounds.2.1, decide_eq_true (by omega)]
    rfl
  have hstatus : check debug (decide (chunkGetStatus h.mem p.start = chunkFree)) = .ok () :=
    check_of (decide_eq_true (by rw [r.blocks.status p hmem, hp]; rfl))
  have hrest : check debug (decide (0 < chunkGetSpanUnits h.mem p.start - (1 + need : Nat)))
      = .ok () := check_of (decide_eq_true (by omega))
  -- The new block starts where the shrunk one ends.
  have hadj : chunkGetAdjacent debug (chunkSetSpanUnits h.mem p.start
      (chunkGetSpanUnits h.mem p.start - (1 + need : Nat))) p.start h.lo h.hi
      = .ok (p.stop - 16 * (1 + need)) := by
    have hread : chunkGetSpanUnits (chunkSetSpanUnits h.mem p.start
        (chunkGetSpanUnits h.mem p.start - (1 + need : Nat))) p.start
        = chunkGetSpanUnits h.mem p.start - (1 + need : Nat) :=
      loadInt_storeInt _ _ (by omega) (by omega)
    have haddr : ptrAdd p.start ((chunkGetSpanUnits h.mem p.start - (1 + need : Nat)) * chunkUnit)
        = p.stop - 16 * (1 + need) := by
      refine ptrAdd_eq ?_ (by omega)
      unfold chunkUnit
      omega
    unfold chunkGetAdjacent
    rw [check_of (decide_eq_true hbounds.2.1), hread, haddr]
    show Except.ok (if h.hi ≤ p.stop - 16 * (1 + need) then 0 else p.stop - 16 * (1 + need)) = _
    rw [if_neg (by omega)]
  have hcut := r.blocks.cut hp (k := 1 + need) (by omega) hlt
  have hinside : p.start + 16 ≤ p.stop - 16 * (1 + need) ∧
      p.stop - 16 * (1 + need) + 16 ≤ p.stop := by omega
  have htail : p.tail (16 * (1 + need)) ∈ pre ++ ⟨p.start, p.len - 16 * (1 + need), true⟩ ::
      p.tail (16 * (1 + need)) :: suf :=
    List.mem_append_right _ (List.mem_cons_of_mem _ List.mem_cons_self)
  have hnext : ∀ q ∈ pre ++ p :: suf, ∀ v, headers.next (chunkSetNextFree (chunkSetStatus
      (chunkSetSpanUnits (chunkSetSpanUnits h.mem p.start
        (chunkGetSpanUnits h.mem p.start - (1 + need : Nat))) (p.stop - 16 * (1 + need))
        (1 + need : Nat)) (p.stop - 16 * (1 + need)) chunkUsed) (p.stop - 16 * (1 + need)) v)
        q.start = headers.next h.mem q.start := by
    intro q hq v
    obtain ⟨happ, hne⟩ := r.blocks.apart_inside hmem hinside.1 hinside.2 hq
    have hw := ((chunkSetSpanUnits_within (chunkSetSpanUnits h.mem p.start
        (chunkGetSpanUnits h.mem p.start - (1 + need : Nat))) (p.stop - 16 * (1 + need))
        (1 + need : Nat)).trans (chunkSetStatus_within _ _ chunkUsed)).trans
      (chunkSetNextFree_within _ _ v)
    rw [headers.next_congr (HeaderLayout.congr_of_ne happ hne hw)]
    have hsame := HeaderLayout.next_setSpan_apart (m := h.mem)
      (v := (chunkGetSpanUnits h.mem p.start).toNat - (1 + need)) (r.blocks.laid.apart hmem hq)
    rwa [headers_setSpan, toNat_sub hlt] at hsame
  generalize hm : chunkSetStatus (chunkSetSpanUnits (chunkSetSpanUnits h.mem p.start
    (chunkGetSpanUnits h.mem p.start - (1 + need : Nat))) (p.stop - 16 * (1 + need))
    (1 + need : Nat)) (p.stop - 16 * (1 + need)) chunkUsed = m₃ at hcut hnext
  refine ⟨h.setMem (chunkSetNextFree m₃ (p.stop - 16 * (1 + need)) (chunkGetNextFree m₃ p.start)),
    ?_, ⟨?_, ?_⟩, ?_⟩
  · simp only [Heapmgrbase.splitForAlloc, halloc, hremain, hrange, hstatus, hrest, hadj, bind,
      Except.bind, pure, Except.pure]
    rw [hm]
  · rw [Piece.cut, if_neg (by omega), List.append_assoc]
    exact hcut.setNext htail
  · rw [Piece.cut, if_neg (by omega), List.append_assoc, List.cons_append, List.cons_append,
      List.nil_append, freeHead_setMem, setMem_mem]
    have hchain := r.chain
    rw [freeChain_append_cons_of_free hp] at hchain
    refine (freeChain_append_cons_of_free rfl).mpr ?_
    rw [frees_cons_of_used rfl]
    refine hchain.congr fun x hx => HeaderLayout.link_congr ?_
    rcases List.mem_append.mp hx with hx | hx
    · obtain ⟨q, hq, rfl⟩ := List.mem_map.mp hx
      exact hnext q (List.mem_append_left _ (mem_frees.mp hq).1) _
    · rcases List.mem_cons.mp hx with rfl | hx
      · exact hnext p hmem _
      · obtain ⟨q, hq, rfl⟩ := List.mem_map.mp hx
        exact hnext q (List.mem_append_right _ (List.mem_cons_of_mem _ (mem_frees.mp hq).1)) _
  · -- Both headers are inside the free block.
    have hin : ∀ a x, p.start ≤ a → a + 16 ≤ p.stop → unitAt a x → FreeAt (pre ++ p :: suf) x := by
      intro a x hlo hhi hx
      unfold unitAt at hx
      exact ⟨p, hmem, hp, by omega, by omega⟩
    rw [← hm]
    refine edits_setMem (((chunkSetSpanUnits_within _ _ _).mono fun x => hin _ x ?_ ?_).trans
      (((chunkSetSpanUnits_within _ _ _).mono fun x => hin _ x ?_ ?_).trans
        (((chunkSetStatus_within _ _ _).mono fun x => hin _ x ?_ ?_).trans
          ((chunkSetNextFree_within _ _ _).mono fun x => hin _ x ?_ ?_))))
    all_goals omega

end

end SysProg.Memory.Heapmgrbase
