import SysProg.Proofs.Memory.BaseBlocks

/-!
# `SysProg.Proofs.Memory.BaseList`: the free list of `heapmgrbase.c`

`Rep` says that a heap consists of some pieces and that the list from `s_free_head` has the free
ones. There is one lemma for each function on the list: it returns, with the assertions or
without, and the heap consists of the new pieces.

`Edits` says what a function leaves alone: the static variables except the list, and all bytes
outside the units it names.
-/

set_option autoImplicit false

namespace SysProg.Memory.Heapmgrbase

open SysProg.Lib

/-- The heap consists of the blocks `ps`, and the free list has the free ones in order. -/
structure Rep (h : Heap Unit) (ps : List Piece) : Prop where
  blocks : Blocks h.mem h.lo ps h.hi
  chain : FreeChain headers 0 h.mem (freeHead h) ps

/-- Only the free list and bytes of `S` differ. -/
structure Edits (S : Nat → Prop) (h h' : Heap Unit) : Prop where
  lo : h'.lo = h.lo
  hi : h'.hi = h.hi
  booted : h'.booted = h.booted
  brk : h'.brk = h.brk
  base : h'.base = h.base
  limit : h'.limit = h.limit
  within : Within S h.mem h'.mem

section
variable (h : Heap Unit) (m m' : Mem) (c : Nat)

@[simp] theorem setMem_mem : (h.setMem m).mem = m := rfl
@[simp] theorem setMem_lo : (h.setMem m).lo = h.lo := rfl
@[simp] theorem setMem_hi : (h.setMem m).hi = h.hi := rfl
@[simp] theorem setMem_setMem : (h.setMem m).setMem m' = h.setMem m' := rfl
@[simp] theorem freeHead_setMem : freeHead (h.setMem m) = freeHead h := rfl

@[simp] theorem setHead_mem : (h.setHead () c).mem = h.mem := rfl

@[simp] theorem freeHead_setHead : freeHead (h.setHead () c) = c := by
  show Function.update h.heads () c () = c
  exact Function.update_self () c h.heads

end

section
variable {S T : Nat → Prop} {h h' h'' : Heap Unit}

/-- A heap differs from itself nowhere. -/
theorem Edits.refl (S : Nat → Prop) (h : Heap Unit) : Edits S h h :=
  ⟨rfl, rfl, rfl, rfl, rfl, rfl, Within.refl S h.mem⟩

/-- Two edits one after the other. -/
theorem Edits.trans (e : Edits S h h') (e' : Edits S h' h'') : Edits S h h'' :=
  ⟨e'.lo.trans e.lo, e'.hi.trans e.hi, e'.booted.trans e.booted, e'.brk.trans e.brk,
    e'.base.trans e.base, e'.limit.trans e.limit, e.within.trans e'.within⟩

/-- An edit within some bytes is one within more of them. -/
theorem Edits.mono (e : Edits S h h') (hST : ∀ x, S x → T x) : Edits T h h' :=
  ⟨e.lo, e.hi, e.booted, e.brk, e.base, e.limit, e.within.mono hST⟩

/-- A new head of the list. -/
theorem edits_setHead (S : Nat → Prop) (h : Heap Unit) (c : Nat) : Edits S h (h.setHead () c) :=
  ⟨rfl, rfl, rfl, rfl, rfl, rfl, Within.refl S h.mem⟩

/-- A write to the memory. -/
theorem edits_setMem {m : Mem} (hw : Within S h.mem m) : Edits S h (h.setMem m) :=
  ⟨rfl, rfl, rfl, rfl, rfl, rfl, hw⟩

end

/-- An assertion that holds. -/
theorem check_of {debug p : Bool} (h : p = true) : check debug p = .ok () := by
  rw [check, h, Bool.not_true, Bool.and_false, if_neg Bool.false_ne_true]

@[simp] theorem check_true (debug : Bool) : check debug true = .ok () := check_of rfl

/-- A link is an address. -/
theorem headers_next_lt (m : Mem) (c : Nat) : headers.next m c < 2 ^ 64 := loadPtr_lt m (c + 8)

section
variable {h : Heap Unit} {m : Mem} {p q u e : Piece} {ps pre suf fs : List Piece}

/-! ### Merging two blocks -/

/-- `coalesce_two` on two free neighbours. The first one gets the sum of the spans and the link of
the second one. -/
theorem coalesceTwo_spec (debug : Bool) (hb : Blocks h.mem h.lo (pre ++ p :: q :: suf) h.hi)
    (hp : p.free = true) (hq : q.free = true) :
    ∃ m', coalesceTwo debug h p.start q.start = .ok (h.setMem m', p.start) ∧
      Blocks m' h.lo (pre ++ p.join q :: suf) h.hi ∧
      headers.next m' p.start = headers.next h.mem q.start ∧
      (∀ r ∈ pre ++ suf, headers.next m' r.start = headers.next h.mem r.start) ∧
      Within (unitAt p.start) h.mem m' := by
  have hpmem : p ∈ pre ++ p :: q :: suf := List.mem_append_right _ List.mem_cons_self
  have hqmem : q ∈ pre ++ p :: q :: suf :=
    List.mem_append_right _ (List.mem_cons_of_mem _ List.mem_cons_self)
  have hstart : q.start = p.stop := (tiled_split.mp hb.laid.tiled).2.2.1
  have hpb := hb.bounds hpmem
  have hqb := hb.bounds hqmem
  -- The assertions hold.
  have hlt : check debug (decide (p.start < q.start)) = .ok () :=
    check_of (decide_eq_true (by omega))
  have hadj : chunkGetAdjacent debug h.mem p.start h.lo h.hi = .ok q.start := by
    rw [hb.chunkGetAdjacent_eq hpmem, if_neg (by omega), hstart]
  have hpstatus : check debug (decide (chunkGetStatus h.mem p.start = chunkFree)) = .ok () :=
    check_of (decide_eq_true (by rw [hb.status p hpmem, hp]; rfl))
  have hqstatus : check debug (decide (chunkGetStatus h.mem q.start = chunkFree)) = .ok () :=
    check_of (decide_eq_true (by rw [hb.status q hqmem, hq]; rfl))
  have hjoin := hb.join
  -- The link is read behind the write to the span.
  have hnextq : ∀ s : Int, chunkGetNextFree (chunkSetSpanUnits h.mem p.start s) q.start
      = headers.next h.mem q.start := by
    intro s
    have happ := hb.laid.apart hpmem hqmem
    have hne : q.start ≠ p.start := by omega
    exact headers.next_congr
      (HeaderLayout.congr_of_ne happ hne (chunkSetSpanUnits_within h.mem p.start s))
  refine ⟨chunkSetNextFree (chunkSetSpanUnits h.mem p.start
    (i32 (chunkGetSpanUnits h.mem p.start + chunkGetSpanUnits h.mem q.start))) p.start
    (headers.next h.mem q.start), ?_, ?_, ?_, ?_, ?_⟩
  · simp only [coalesceTwo, hlt, hadj, hpstatus, hqstatus, hnextq, decide_true, check_true,
      ite_self, bind, Except.bind, pure, Except.pure]
  · have hmem : p.join q ∈ pre ++ p.join q :: suf := List.mem_append_right _ List.mem_cons_self
    have hnode := hjoin.setNext (v := headers.next h.mem q.start) hmem
    exact hnode
  · exact headers.next_setNext _ _ (headers_next_lt h.mem q.start)
  · intro r hr
    have hrmem : r ∈ pre ++ p :: q :: suf := by
      rcases List.mem_append.mp hr with hr | hr
      · exact List.mem_append_left _ hr
      · exact List.mem_append_right _ (List.mem_cons_of_mem _ (List.mem_cons_of_mem _ hr))
    have hne : r.start ≠ p.start := by
      have hrb := hb.bounds hrmem
      rcases List.mem_append.mp hr with hr | hr
      · have hle := hb.laid.tiled.before hr
        omega
      · have hle := hb.laid.tiled.behind (List.mem_cons_of_mem q hr)
        omega
    have happ := hb.laid.apart hpmem hrmem
    show headers.next (headers.setNext _ p.start _) r.start = _
    rw [HeaderLayout.next_setNext_apart happ hne]
    exact headers.next_congr (HeaderLayout.congr_of_ne happ hne (chunkSetSpanUnits_within _ _ _))
  · exact (chunkSetSpanUnits_within _ _ _).trans (chunkSetNextFree_within _ _ _)

/-- `coalesce_two` on two nodes of the free list. -/
theorem Rep.coalesceTwo (r : Rep h (pre ++ p :: q :: suf)) (debug : Bool) (hp : p.free = true)
    (hq : q.free = true) :
    ∃ h', coalesceTwo debug h p.start q.start = .ok (h', p.start) ∧
      Rep h' (pre ++ p.join q :: suf) ∧ Edits (unitAt p.start) h h' := by
  obtain ⟨m', hok, hblocks, hnext, hsame, hw⟩ := coalesceTwo_spec debug r.blocks hp hq
  refine ⟨h.setMem m', hok, ⟨hblocks, r.chain.join hp hq hnext fun d hd => hsame d ?_⟩,
    edits_setMem hw⟩
  rcases List.mem_append.mp hd with hd | hd
  · exact List.mem_append_left _ (mem_frees.mp hd).1
  · exact List.mem_append_right _ (mem_frees.mp hd).1

/-! ### Giving a block back -/

/-- A write to the header of one block leaves the links of the others. -/
theorem Blocks.next_same {m' : Mem} (hb : Blocks m h.lo ps h.hi) (hu : u ∈ ps)
    (hw : Within (unitAt u.start) m m') {r : Piece} (hr : r ∈ ps) (hne : r.start ≠ u.start) :
    headers.next m' r.start = headers.next m r.start :=
  headers.next_congr (HeaderLayout.congr_of_ne (hb.laid.apart hu hr) hne hw)

/-- `freelist_push_front` on a block in front of the free ones. It is the new head, joined with the
old one if they are neighbours. -/
theorem Rep.freelistPushFront (r : Rep h (pre ++ u :: suf)) (debug : Bool)
    (hm : Merged (pre ++ u :: suf)) (hu : u.free = false) (hpre : frees pre = []) :
    ∃ h', freelistPushFront debug h u.start = .ok h' ∧
      Rep h' (merge (pre ++ { u with free := true } :: suf)) ∧ Edits (unitAt u.start) h h' := by
  have hmem : u ∈ pre ++ u :: suf := List.mem_append_right _ List.mem_cons_self
  have hmem' : { u with free := true } ∈ pre ++ { u with free := true } :: suf :=
    List.mem_append_right _ List.mem_cons_self
  have hubounds := r.blocks.bounds hmem
  have hlast : ∀ d, pre.getLast? = some d → d.free = false := fun d hd =>
    frees_eq_nil.mp hpre d (List.mem_of_getLast? hd)
  have hbehind : ∀ d ∈ suf, d ∈ pre ++ u :: suf ∧ u.start < d.start := by
    intro d hd
    have hle := r.blocks.laid.tiled.behind hd
    exact ⟨List.mem_append_right _ (List.mem_cons_of_mem _ hd), by omega⟩
  have hmpre : Merged pre := (merged_split.mp hm).1
  have hmsuf : Merged suf := (merged_split.mp hm).2.1
  have hspan : check debug (decide (1 ≤ chunkGetSpanUnits h.mem u.start)) = .ok () :=
    check_of (decide_eq_true (r.blocks.span_eq hmem).2.1)
  -- The block becomes free, and its link is the old head.
  have hstatus := r.blocks.setStatus true
  have hlink : Blocks (chunkSetNextFree (chunkSetStatus h.mem u.start (statusOf true)) u.start
      (freeHead h)) h.lo (pre ++ { u with free := true } :: suf) h.hi :=
    hstatus.setNext (p := { u with free := true }) hmem'
  have hw : Within (unitAt u.start) h.mem (chunkSetNextFree
      (chunkSetStatus h.mem u.start (statusOf true)) u.start (freeHead h)) :=
    (chunkSetStatus_within _ _ _).trans (chunkSetNextFree_within _ _ _)
  -- The old head is the first free block behind the new one.
  have hold := r.chain
  rw [freeChain_append_cons_of_used hu, hpre, List.nil_append] at hold
  have hhead : freeHead h = 0 ∧ frees suf = [] ∨
      ∃ q rest, frees suf = q :: rest ∧ q ∈ suf ∧ q.free = true ∧ freeHead h = q.start := by
    cases hfs : frees suf with
    | nil =>
        rw [hfs] at hold
        exact Or.inl ⟨hold, rfl⟩
    | cons q rest =>
        rw [hfs] at hold
        obtain ⟨hq, hfree⟩ := mem_frees.mp (hfs ▸ List.mem_cons_self)
        exact Or.inr ⟨q, rest, rfl, hq, hfree, hold.1⟩
  have hhead_lt : freeHead h < 2 ^ 64 := by
    rcases hhead with ⟨heq, -⟩ | ⟨q, -, -, hq, -, heq⟩
    · rw [heq]
      decide
    · have hbounds := r.blocks.bounds (hbehind q hq).1
      omega
  have hchain' : FreeChain headers 0 (chunkSetNextFree
      (chunkSetStatus h.mem u.start (statusOf true)) u.start (freeHead h)) u.start
      (pre ++ { u with free := true } :: suf) := by
    refine r.chain.insert_front hu hpre (by omega) (headers.next_setNext _ _ hhead_lt) ?_
    intro d hd
    obtain ⟨hdmem, hdlt⟩ := hbehind d (mem_frees.mp hd).1
    exact r.blocks.next_same hmem hw hdmem (by omega)
  generalize hm₂ : chunkSetNextFree (chunkSetStatus h.mem u.start (statusOf true)) u.start
    (freeHead h) = m₂ at hlink hw hchain'
  have hrep : Rep ((h.setMem m₂).setHead () u.start) (pre ++ { u with free := true } :: suf) := by
    refine ⟨hlink, ?_⟩
    rw [freeHead_setHead]
    exact hchain'
  have hedits : Edits (unitAt u.start) h ((h.setMem m₂).setHead () u.start) :=
    (edits_setMem hw).trans (edits_setHead _ _ _)
  rcases hhead with ⟨hzero, hnone⟩ | ⟨q, rest, hfs, hq, hqfree, heq⟩
  -- The list was empty.
  · refine ⟨(h.setMem m₂).setHead () u.start, ?_, ?_, hedits⟩
    · rw [← hm₂, hzero]
      simp only [Heapmgrbase.freelistPushFront, hspan, freeHead_setMem, hzero, bind, Except.bind,
        pure, Except.pure, if_true]
      rfl
    · rw [(merged_between _ hmpre hmsuf hlast fun d hd =>
        frees_eq_nil.mp hnone d (List.mem_of_head? hd)).merge_eq]
      exact hrep
  · have hlt : check debug (decide (u.start < q.start)) = .ok () :=
      check_of (decide_eq_true (hbehind q hq).2)
    have hq0 : q.start ≠ 0 := by
      have hpos := (r.blocks.bounds (hbehind q hq).1).1
      omega
    have hadj : chunkGetAdjacent debug m₂ u.start h.lo h.hi
        = .ok (if h.hi ≤ u.stop then 0 else u.stop) := hlink.chunkGetAdjacent_eq hmem' debug
    rw [heq] at hm₂
    have hm₂' : chunkSetNextFree (chunkSetStatus h.mem u.start chunkFree) u.start q.start = m₂ :=
      hm₂
    cases suf with
    | nil => cases hq
    | cons d suf =>
        obtain ⟨hdmem, -⟩ := hbehind d List.mem_cons_self
        have hstart : d.start = u.stop := (tiled_split.mp r.blocks.laid.tiled).2.2.1
        have hdbounds := r.blocks.bounds hdmem
        rw [if_neg (by omega), ← hstart] at hadj
        cases hd : d.free with
        | false =>
            -- The block behind is in use, and nothing is merged.
            have hne : d.start ≠ q.start := by
              intro hsame
              rw [r.blocks.laid.tiled.eq_of_start hdmem (hbehind q hq).1 hsame, hqfree] at hd
              cases hd
            refine ⟨(h.setMem m₂).setHead () u.start, ?_, ?_, hedits⟩
            · simp only [Heapmgrbase.freelistPushFront, hspan, freeHead_setMem, heq, hq0, bind,
                Except.bind, pure, Except.pure, if_false, setMem_mem, setMem_setMem, setMem_lo,
                setMem_hi, hlt, hm₂', hadj, hne]
            · rw [(merged_between _ hmpre hmsuf hlast fun c hc => by
                rw [List.head?_cons, Option.some.injEq] at hc
                exact hc ▸ hd).merge_eq]
              exact hrep
        | true =>
            -- The block behind is the old head, and the two are merged.
            rw [frees_cons_of_free hd, List.cons.injEq] at hfs
            obtain ⟨rfl, -⟩ := hfs
            obtain ⟨m₃, hok, hblocks, hnext, hsame, hw₃⟩ :=
              coalesceTwo_spec (h := h.setMem m₂) debug hlink rfl hd
            have hok' : Heapmgrbase.coalesceTwo debug (h.setMem m₂) u.start d.start
                = .ok (h.setMem m₃, u.start) := hok
            refine ⟨(h.setMem m₃).setHead () u.start, ?_, ?_, ?_⟩
            · simp only [Heapmgrbase.freelistPushFront, hspan, freeHead_setMem, heq, hq0, bind,
                Except.bind, pure, Except.pure, if_false, setMem_mem, setMem_setMem, setMem_lo,
                setMem_hi, hlt, hm₂', hadj, if_true, hok']
            · have hmerged : Merged (pre ++ { u with free := true }.join d :: suf) :=
                merged_between _ hmpre hmsuf.tail hlast (hmsuf.head_used hd)
              rw [← merge_join rfl hd, hmerged.merge_eq]
              refine ⟨hblocks, ?_⟩
              rw [freeHead_setHead]
              refine hchain'.join rfl hd hnext fun c hc => hsame c ?_
              rcases List.mem_append.mp hc with hc | hc
              · exact List.mem_append_left _ (mem_frees.mp hc).1
              · exact List.mem_append_right _ (mem_frees.mp hc).1
            · exact (edits_setMem (hw.trans hw₃)).trans (edits_setHead _ _ _)

/-- The merge with the block behind in `freelist_insert_after`. It is done when the next node is
also the next block. -/
theorem Rep.mergeUpper (r : Rep h (pre ++ p :: suf)) (debug : Bool) (hp : p.free = true)
    (hpre : Merged pre) (hsuf : Merged suf) (hlast : ∀ d, pre.getLast? = some d → d.free = false) :
    ∃ h', ((chunkGetAdjacent debug h.mem p.start h.lo h.hi).bind fun n =>
        if n ≠ 0 ∧ chunkGetStatus h.mem n = chunkFree then Heapmgrbase.coalesceTwo debug h p.start n
        else .ok (h, p.start)) = .ok (h', p.start) ∧
      Rep h' (merge (pre ++ p :: suf)) ∧ Edits (unitAt p.start) h h' := by
  have hmem : p ∈ pre ++ p :: suf := List.mem_append_right _ List.mem_cons_self
  have hadj := r.blocks.chunkGetAdjacent_eq hmem debug
  cases suf with
  | nil =>
      have hend : p.stop = h.hi := (tiled_split.mp r.blocks.laid.tiled).2.2
      rw [if_pos (by omega)] at hadj
      refine ⟨h, ?_, ?_, Edits.refl _ h⟩
      · rw [hadj]
        rfl
      · rw [(merged_between p hpre hsuf hlast fun d hd => by cases hd).merge_eq]
        exact r
  | cons n suf =>
      have hnmem : n ∈ pre ++ p :: n :: suf :=
        List.mem_append_right _ (List.mem_cons_of_mem _ List.mem_cons_self)
      have hstart : n.start = p.stop := (tiled_split.mp r.blocks.laid.tiled).2.2.1
      have hnbounds := r.blocks.bounds hnmem
      rw [if_neg (by omega), ← hstart] at hadj
      rw [hadj]
      cases hn : n.free with
      | false =>
          refine ⟨h, ?_, ?_, Edits.refl _ h⟩
          · have hstatus : chunkGetStatus h.mem n.start ≠ chunkFree := by
              rw [r.blocks.status n hnmem, hn]
              decide
            exact if_neg fun hboth => hstatus hboth.2
          · rw [(merged_between p hpre hsuf hlast fun d hd => by
              rw [List.head?_cons, Option.some.injEq] at hd
              exact hd ▸ hn).merge_eq]
            exact r
      | true =>
          obtain ⟨h', hok, hrep, hedits⟩ := r.coalesceTwo debug hp hn
          have hstatus : chunkGetStatus h.mem n.start = chunkFree := by
            rw [r.blocks.status n hnmem, hn]
            rfl
          refine ⟨h', ?_, ?_, hedits⟩
          · exact (if_pos ⟨by omega, hstatus⟩).trans hok
          · have hmerged : Merged (pre ++ p.join n :: suf) :=
              merged_between _ hpre hsuf.tail hlast (hsuf.head_used hn)
            rw [← merge_join hp hn, hmerged.merge_eq]
            exact hrep

/-- The three writes that put a block behind the last free one in front of it. -/
theorem Rep.linkBehind (r : Rep h (pre ++ u :: suf)) (hu : u.free = false)
    (hpre : frees pre = fs ++ [e]) :
    Rep (h.setMem (chunkSetStatus (chunkSetNextFree (chunkSetNextFree h.mem u.start
        (chunkGetNextFree h.mem e.start)) e.start u.start) u.start chunkFree))
      (pre ++ { u with free := true } :: suf) ∧
    Within (fun x => unitAt e.start x ∨ unitAt u.start x) h.mem
      (chunkSetStatus (chunkSetNextFree (chunkSetNextFree h.mem u.start
        (chunkGetNextFree h.mem e.start)) e.start u.start) u.start chunkFree) := by
  have humem : u ∈ pre ++ u :: suf := List.mem_append_right _ List.mem_cons_self
  obtain ⟨hepre, -⟩ := mem_frees.mp (hpre ▸ List.mem_append_right fs List.mem_cons_self)
  have hemem : e ∈ pre ++ u :: suf := List.mem_append_left _ hepre
  have hubounds := r.blocks.bounds humem
  have hebefore := r.blocks.laid.tiled.before hepre
  have hebounds := r.blocks.bounds hemem
  have hlink := (r.blocks.setNext (v := chunkGetNextFree h.mem e.start) humem).setNext
    (v := u.start) hemem
  have happ := r.blocks.laid.apart hemem humem
  have hne : u.start ≠ e.start := by omega
  refine ⟨⟨hlink.setStatus true, ?_⟩, ?_⟩
  · rw [freeHead_setMem, setMem_mem]
    refine r.chain.insert hu hpre (by omega) ?_ ?_ fun d hd => ?_
    · exact (next_setStatus (r.blocks.laid.apart humem hemem)).trans
        (headers.next_setNext _ _ (by omega))
    · refine (next_setStatus (Or.inl rfl)).trans
        ((HeaderLayout.next_setNext_apart happ hne).trans ?_)
      exact headers.next_setNext _ _ (headers_next_lt _ _)
    · -- The other nodes are in front of `e` or behind the block.
      have hdmem : d ∈ pre ++ u :: suf ∧ d.start ≠ e.start ∧ d.start ≠ u.start := by
        rcases List.mem_append.mp hd with hd | hd
        · have hdpre := mem_frees.mp (hpre ▸ List.mem_append_left [e] hd)
          have hdmem := List.mem_append_left (u :: suf) hdpre.1
          have hdbefore := r.blocks.laid.tiled.before hdpre.1
          have hdbounds := r.blocks.bounds hdmem
          have hsorted : (fs ++ [e]).Pairwise fun a b => a.stop ≤ b.start := by
            rw [← hpre]
            exact (tiled_split.mp r.blocks.laid.tiled).1.pairwise.sublist List.filter_sublist
          have hle := (List.pairwise_append.mp hsorted).2.2 d hd e List.mem_cons_self
          exact ⟨hdmem, by omega, by omega⟩
        · have hdsuf := (mem_frees.mp hd).1
          have hbehind := r.blocks.laid.tiled.behind hdsuf
          exact ⟨List.mem_append_right _ (List.mem_cons_of_mem _ hdsuf), by omega, by omega⟩
      obtain ⟨hdmem, hde, hdu⟩ := hdmem
      refine (next_setStatus (r.blocks.laid.apart humem hdmem)).trans
        ((HeaderLayout.next_setNext_apart (r.blocks.laid.apart hemem hdmem) hde).trans ?_)
      exact HeaderLayout.next_setNext_apart (r.blocks.laid.apart humem hdmem) hdu
  · refine ((chunkSetNextFree_within _ _ _).mono ?_).trans
      (((chunkSetNextFree_within _ _ _).mono ?_).trans ((chunkSetStatus_within _ _ _).mono ?_))
    · exact fun x hx => Or.inr hx
    · exact fun x hx => Or.inl hx
    · exact fun x hx => Or.inr hx

/-- `freelist_insert_after` on a block behind the last free one in front of it. It is linked, or
joined with the node in front, and then joined with the one behind. -/
theorem Rep.freelistInsertAfter (r : Rep h (pre ++ u :: suf)) (debug : Bool)
    (hm : Merged (pre ++ u :: suf)) (hu : u.free = false) (hpre : frees pre = fs ++ [e]) :
    ∃ h', freelistInsertAfter debug h e.start u.start
        = .ok (h', if e.stop = u.start then e.start else u.start) ∧
      Rep h' (merge (pre ++ { u with free := true } :: suf)) ∧
      Edits (fun x => unitAt e.start x ∨ unitAt u.start x) h h' := by
  have humem : u ∈ pre ++ u :: suf := List.mem_append_right _ List.mem_cons_self
  obtain ⟨hepre, hefree⟩ := mem_frees.mp (hpre ▸ List.mem_append_right fs List.mem_cons_self)
  have hemem : e ∈ pre ++ u :: suf := List.mem_append_left _ hepre
  have hubounds := r.blocks.bounds humem
  have hebefore := r.blocks.laid.tiled.before hepre
  have hebounds := r.blocks.bounds hemem
  have hmpre : Merged pre := (merged_split.mp hm).1
  have hmsuf : Merged suf := (merged_split.mp hm).2.1
  -- The assertions hold.
  have hlt : check debug (decide (e.start < u.start)) = .ok () :=
    check_of (decide_eq_true (by omega))
  have hestatus : check debug (decide (chunkGetStatus h.mem e.start = chunkFree)) = .ok () :=
    check_of (decide_eq_true (by rw [r.blocks.status e hemem, hefree]; rfl))
  have hustatus : check debug (decide (chunkGetStatus h.mem u.start ≠ chunkFree)) = .ok () :=
    check_of (decide_eq_true (by rw [r.blocks.status u humem, hu]; decide))
  obtain ⟨r₃, hw⟩ := r.linkBehind hu hpre
  generalize hm₃ : chunkSetStatus (chunkSetNextFree (chunkSetNextFree h.mem u.start
    (chunkGetNextFree h.mem e.start)) e.start u.start) u.start chunkFree = m₃ at r₃ hw
  have hadj : chunkGetAdjacent debug m₃ e.start h.lo h.hi = .ok e.stop := by
    have hadj := r₃.blocks.chunkGetAdjacent_eq (List.mem_append_left _ hepre) debug
    rwa [setMem_mem, setMem_lo, setMem_hi, if_neg (by omega)] at hadj
  rcases last_free_cases r.blocks.laid.tiled hpre with ⟨xs, rfl, heq⟩ | ⟨hne, hlast⟩
  -- The block in front is the free one, and the two are merged.
  · rw [List.append_assoc, List.singleton_append] at r₃
    obtain ⟨h₄, hok, r₄, he₄⟩ := r₃.coalesceTwo debug hefree rfl
    have hmxs : Merged xs := (List.isChain_append.mp hmpre).1
    have hjfree : (e.join { u with free := true }).free = true := hefree
    obtain ⟨h₅, hok', r₅, he₅⟩ := r₄.mergeUpper debug hjfree hmxs hmsuf
      (hmpre.last_used hefree)
    refine ⟨h₅, ?_, ?_, ?_⟩
    · have hok₅ : ((chunkGetAdjacent debug h₄.mem e.start h₄.lo h₄.hi).bind fun n =>
          if n ≠ 0 ∧ chunkGetStatus h₄.mem n = chunkFree then
            Heapmgrbase.coalesceTwo debug h₄ e.start n
          else .ok (h₄, e.start)) = .ok (h₅, e.start) := hok'
      have hok₄ : Heapmgrbase.coalesceTwo debug (h.setMem m₃) e.start u.start
          = .ok (h₄, e.start) := hok
      rw [if_pos heq, ← hok₅]
      simp only [Heapmgrbase.freelistInsertAfter, hlt, hestatus, hustatus, hm₃, hadj, heq, bind,
        Except.bind, pure, Except.pure, setMem_mem, setMem_lo, setMem_hi, if_true, hok₄]
    · rw [merge_join hefree rfl] at r₅
      rw [List.append_assoc, List.singleton_append]
      exact r₅
    · exact (edits_setMem hw).trans ((he₄.trans he₅).mono fun x hx => Or.inl hx)
  -- A block in use is between the two.
  · obtain ⟨h₄, hok, r₄, he₄⟩ := r₃.mergeUpper debug rfl hmpre hmsuf hlast
    refine ⟨h₄, ?_, r₄, (edits_setMem hw).trans (he₄.mono fun x hx => Or.inr hx)⟩
    have hok₄ : ((chunkGetAdjacent debug m₃ u.start h.lo h.hi).bind fun n =>
        if n ≠ 0 ∧ chunkGetStatus m₃ n = chunkFree then
          Heapmgrbase.coalesceTwo debug (h.setMem m₃) u.start n
        else .ok (h.setMem m₃, u.start)) = .ok (h₄, u.start) := hok
    rw [if_neg hne, ← hok₄]
    simp only [Heapmgrbase.freelistInsertAfter, hlt, hestatus, hustatus, hm₃, hadj, hne, bind,
      Except.bind, pure, Except.pure, setMem_mem, setMem_lo, setMem_hi, if_false]
    rfl

end

end SysProg.Memory.Heapmgrbase
