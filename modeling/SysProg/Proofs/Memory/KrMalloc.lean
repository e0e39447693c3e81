import SysProg.Proofs.Memory.KrFree

/-!
# `SysProg.Proofs.Memory.KrMalloc`: the search of `heapmgrkr.c`

* `Rep.take`: the end of a free block, or the whole of it, is taken.
* `Rep.mallocLoop`: the loop of `heapmgr_malloc` goes around the ring from the rover. It takes the
  first block that fits, or asks for more memory behind the last one.
-/

set_option autoImplicit false

namespace SysProg.Memory.Heapmgrkr

open SysProg.Lib

section
variable {h : State} {p q u e : Piece} {ps pre suf : List Piece} {x n : Nat}

/-! ### Taking a block -/

/-- The headers of the nodes are not in use. -/
theorem Rep.node_not_inUse (r : Rep h ps) {c : Nat} (hc : c ∈ ringNodes h.base ps)
    (hx : unitAt c x) : ¬ InUse ps x := by
  unfold unitAt at hx
  rcases mem_ringNodes.mp hc with rfl | ⟨q, hq, hfree, rfl⟩
  · have hbelow := r.below
    exact r.laid.tiled.not_inUse_of_lt (by omega)
  · have hbounds := r.bounds hq
    exact r.laid.tiled.not_inUse hq hfree hx.1 (by omega)

/-- The whole of a free block is taken. The node in front of it is linked to the one behind, and the
header keeps its size. -/
theorem Rep.unlink (r : Rep h (pre ++ p :: suf)) (hp : p.free = true) :
    Rep { h with
        mem := setPtr h.mem (lastStart h.base (frees pre)) (getPtr h.mem p.start)
        freep := lastStart h.base (frees pre) } (pre ++ { p with free := false } :: suf) ∧
      Edits (fun x => ¬ InUse (pre ++ p :: suf) x) h { h with
        mem := setPtr h.mem (lastStart h.base (frees pre)) (getPtr h.mem p.start)
        freep := lastStart h.base (frees pre) } := by
  obtain ⟨hmem, hlt, hle, -⟩ := r.place
  have hring := r.ring
  have hnodup := r.nodup
  have hbelow := r.below
  unfold FreeCycle at hring
  have hnode : lastStart h.base (frees pre) ∈ ringNodes h.base (pre ++ p :: suf) := by
    rw [ringNodes_append_cons_of_free hp]
    exact List.mem_append_left _ hmem
  have hw := setPtr_within h.mem (lastStart h.base (frees pre)) (getPtr h.mem p.start)
  rw [ringNodes_append_cons_of_free hp] at hring hnodup
  obtain ⟨hstart, y, hy, hrest⟩ := FreeCycle.behind hring
  have hy' : getPtr h.mem p.start = y := Option.some.inj hy
  have hapart : ∀ q ∈ pre ++ p :: suf, headers.Apart (lastStart h.base (frees pre)) q.start :=
    fun q hq => r.laid.node_apart hbelow hnode hq
  refine ⟨?_, rfl, rfl, rfl, rfl, hw.mono fun x hx => r.node_not_inUse hnode hx⟩
  refine
    { laid := (r.laid.setNext hapart).setFree false
      ring := ?_
      size := ?_
      pos := r.pos
      below := hbelow
      small := r.small
      lt := r.lt }
  · unfold FreeCycle
    rw [ringNodes_append_cons_of_used rfl]
    have hnext : headers.next (setPtr h.mem (lastStart h.base (frees pre)) (getPtr h.mem p.start))
        (lastStart h.base (frees pre)) = y :=
      (headers.next_setNext _ _ (getPtr_lt _ _)).trans hy'
    refine FreeCycle.relink hring (fun x hx hne => ?_) (List.nodup_append.mp hnodup).1 ?_
    · refine headers.next_congr (HeaderLayout.congr_of_ne ?_ hne hw)
      refine r.laid.nodes_apart hbelow hnode ?_
      rw [ringNodes_append_cons_of_free hp]
      exact List.mem_append_left _ hx
    · rw [hnext]
      refine hrest.congr fun x hx => congrArg some ?_
      obtain ⟨q, hq, rfl⟩ := List.mem_map.mp hx
      have hqsuf := (mem_frees.mp hq).1
      have hbehind := r.laid.tiled.behind hqsuf
      have hstop : p.start ≤ p.stop := Nat.le_add_right _ _
      exact headers.next_congr (HeaderLayout.congr_of_ne
        (hapart q (List.mem_append_right _ (List.mem_cons_of_mem _ hqsuf))) (by omega) hw)
  · have happ := r.laid.nodes_apart hbelow hnode (mem_ringNodes.mpr (Or.inl rfl))
    exact (HeaderLayout.span_setNext_apart happ).trans r.size

/-- The end of a free block is taken. Its beginning stays in the ring with the smaller size, and the
new block has a header of its own. -/
theorem Rep.split (r : Rep h (pre ++ p :: suf)) (hp : p.free = true) (hn : 0 < n)
    (hlt : 16 * n < p.len) (c : Nat) :
    Rep { h with
        mem := setSize (setSize h.mem p.start (getSize h.mem p.start - n)) (p.stop - 16 * n) n
        freep := c } (pre ++ ⟨p.start, p.len - 16 * n, true⟩ :: p.tail (16 * n) :: suf) ∧
      Edits (fun x => ¬ InUse (pre ++ p :: suf) x) h { h with
        mem := setSize (setSize h.mem p.start (getSize h.mem p.start - n)) (p.stop - 16 * n) n
        freep := c } := by
  have hmem : p ∈ pre ++ p :: suf := List.mem_append_right _ List.mem_cons_self
  have hsize := r.size_eq hmem
  have hmax := getSize_lt h.mem p.start
  have hbounds := r.bounds hmem
  have hstop : p.stop = p.start + p.len := rfl
  have hcut := r.laid.cut (k := n) (b := true) hn (show n < getSize h.mem p.start by omega)
    (show getSize h.mem p.start ≤ 4294967295 by omega)
  -- Both headers are inside the block, so no other node is written.
  have hinside : ∀ x ∈ ringNodes h.base (pre ++ p :: suf),
      headers.Apart (p.stop - 16 * n) x ∧ x ≠ p.stop - 16 * n := by
    intro x hx
    unfold HeaderLayout.Apart
    rw [headers_width]
    rcases mem_ringNodes.mp hx with rfl | ⟨q, hq, -, rfl⟩
    · omega
    · have hqbounds := r.bounds hq
      rcases r.laid.tiled.apart hmem hq with rfl | hle | hle
      · omega
      · omega
      · omega
  have hnode : p.start ∈ ringNodes h.base (pre ++ p :: suf) :=
    mem_ringNodes.mpr (Or.inr ⟨p, hmem, hp, rfl⟩)
  have hnext : ∀ x ∈ ringNodes h.base (pre ++ p :: suf), headers.next
      (setSize (setSize h.mem p.start (getSize h.mem p.start - n)) (p.stop - 16 * n) n) x
      = headers.next h.mem x := fun x hx =>
    (getPtr_setSize (hinside x hx).1).trans
      (getPtr_setSize (r.laid.nodes_apart r.below hnode hx))
  constructor
  · refine
      { laid := hcut
        ring := ?_
        size := ?_
        pos := r.pos
        below := r.below
        small := r.small
        lt := r.lt }
    · have hring := FreeCycle.congr r.ring hnext
      unfold FreeCycle at hring ⊢
      rw [ringNodes_append_cons_of_free hp] at hring
      rw [ringNodes_append_cons_of_free rfl, frees_cons_of_used rfl]
      exact hring
    · have hbase : h.base ∈ ringNodes h.base (pre ++ p :: suf) := mem_ringNodes.mpr (Or.inl rfl)
      have happ := r.laid.nodes_apart r.below hnode hbase
      exact (HeaderLayout.span_setSpan_apart (hinside _ hbase).1 (hinside _ hbase).2).trans
        ((HeaderLayout.span_setSpan_apart happ (by omega)).trans r.size)
  · have hfree : ∀ c, p.start ≤ c → c + 16 ≤ p.stop → ∀ x, unitAt c x →
        ¬ InUse (pre ++ p :: suf) x := by
      intro c hlo hhi x hx
      unfold unitAt at hx
      exact r.laid.tiled.not_inUse hmem hp (by omega) (by omega)
    exact ⟨rfl, rfl, rfl, rfl,
      ((setSize_within _ _ _).mono (hfree _ (Nat.le_refl _) (by omega))).trans
        ((setSize_within _ _ _).mono (hfree _ (by omega) (by omega)))⟩

/-- The end of a free block, or the whole of it, is taken. The rover is left at the node in front,
and the blocks in use keep their bytes. -/
theorem Rep.take (r : Rep h (pre ++ p :: suf)) (hp : p.free = true) (hn : 0 < n)
    (hfit : 16 * n ≤ p.len) :
    ∃ h', take h (lastStart h.base (frees pre)) p.start n = (h', p.stop - 16 * n + 16) ∧
      Rep h' (carve p.start (16 * n) (pre ++ p :: suf)) ∧
      h'.freep = lastStart h.base (frees pre) ∧
      Edits (fun x => ¬ InUse (pre ++ p :: suf) x) h h' := by
  have hmem : p ∈ pre ++ p :: suf := List.mem_append_right _ List.mem_cons_self
  have hsize := r.size_eq hmem
  have hmax := getSize_lt h.mem p.start
  have hbounds := r.bounds hmem
  have hstop : p.stop = p.start + p.len := rfl
  have hptr : headerAdd (p.stop - 16 * n) 1 = p.stop - 16 * n + 16 := by
    refine ptrAdd_eq ?_ (by omega)
    unfold chunkUnit
    omega
  rw [r.laid.tiled.carve_split hp, Piece.cut]
  unfold Heapmgrkr.take
  by_cases hexact : getSize h.mem p.start = n
  · obtain ⟨hrep, hedits⟩ := r.unlink hp
    have hsame : p.stop - 16 * n = p.start := by omega
    rw [hsame] at hptr ⊢
    refine ⟨_, ?_, ?_, rfl, hedits⟩
    · rw [if_pos hexact, hptr]
    · rw [if_pos (show p.len ≤ 16 * n by omega), List.append_assoc]
      exact hrep
  · obtain ⟨hrep, hedits⟩ := r.split hp hn (by omega) (lastStart h.base (frees pre))
    have hread : getSize (setSize h.mem p.start (getSize h.mem p.start - n)) p.start
        = getSize h.mem p.start - n := headers.span_setSpan _ _ (by rw [headers_maxSpan]; omega)
    have hadd : headerAdd p.start ((getSize h.mem p.start - n : Nat) : Int) = p.stop - 16 * n := by
      refine ptrAdd_eq ?_ (by omega)
      unfold chunkUnit
      omega
    refine ⟨_, ?_, ?_, rfl, hedits⟩
    · simp only [if_neg hexact, u32_eq (show getSize h.mem p.start - n ≤ 4294967295 by omega),
        hread, hadd, hptr]
    · rw [if_neg (show ¬ p.len ≤ 16 * n by omega), List.append_assoc]
      exact hrep

/-! ### The search -/

/-- The loop over nodes in front of the rover. It ends at the first one that fits, with the node
in front of it, or comes to the node `c` behind them. -/
theorem mallocLoop_seg (granted : Bool) {nodes : List Nat} {c : Nat} :
    ∀ (vs : List Nat) {prev : Nat} (fuel : Nat), prev ∈ nodes → (∀ v ∈ vs, v ∈ nodes) →
      h.freep ∉ vs → Seg (headers.ring h.mem) (getPtr h.mem prev) vs c →
      (∃ xs v ys before, vs = xs ++ v :: ys ∧ (∀ w ∈ xs, getSize h.mem w < n) ∧
        n ≤ getSize h.mem v ∧ before ∈ nodes ∧ getPtr h.mem before = v ∧
        mallocLoop granted n (vs.length + fuel) h prev = .ok (take h before v n)) ∨
      (∀ w ∈ vs, getSize h.mem w < n) ∧ ∃ before ∈ nodes, getPtr h.mem before = c ∧
        mallocLoop granted n (vs.length + fuel) h prev = mallocLoop granted n fuel h before := by
  intro vs
  induction vs with
  | nil =>
      intro prev fuel hprev _ _ hseg
      refine Or.inr ⟨fun w hw => (by cases hw), prev, hprev, hseg, ?_⟩
      rw [List.length_nil, Nat.zero_add]
  | cons v vs ih =>
      intro prev fuel hprev hnodes hfreep hseg
      obtain ⟨hv, y, hy, hrest⟩ := hseg
      have hy' : getPtr h.mem v = y := Option.some.inj hy
      have hne : v ≠ h.freep := fun heq => hfreep (heq ▸ List.mem_cons_self)
      rw [List.length_cons, Nat.add_right_comm, mallocLoop]
      simp only [hv]
      by_cases hfit : n ≤ getSize h.mem v
      · refine Or.inl ⟨[], v, vs, prev, rfl, fun w hw => (by cases hw), hfit, hprev, hv, ?_⟩
        rw [if_pos hfit]
      · rw [if_neg hfit, if_neg hne]
        have hloop := ih fuel (hnodes v List.mem_cons_self)
          (fun w hw => hnodes w (List.mem_cons_of_mem _ hw))
          (fun hmem => hfreep (List.mem_cons_of_mem _ hmem)) (hy'.symm ▸ hrest)
        rcases hloop with ⟨xs, w, ys, before, rfl, hxs, hw, hbefore, hnext, hok⟩ |
          ⟨hall, before, hbefore, hnext, hok⟩
        · refine Or.inl ⟨v :: xs, w, ys, before, rfl, fun d hd => ?_, hw, hbefore, hnext, hok⟩
          rcases List.mem_cons.mp hd with rfl | hd
          · omega
          · exact hxs d hd
        · refine Or.inr ⟨fun d hd => ?_, before, hbefore, hnext, hok⟩
          rcases List.mem_cons.mp hd with rfl | hd
          · omega
          · exact hall d hd

/-- The node that links to a free block is the last one in front of it. -/
theorem Rep.before_eq (r : Rep h (pre ++ p :: suf))
    (hx : x ∈ ringNodes h.base (pre ++ p :: suf)) (hnext : getPtr h.mem x = p.start) :
    x = lastStart h.base (frees pre) := by
  obtain ⟨hmem, hlt, hle, hbehind⟩ := r.place
  have hpbounds := r.bounds (List.mem_append_right pre List.mem_cons_self)
  have hsorted := r.sorted
  have hring := r.ring
  unfold FreeCycle at hring
  have hmem' : lastStart h.base (frees pre) ∈ ringNodes h.base (pre ++ p :: suf) := by
    rw [ringNodes, frees_append, List.map_append]
    exact List.mem_append_left ((frees (p :: suf)).map Piece.start) hmem
  obtain ⟨as, bs, heq⟩ := List.append_of_mem hx
  rw [heq] at hring hsorted hmem'
  obtain ⟨y, hy, hrest⟩ := hring.behind
  have hy' : getPtr h.mem x = y := Option.some.inj hy
  rw [← hy', hnext] at hrest
  cases bs with
  | nil =>
      have hend : p.start = h.base := hrest
      omega
  | cons b bs =>
      have hb : p.start = b := hrest.1
      have htail := (List.pairwise_append.mp hsorted).2.1
      have hxb := (List.pairwise_cons.mp htail).1 b List.mem_cons_self
      have hxle : ¬ lastStart h.base (frees pre) < x := by
        intro hlt'
        have hple := hbehind x hx hlt'
        omega
      -- Every node behind `x` is behind the block or the block itself.
      rcases List.mem_append.mp hmem' with has | hbs
      · have hltx := (List.pairwise_append.mp hsorted).2.2 _ has x List.mem_cons_self
        omega
      · rcases List.mem_cons.mp hbs with hsame | hbs
        · exact hsame.symm
        · rcases List.mem_cons.mp hbs with hsame | hbs
          · omega
          · have hgt := (List.pairwise_cons.mp (List.pairwise_cons.mp htail).2).1 _ hbs
            omega

/-- A free block that fits, as the sizes in the headers tell. -/
theorem Rep.fits_iff (r : Rep h ps) (hp : p ∈ ps) : 16 * n ≤ p.len ↔ n ≤ getSize h.mem p.start := by
  have hsize := r.size_eq hp
  omega

/-- The nodes behind the rover, and the rover at last, are the nodes of the ring. -/
theorem mem_around {nodes as bs : List Nat} {c : Nat} (heq : nodes = as ++ c :: bs) (v : Nat) :
    v ∈ bs ++ as ++ [c] ↔ v ∈ nodes := by
  rw [heq]
  simp only [List.mem_append, List.mem_cons, List.not_mem_nil, or_false]
  tauto

/-- The first node with room on the way around the ring from the rover is the block that `nextFit`
finds. The node in front of it is the last free block below. -/
theorem Rep.nextFit_of_first {a : Arena} (r : Rep h a.pieces) (hn : 0 < n)
    {as bs xs ys : List Nat} {v before : Nat}
    (heq : ringNodes h.base a.pieces = as ++ h.freep :: bs)
    (hsplit : bs ++ as ++ [h.freep] = xs ++ v :: ys) (hxs : ∀ w ∈ xs, getSize h.mem w < n)
    (hv : n ≤ getSize h.mem v) (hbefore : before ∈ ringNodes h.base a.pieces)
    (hnext : getPtr h.mem before = v) :
    ∃ pre p suf, a.pieces = pre ++ p :: suf ∧ p.free = true ∧ 16 * n ≤ p.len ∧
      a.nextFit h.freep (16 * n) = some p ∧
      Heapmgrkr.take h before v n = Heapmgrkr.take h (lastStart h.base (frees pre)) p.start n := by
  have hvmem : v ∈ ringNodes h.base a.pieces := by
    rw [← mem_around heq, hsplit]
    exact List.mem_append_right _ List.mem_cons_self
  rcases mem_ringNodes.mp hvmem with hbase | ⟨p, hp, hfree, rfl⟩
  · -- `base` has no room.
    rw [hbase, r.size] at hv
    omega
  · obtain ⟨pre, suf, hps⟩ := List.append_of_mem hp
    have hsorted := r.sorted
    rw [heq] at hsorted
    have horder := Arena.pairwise_earlier hsorted
    rw [hsplit] at horder
    have hfit : a.nextFit h.freep (16 * n) = some p := by
      refine Arena.nextFit_eq_some hp hfree ((r.fits_iff hp).mpr hv) fun q hq hqfree hqlen => ?_
      have hqsize := (r.fits_iff hq).mp hqlen
      have hqmem : q.start ∈ xs ++ p.start :: ys := by
        rw [← hsplit, mem_around heq]
        exact mem_ringNodes.mpr (Or.inr ⟨q, hq, hqfree, rfl⟩)
      rcases List.mem_append.mp hqmem with hqx | hqy
      · have hqlt := hxs _ hqx
        omega
      · unfold Arena.Earlier
        rcases List.mem_cons.mp hqy with hsame | hqy
        · omega
        · have hlater := (List.pairwise_cons.mp (List.pairwise_append.mp horder).2.1).1 _ hqy
          unfold Arena.Earlier at hlater
          omega
    have hlast : before = lastStart h.base (frees pre) := by
      rw [hps] at r hbefore
      exact r.before_eq hbefore hnext
    exact ⟨pre, p, suf, hps, hfree, (r.fits_iff hp).mpr hv, hfit, by rw [hlast]⟩

/-- The loop goes around the ring from the rover. It takes the block that `nextFit` finds, or asks
for more memory. -/
theorem Rep.mallocLoop {a : Arena} (r : Rep h a.pieces)
    (hfreep : h.freep ∈ ringNodes h.base a.pieces) (hn : 0 < n) (granted : Bool) {fuel : Nat}
    (hfuel : (ringNodes h.base a.pieces).length ≤ fuel) :
    (∃ pre p suf, a.pieces = pre ++ p :: suf ∧ p.free = true ∧ 16 * n ≤ p.len ∧
      a.nextFit h.freep (16 * n) = some p ∧
      mallocLoop granted n fuel h h.freep
        = .ok (Heapmgrkr.take h (lastStart h.base (frees pre)) p.start n)) ∨
    (∀ q ∈ a.pieces, q.free = true → ¬ 16 * n ≤ q.len) ∧
      mallocLoop granted n fuel h h.freep = (morecore h granted n).bind fun r =>
        if r.2 = 0 then .ok (r.1, 0)
        else mallocLoop granted n (fuel - (ringNodes h.base a.pieces).length) r.1 r.2 := by
  have hring := r.ring
  unfold FreeCycle at hring
  obtain ⟨as, bs, heq⟩ := List.append_of_mem hfreep
  rw [heq] at hring
  have hlen : (ringNodes h.base a.pieces).length = (bs ++ as).length + 1 := by
    rw [heq, List.length_append, List.length_append, List.length_cons]
    omega
  -- The way around from behind the rover.
  have haround : Seg (headers.ring h.mem) (getPtr h.mem h.freep) (bs ++ as) h.freep := by
    obtain ⟨y, has, hstart, z, hz, hbs⟩ := seg_append.mp hring
    rw [show getPtr h.mem h.freep = z from Option.some.inj hz]
    exact seg_append.mpr ⟨h.base, hbs, hstart ▸ has⟩
  have hnodup := r.nodup
  rw [heq] at hnodup
  have hnot : h.freep ∉ bs ++ as := by
    intro hmem
    rw [List.nodup_append, List.nodup_cons] at hnodup
    rcases List.mem_append.mp hmem with hmem | hmem
    · exact hnodup.2.1.1 hmem
    · exact hnodup.2.2 _ hmem _ List.mem_cons_self rfl
  obtain ⟨k, rfl⟩ : ∃ k, fuel = (bs ++ as).length + (k + 1) :=
    ⟨fuel - (bs ++ as).length - 1, by omega⟩
  have hloop := mallocLoop_seg (n := n) granted (bs ++ as) (k + 1) hfreep
    (fun v hv => (mem_around heq v).mp (List.mem_append_left _ hv)) hnot haround
  rcases hloop with ⟨xs, v, ys, before, hsplit, hxs, hv, hbefore, hnext, hok⟩ |
    ⟨hall, before, hbefore, hnext, hok⟩
  · obtain ⟨pre, p, suf, hps, hfree, hlen', hfit, htake⟩ :=
      r.nextFit_of_first hn heq
        (show bs ++ as ++ [h.freep] = xs ++ v :: (ys ++ [h.freep]) by
          rw [hsplit, List.append_assoc, List.cons_append]) hxs hv hbefore hnext
    exact Or.inl ⟨pre, p, suf, hps, hfree, hlen', hfit, by rw [hok, htake]⟩
  · rw [hok, Heapmgrkr.mallocLoop]
    simp only [hnext]
    by_cases hv : n ≤ getSize h.mem h.freep
    · obtain ⟨pre, p, suf, hps, hfree, hlen', hfit, htake⟩ :=
        r.nextFit_of_first hn heq rfl hall hv hbefore hnext
      refine Or.inl ⟨pre, p, suf, hps, hfree, hlen', hfit, ?_⟩
      rw [if_pos hv, htake]
    · refine Or.inr ⟨fun q hq hqfree hqlen => ?_, ?_⟩
      · have hqsize := (r.fits_iff hq).mp hqlen
        have hqmem := (mem_around heq q.start).mpr (mem_ringNodes.mpr (Or.inr ⟨q, hq, hqfree, rfl⟩))
        rcases List.mem_append.mp hqmem with hqmem | hqmem
        · have hqlt := hall _ hqmem
          omega
        · rw [List.mem_singleton.mp hqmem] at hqsize
          exact hv hqsize
      · have hk : (bs ++ as).length + (k + 1) - (ringNodes h.base a.pieces).length = k := by omega
        rw [if_neg hv, if_pos trivial, hk]

end

end SysProg.Memory.Heapmgrkr
