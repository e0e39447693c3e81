import SysProg.Proofs.Memory.KrBlocks

/-!
# `SysProg.Proofs.Memory.KrFree`: giving a block back to `heapmgrkr.c`

* `Rep.findSlot`: the walk of `heapmgr_free` around the ring ends at the last node in front of the
  block, wherever it starts.
* `Rep.heapmgrFree`: the block is free then, and merged with its free neighbours.
-/

set_option autoImplicit false

namespace SysProg.Memory.Heapmgrkr

open SysProg.Lib

/-! ### The walk to the place of the block -/

section
variable {m : Mem} {bp p base : Nat}

/-- The walk over nodes up to the place. The addresses rise up to the last node in front of the
block, and the walk stops there. -/
theorem findSlot_front (hp : p < bp) (hbase : base ≤ p) :
    ∀ (zs : List Nat) {x fuel : Nat}, Seg (headers.ring m) x zs base → zs.Pairwise (· < ·) →
      p ∈ zs → (∀ y ∈ zs, p < y → bp < y) → zs.length ≤ fuel → findSlot m bp fuel x = .ok p := by
  intro zs
  induction zs with
  | nil =>
      intro x fuel _ _ hmem
      cases hmem
  | cons z zs ih =>
      intro x fuel hseg hsorted hmem habove hfuel
      obtain ⟨rfl, q, hq, hrest⟩ := hseg
      have hq' : getPtr m x = q := Option.some.inj hq
      rw [List.pairwise_cons] at hsorted
      rw [List.length_cons] at hfuel
      cases fuel with
      | zero => omega
      | succ fuel =>
          rw [findSlot, hq']
          by_cases hx : x = p
          · -- The place is behind this node, or the node is the last one.
            subst hx
            cases zs with
            | nil =>
                have hend : q = base := hrest
                show (if x < bp ∧ bp < q then _ else if q ≤ x ∧ (x < bp ∨ bp < q) then _ else _) = _
                rw [if_neg (by omega), if_pos ⟨by omega, Or.inl hp⟩]
            | cons y zs =>
                have hy := hsorted.1 y List.mem_cons_self
                have hstart : q = y := hrest.1
                have hlt := habove y (List.mem_cons_of_mem _ List.mem_cons_self) hy
                exact if_pos ⟨hp, by omega⟩
          · have hmem' : p ∈ zs := (List.mem_cons.mp hmem).resolve_left fun heq => hx heq.symm
            cases zs with
            | nil => cases hmem'
            | cons y zs =>
                have hstart : q = y := hrest.1
                have hxy := hsorted.1 y List.mem_cons_self
                have hyp : y ≤ p := by
                  rcases List.mem_cons.mp hmem' with rfl | hmem'
                  · exact Nat.le_refl _
                  · exact Nat.le_of_lt ((List.pairwise_cons.mp hsorted.2).1 p hmem')
                show (if x < bp ∧ bp < q then _ else if q ≤ x ∧ (x < bp ∨ bp < q) then _ else _) = _
                rw [if_neg (by omega), if_neg (by omega)]
                exact ih hrest hsorted.2 hmem'
                  (fun d hd => habove d (List.mem_cons_of_mem _ hd)) (by omega)

/-- The walk over nodes behind the place. It comes to the start of the ring. -/
theorem findSlot_back (hbase : base < bp) :
    ∀ (zs : List Nat) {x : Nat} (fuel : Nat), Seg (headers.ring m) x zs base →
      zs.Pairwise (· < ·) → (∀ y ∈ zs, bp < y) →
      findSlot m bp (zs.length + fuel) x = findSlot m bp fuel base := by
  intro zs
  induction zs with
  | nil =>
      intro x fuel hseg _ _
      rw [show x = base from hseg, List.length_nil, Nat.zero_add]
  | cons z zs ih =>
      intro x fuel hseg hsorted habove
      obtain ⟨rfl, q, hq, hrest⟩ := hseg
      have hq' : getPtr m x = q := Option.some.inj hq
      have hx := habove x List.mem_cons_self
      rw [List.pairwise_cons] at hsorted
      have hnot : ¬ (q ≤ x ∧ (x < bp ∨ bp < q)) := by
        cases zs with
        | nil =>
            have hend : q = base := hrest
            omega
        | cons y zs =>
            have hstart : q = y := hrest.1
            have hxy := hsorted.1 y List.mem_cons_self
            omega
      rw [List.length_cons, Nat.add_right_comm, findSlot, hq']
      show (if x < bp ∧ bp < q then _ else if q ≤ x ∧ (x < bp ∨ bp < q) then _ else _) = _
      rw [if_neg (by omega), if_neg hnot]
      exact ih fuel hrest hsorted.2 fun y hy => habove y (List.mem_cons_of_mem _ hy)

end

section
variable {h : State} {p q u e : Piece} {ps pre suf : List Piece} {x : Nat}

/-- The walk ends at the last node in front of the block, wherever it starts. -/
theorem Rep.findSlot (r : Rep h (pre ++ u :: suf)) (hu : u.free = false)
    (hx : x ∈ ringNodes h.base (pre ++ u :: suf)) :
    findSlot h.mem u.start (2 ^ 64) x = .ok (lastStart h.base (frees pre)) := by
  obtain ⟨hmem, hlt, hbase, hbehind⟩ := r.place
  have habove : ∀ y ∈ ringNodes h.base (pre ++ u :: suf), lastStart h.base (frees pre) < y →
      u.start < y := fun y hy hlt =>
    Nat.lt_of_le_of_ne (hbehind y hy hlt)
      (r.node_apart hy (List.mem_append_right _ List.mem_cons_self) hu).2.symm
  clear hbehind
  have hring := r.ring
  have hsorted := r.sorted
  have hlen := r.length_le
  have hbrk := r.lt
  unfold FreeCycle at hring
  have hmem' : lastStart h.base (frees pre) ∈ ringNodes h.base (pre ++ u :: suf) := by
    rw [ringNodes_append_cons_of_used hu]
    exact List.mem_append_left _ hmem
  generalize ringNodes h.base (pre ++ u :: suf) = zs at *
  have hwhole : ∀ {fuel : Nat}, zs.length ≤ fuel →
      Heapmgrkr.findSlot h.mem u.start fuel h.base = .ok (lastStart h.base (frees pre)) :=
    fun hfuel => findSlot_front hlt hbase zs hring hsorted hmem' habove hfuel
  obtain ⟨as, bs, rfl⟩ := List.append_of_mem hx
  obtain ⟨y, -, hsuffix⟩ := seg_append.mp hring
  have hstart : y = x := hsuffix.1
  rw [hstart] at hsuffix
  rw [List.pairwise_append] at hsorted
  rw [List.length_append] at hlen hwhole
  by_cases hle : x ≤ lastStart h.base (frees pre)
  · refine findSlot_front hlt hbase (x :: bs) hsuffix hsorted.2.1 ?_
      (fun d hd => habove d (List.mem_append_right _ hd)) (by omega)
    rcases List.mem_append.mp hmem' with has | hbs
    · have hxlt := hsorted.2.2 _ has x List.mem_cons_self
      omega
    · exact hbs
  · -- The walk comes to `base` first.
    have hall : ∀ d ∈ x :: bs, u.start < d := by
      intro d hd
      refine habove d (List.mem_append_right _ hd) ?_
      rcases List.mem_cons.mp hd with rfl | hd
      · omega
      · have hxd := (List.pairwise_cons.mp hsorted.2.1).1 d hd
        omega
    obtain ⟨k, hk⟩ : ∃ k, 2 ^ 64 = (x :: bs).length + k :=
      ⟨2 ^ 64 - (x :: bs).length, by omega⟩
    rw [hk, findSlot_back (by omega) (x :: bs) k hsuffix hsorted.2.1 hall]
    exact hwhole (by omega)

/-! ### The two joins -/

/-- A block is freed, and the block behind it is joined to it when that is free. The ring goes on
behind the two. -/
structure Upper (h : State) (pre : List Piece) (u : Piece) (suf : List Piece) (m : Mem)
    (u' : Piece) (suf' : List Piece) : Prop where
  start : u'.start = u.start
  free : u'.free = true
  merged : Merged suf'
  head : ∀ d, suf'.head? = some d → d.free = false
  merge_eq : merge (pre ++ { u with free := true } :: suf) = merge (pre ++ u' :: suf')
  laid : Laid headers m h.bottom (pre ++ u' :: suf') h.brk
  rest : Seg (headers.ring m) (getPtr m u.start) ((frees suf').map Piece.start) h.base
  within : Within (unitAt u.start) h.mem m

/-- The join to the block above. When that one is free, the block takes its units and its link, and
otherwise only the link is set. -/
theorem Rep.joinUpper (r : Rep h (pre ++ u :: suf)) (hm : Merged (pre ++ u :: suf))
    (hu : u.free = false) :
    ∃ u' suf', Upper h pre u suf (joinUpper h.mem (lastStart h.base (frees pre)) u.start) u'
      suf' := by
  have hmem : u ∈ pre ++ u :: suf := List.mem_append_right _ List.mem_cons_self
  have hubounds := r.bounds hmem
  have hmsuf : Merged suf := (merged_split.mp hm).2.1
  have hring := r.ring
  unfold FreeCycle at hring
  rw [ringNodes_append_cons_of_used hu] at hring
  have hbehind : Seg (headers.ring h.mem) (getPtr h.mem (lastStart h.base (frees pre)))
      ((frees suf).map Piece.start) h.base := FreeCycle.behind hring
  -- Only the header of the block is written, so the links behind stay.
  have hrest : ∀ {m' : Mem} {qs : List Piece} {y : Nat}, Within (unitAt u.start) h.mem m' →
      (∀ q ∈ qs, q ∈ pre ++ u :: suf) →
      Seg (headers.ring h.mem) y ((frees qs).map Piece.start) h.base →
      Seg (headers.ring m') y ((frees qs).map Piece.start) h.base := by
    intro m' qs y hw hqs hseg
    refine hseg.congr fun x hx => congrArg some ?_
    obtain ⟨q, hq, rfl⟩ := List.mem_map.mp hx
    obtain ⟨hqmem, hqfree⟩ := mem_frees.mp hq
    have hnode : q.start ∈ ringNodes h.base (pre ++ u :: suf) :=
      mem_ringNodes.mpr (Or.inr ⟨q, hqs q hqmem, hqfree, rfl⟩)
    obtain ⟨happ, hne⟩ := r.node_apart hnode hmem hu
    exact headers.next_congr (HeaderLayout.congr_of_ne happ hne hw)
  have hsufmem : ∀ q ∈ suf, q ∈ pre ++ u :: suf := fun q hq =>
    List.mem_append_right _ (List.mem_cons_of_mem _ hq)
  -- The block behind is not free.
  have hnone : u.stop ≠ getPtr h.mem (lastStart h.base (frees pre)) →
      (∀ d, suf.head? = some d → d.free = false) →
      Upper h pre u suf (Heapmgrkr.joinUpper h.mem (lastStart h.base (frees pre)) u.start)
        { u with free := true } suf := by
    intro hne hhead
    have hjoin : Heapmgrkr.joinUpper h.mem (lastStart h.base (frees pre)) u.start
        = setPtr h.mem u.start (getPtr h.mem (lastStart h.base (frees pre))) := by
      unfold Heapmgrkr.joinUpper
      rw [r.headerAdd_size hmem]
      exact if_neg hne
    rw [hjoin]
    have hw := setPtr_within h.mem u.start (getPtr h.mem (lastStart h.base (frees pre)))
    refine
      { start := rfl, free := rfl, merged := hmsuf, head := hhead, merge_eq := rfl
        laid := (r.laid.setNext fun q hq => r.laid.apart hmem hq).setFree true
        rest := ?_
        within := hw }
    have hread : getPtr (setPtr h.mem u.start (getPtr h.mem (lastStart h.base (frees pre)))) u.start
        = getPtr h.mem (lastStart h.base (frees pre)) :=
      headers.next_setNext _ _ (getPtr_lt _ _)
    rw [hread]
    exact hrest hw hsufmem hbehind
  cases suf with
  | nil =>
      have hend : getPtr h.mem (lastStart h.base (frees pre)) = h.base := hbehind
      exact ⟨_, _, hnone (by omega) fun d hd => (by cases hd)⟩
  | cons d suf =>
      have hstart : d.start = u.stop := (tiled_split.mp r.laid.tiled).2.2.1
      have hdmem := hsufmem d List.mem_cons_self
      cases hd : d.free with
      | false =>
          refine ⟨_, _, hnone ?_ fun c hc => ?_⟩
          · -- The next node is `base` or behind the block `d`.
            rw [frees_cons_of_used hd] at hbehind
            cases hfs : frees suf with
            | nil =>
                rw [hfs] at hbehind
                have hend : getPtr h.mem (lastStart h.base (frees pre)) = h.base := hbehind
                omega
            | cons e rest =>
                rw [hfs] at hbehind
                have hnext : getPtr h.mem (lastStart h.base (frees pre)) = e.start := hbehind.1
                have he := (mem_frees.mp (hfs ▸ List.mem_cons_self)).1
                have hle := (tiled_split.mp r.laid.tiled).2.2.2.2
                have hbefore := (hle.mem_bounds he).1
                have hdbounds := r.bounds hdmem
                omega
          · rw [List.head?_cons, Option.some.injEq] at hc
            exact hc ▸ hd
      | true =>
          -- The block behind is the next node.
          rw [frees_cons_of_free hd, List.map_cons] at hbehind
          obtain ⟨hnext, y, hy, hseg⟩ := hbehind
          have hy' : getPtr h.mem d.start = y := Option.some.inj hy
          have hsum : getSize h.mem u.start + getSize h.mem d.start ≤ 4294967295 := by
            have husize := r.size_eq hmem
            have hdsize := r.size_eq hdmem
            have hdbounds := r.bounds hdmem
            have hsmall := r.small
            unfold Piece.stop at hstart hdbounds
            omega
          have hsame : getPtr (setSize h.mem u.start
              (getSize h.mem u.start + getSize h.mem d.start)) d.start = y :=
            (HeaderLayout.next_setSpan_apart (r.laid.apart hmem hdmem)).trans hy'
          have hjoin : Heapmgrkr.joinUpper h.mem (lastStart h.base (frees pre)) u.start
              = setPtr (setSize h.mem u.start (getSize h.mem u.start + getSize h.mem d.start))
                u.start y := by
            unfold Heapmgrkr.joinUpper
            simp only [r.headerAdd_size hmem, hnext, u32_eq hsum, hsame, if_pos hstart.symm]
          have hw : Within (unitAt u.start) h.mem (setPtr (setSize h.mem u.start
              (getSize h.mem u.start + getSize h.mem d.start)) u.start y) :=
            (setSize_within _ _ _).trans (setPtr_within _ _ _)
          have hjoined := r.laid.join hsum
          have hlaid : Laid headers (setPtr (setSize h.mem u.start
              (getSize h.mem u.start + getSize h.mem d.start)) u.start y) h.bottom
              (pre ++ u.join d :: suf) h.brk :=
            hjoined.setNext fun q hq =>
              hjoined.apart (p := u.join d) (List.mem_append_right _ List.mem_cons_self) hq
          have hread : getPtr (setPtr (setSize h.mem u.start
              (getSize h.mem u.start + getSize h.mem d.start)) u.start y) u.start = y :=
            headers.next_setNext _ _ (hy' ▸ getPtr_lt _ _)
          rw [hjoin]
          refine ⟨{ u with free := true }.join d, suf, ?_⟩
          exact
            { start := rfl
              free := rfl
              merged := hmsuf.tail
              head := hmsuf.head_used hd
              merge_eq := (merge_join rfl hd).symm
              laid := hlaid.setFree true
              rest := by
                rw [hread]
                exact hrest hw (fun q hq => hsufmem q (List.mem_cons_of_mem _ hq)) hseg
              within := hw }

section
variable {m m' : Mem} {u' : Piece} {suf' : List Piece}

/-- A write to the header of the node in front leaves the ring behind the block alone. -/
theorem Upper.rest_congr (up : Upper h pre u suf m u' suf') (hbelow : h.base + 16 ≤ h.bottom)
    (hp : lastStart h.base (frees pre) ∈ ringNodes h.base pre)
    (hlt : lastStart h.base (frees pre) < u.start)
    (hw : Within (unitAt (lastStart h.base (frees pre))) m m') :
    Seg (headers.ring m') (getPtr m u.start) ((frees suf').map Piece.start) h.base := by
  have hnode : lastStart h.base (frees pre) ∈ ringNodes h.base (pre ++ u' :: suf') := by
    rw [ringNodes_append_cons_of_free up.free]
    exact List.mem_append_left _ hp
  refine up.rest.congr fun x hx => congrArg some ?_
  obtain ⟨q, hq, rfl⟩ := List.mem_map.mp hx
  have hqsuf := (mem_frees.mp hq).1
  have hbehind := up.laid.tiled.behind hqsuf
  have hstart := up.start
  have hstop : u'.start ≤ u'.stop := Nat.le_add_right _ _
  have happ := up.laid.node_apart hbelow hnode
    (List.mem_append_right pre (List.mem_cons_of_mem u' hqsuf))
  exact headers.next_congr (HeaderLayout.congr_of_ne happ (by omega) hw)

/-- The links in front of the block are those from before, but for the last one. -/
theorem Rep.front_congr (r : Rep h (pre ++ u :: suf)) (hu : u.free = false)
    (up : Upper h pre u suf m u' suf')
    (hw : Within (unitAt (lastStart h.base (frees pre))) m m') {x : Nat}
    (hx : x ∈ ringNodes h.base pre) (hne : x ≠ lastStart h.base (frees pre)) :
    headers.next m' x = headers.next h.mem x := by
  have hmem : u ∈ pre ++ u :: suf := List.mem_append_right _ List.mem_cons_self
  have hnode : ∀ y ∈ ringNodes h.base pre, y ∈ ringNodes h.base (pre ++ u :: suf) := by
    intro y hy
    rw [ringNodes_append_cons_of_used hu]
    exact List.mem_append_left _ hy
  obtain ⟨happ, hxu⟩ := r.node_apart (hnode x hx) hmem hu
  have hfirst : headers.next m x = headers.next h.mem x :=
    headers.next_congr (HeaderLayout.congr_of_ne happ hxu up.within)
  have happ' := r.laid.nodes_apart r.below (hnode _ r.place.1) (hnode x hx)
  exact (headers.next_congr (HeaderLayout.congr_of_ne happ' hne hw)).trans hfirst

/-- The header `base` keeps its size when only the header of the block is written. -/
theorem Rep.baseSize (r : Rep h (pre ++ u :: suf)) (hu : u.free = false)
    (hw : Within (unitAt u.start) h.mem m) : getSize m h.base = 0 := by
  have hmem : u ∈ pre ++ u :: suf := List.mem_append_right _ List.mem_cons_self
  obtain ⟨happ, hne⟩ := r.node_apart (mem_ringNodes.mpr (Or.inl rfl)) hmem hu
  exact (headers.span_congr (HeaderLayout.congr_of_ne happ hne hw)).trans r.size

/-- The block below is not free, and the last node in front is linked to the block. -/
theorem Upper.link (r : Rep h (pre ++ u :: suf)) (hm : Merged (pre ++ u :: suf))
    (hu : u.free = false) (up : Upper h pre u suf m u' suf')
    (hlast : ∀ d, pre.getLast? = some d → d.free = false) :
    Rep { h with
        mem := setPtr m (lastStart h.base (frees pre)) u.start
        freep := lastStart h.base (frees pre) }
      (merge (pre ++ { u with free := true } :: suf)) ∧
    lastStart h.base (frees pre)
      ∈ ringNodes h.base (merge (pre ++ { u with free := true } :: suf)) := by
  obtain ⟨hp, hlt, hple, -⟩ := r.place
  have hubounds := r.bounds (List.mem_append_right pre List.mem_cons_self)
  have hmerged : Merged (pre ++ u' :: suf') :=
    merged_between _ (merged_split.mp hm).1 up.merged hlast up.head
  have hw := setPtr_within m (lastStart h.base (frees pre)) u.start
  have hnode : lastStart h.base (frees pre) ∈ ringNodes h.base (pre ++ u' :: suf') := by
    rw [ringNodes_append_cons_of_free up.free]
    exact List.mem_append_left _ hp
  have hring := r.ring
  unfold FreeCycle at hring
  rw [ringNodes_append_cons_of_used hu] at hring
  have hnodup := r.nodup
  rw [ringNodes_append_cons_of_used hu] at hnodup
  rw [up.merge_eq, hmerged.merge_eq]
  refine ⟨?_, hnode⟩
  refine
    { laid := up.laid.setNext fun q hq => up.laid.node_apart r.below hnode hq
      ring := ?_
      size := ?_
      pos := r.pos
      below := r.below
      small := r.small
      lt := r.lt }
  · unfold FreeCycle
    rw [ringNodes_append_cons_of_free up.free, up.start]
    have hnext : getPtr (setPtr m (lastStart h.base (frees pre)) u.start)
        (lastStart h.base (frees pre)) = u.start := headers.next_setNext _ _ (by omega)
    refine FreeCycle.relink hring (fun x hx hne => r.front_congr hu up hw hx hne)
      (List.nodup_append.mp hnodup).1 ⟨hnext, _, rfl, ?_⟩
    have happ := up.laid.node_apart r.below hnode
      (List.mem_append_right pre (List.mem_cons_self (l := suf')))
    rw [up.start] at happ
    have hsame : headers.next (setPtr m (lastStart h.base (frees pre)) u.start) u.start
        = getPtr m u.start := HeaderLayout.next_setNext_apart happ (by omega)
    rw [hsame]
    exact up.rest_congr r.below hp hlt hw
  · have hbase := r.baseSize hu up.within
    have happ := up.laid.nodes_apart r.below hnode (mem_ringNodes.mpr (Or.inl rfl))
    exact (HeaderLayout.span_setNext_apart happ).trans hbase

/-- The block below is free, and the block is joined to it. The one below takes the units and the
link of the block. -/
theorem Upper.join (r : Rep h (pre ++ u :: suf)) (hm : Merged (pre ++ u :: suf))
    (hu : u.free = false) (up : Upper h pre u suf m u' suf') {xs : List Piece}
    (hpre : pre = xs ++ [e]) (he : e.free = true) :
    Rep { h with
        mem := setPtr (setSize m e.start (getSize m e.start + getSize m u.start)) e.start
          (getPtr m u.start)
        freep := e.start }
      (merge (pre ++ { u with free := true } :: suf)) ∧
    e.start ∈ ringNodes h.base (merge (pre ++ { u with free := true } :: suf)) ∧
    getSize m e.start + getSize m u.start ≤ 4294967295 := by
  obtain ⟨hp, hlt, -, -⟩ := r.place
  have hlast : lastStart h.base (frees pre) = e.start := by
    rw [hpre, frees_append, frees_cons_of_free he, frees_nil, lastStart_concat]
  have hwithin : Within (unitAt (lastStart h.base (frees pre))) m (setPtr (setSize m e.start
      (getSize m e.start + getSize m u.start)) e.start (getPtr m u.start)) := by
    rw [hlast]
    exact (setSize_within _ _ _).trans (setPtr_within _ _ _)
  have hfront := fun x hx hne => @Rep.front_congr _ _ _ _ _ _ _ _ r hu up hwithin x hx hne
  have hrest := up.rest_congr r.below hp hlt hwithin
  have hbase := r.baseSize hu up.within
  have hnodup := r.nodup
  have hring := r.ring
  unfold FreeCycle at hring
  rw [ringNodes_append_cons_of_used hu] at hring hnodup
  rw [hlast] at hfront
  have hlaid := up.laid
  have hmpre := (merged_split.mp hm).1
  have hebounds := r.bounds (p := e) (by
    rw [hpre]
    exact List.mem_append_left _ (List.mem_append_right _ List.mem_cons_self))
  rw [up.merge_eq]
  subst hpre
  rw [List.append_assoc, List.singleton_append] at hlaid ⊢
  have hemem : e ∈ xs ++ e :: u' :: suf' := List.mem_append_right _ List.mem_cons_self
  have humem : u' ∈ xs ++ e :: u' :: suf' :=
    List.mem_append_right _ (List.mem_cons_of_mem _ List.mem_cons_self)
  have hsum : getSize m e.start + getSize m u.start ≤ 4294967295 := by
    have hesize : 16 * getSize m e.start = e.len := hlaid.span e hemem
    have husize : 16 * getSize m u'.start = u'.len := hlaid.span u' humem
    have hstart := (tiled_split.mp hlaid.tiled).2.2.1
    have habove := (hlaid.tiled.mem_bounds humem).2.2
    have hsmall := r.small
    rw [up.start] at husize
    unfold Piece.stop at hstart habove
    omega
  have hmerged : Merged (xs ++ e.join u' :: suf') :=
    merged_between _ (List.isChain_append.mp hmpre).1 up.merged (hmpre.last_used he) up.head
  have hspans : headers.span m e.start + headers.span m u'.start ≤ headers.maxSpan := by
    rw [up.start]
    exact hsum
  have hjoined := hlaid.join hspans
  rw [up.start] at hjoined
  rw [← merge_join he up.free, hmerged.merge_eq]
  refine ⟨?_, mem_ringNodes.mpr (Or.inr ⟨e.join u', List.mem_append_right _ List.mem_cons_self, he,
    rfl⟩), hsum⟩
  refine
    { laid := hjoined.setNext fun q hq =>
        hjoined.apart (p := e.join u') (List.mem_append_right _ List.mem_cons_self) hq
      ring := ?_
      size := ?_
      pos := r.pos
      below := r.below
      small := r.small
      lt := r.lt }
  · unfold FreeCycle
    have hnodes : ringNodes h.base (xs ++ e.join u' :: suf')
        = ringNodes h.base (xs ++ [e]) ++ (frees suf').map Piece.start := by
      rw [ringNodes_append_cons_of_free (show (e.join u').free = true from he),
        ringNodes_append_cons_of_free he, List.append_assoc]
      rfl
    rw [hnodes]
    refine FreeCycle.relink hring (fun x hx hne => hfront x hx (hlast ▸ hne))
      (List.nodup_append.mp hnodup).1 ?_
    rw [hlast]
    have hnext : headers.next (setPtr (setSize m e.start
        (getSize m e.start + getSize m u.start)) e.start (getPtr m u.start)) e.start
        = getPtr m u.start := headers.next_setNext _ _ (getPtr_lt _ _)
    rw [hnext]
    exact hrest
  · have happ : headers.Apart e.start h.base := Or.inr (Or.inr (by rw [headers_width]; omega))
    exact (HeaderLayout.span_setNext_apart happ).trans
      ((HeaderLayout.span_setSpan_apart happ (by omega)).trans hbase)

end

/-- The join to the block below, when it ends where the block starts. -/
theorem joinLower_of_eq {m : Mem} {c d : Nat} (hadd : headerAdd c (getSize m c) = d)
    (hsum : getSize m c + getSize m d ≤ 4294967295) (happ : headers.Apart c d) :
    joinLower m c d = setPtr (setSize m c (getSize m c + getSize m d)) c (getPtr m d) := by
  unfold joinLower
  simp only [if_pos hadd, u32_eq hsum, getPtr_setSize happ]

/-- `heapmgr_free` on a block in use. The rover is the last node in front of the block. -/
theorem Rep.heapmgrFree (r : Rep h (pre ++ u :: suf)) (hm : Merged (pre ++ u :: suf))
    (hu : u.free = false) (hfreep : h.freep ∈ ringNodes h.base (pre ++ u :: suf)) :
    ∃ h', heapmgrFree h (u.start + 16) = .ok h' ∧
      Rep h' (merge (pre ++ { u with free := true } :: suf)) ∧
      h'.freep = lastStart h.base (frees pre) ∧
      h'.freep ∈ ringNodes h.base (merge (pre ++ { u with free := true } :: suf)) ∧
      Edits (fun x => unitAt (lastStart h.base (frees pre)) x ∨ unitAt u.start x) h h' := by
  obtain ⟨hp, hlt, hple, -⟩ := r.place
  have hmem : u ∈ pre ++ u :: suf := List.mem_append_right _ List.mem_cons_self
  have hubounds := r.bounds hmem
  have hheader : headerAdd (u.start + 16) (-1) = u.start := by
    refine ptrAdd_eq ?_ (by omega)
    unfold chunkUnit
    omega
  have hslot := r.findSlot hu hfreep
  have hok : Heapmgrkr.heapmgrFree h (u.start + 16) = .ok { h with
      mem := joinLower (Heapmgrkr.joinUpper h.mem (lastStart h.base (frees pre)) u.start)
        (lastStart h.base (frees pre)) u.start
      freep := lastStart h.base (frees pre) } := by
    unfold Heapmgrkr.heapmgrFree
    simp only [hheader, hslot, Except.map]
  obtain ⟨u', suf', up⟩ := r.joinUpper hm hu
  generalize Heapmgrkr.joinUpper h.mem (lastStart h.base (frees pre)) u.start = m at hok up
  -- The size of the node in front has not been written.
  have hsize : getSize m (lastStart h.base (frees pre))
      = getSize h.mem (lastStart h.base (frees pre)) := by
    have hnode : lastStart h.base (frees pre) ∈ ringNodes h.base (pre ++ u :: suf) := by
      rw [ringNodes_append_cons_of_used hu]
      exact List.mem_append_left _ hp
    obtain ⟨happ, hne⟩ := r.node_apart hnode hmem hu
    exact headers.span_congr (HeaderLayout.congr_of_ne happ hne up.within)
  have hedits : ∀ {m' : Mem}, Within (unitAt (lastStart h.base (frees pre))) m m' →
      Edits (fun x => unitAt (lastStart h.base (frees pre)) x ∨ unitAt u.start x) h
        { h with mem := m', freep := lastStart h.base (frees pre) } := fun hw =>
    ⟨rfl, rfl, rfl, rfl, (up.within.mono fun x hx => Or.inr hx).trans
      (hw.mono fun x hx => Or.inl hx)⟩
  -- The block below is not free.
  have hlink : headerAdd (lastStart h.base (frees pre))
      (getSize h.mem (lastStart h.base (frees pre))) ≠ u.start →
      (∀ d, pre.getLast? = some d → d.free = false) →
      ∃ h', Heapmgrkr.heapmgrFree h (u.start + 16) = .ok h' ∧
        Rep h' (merge (pre ++ { u with free := true } :: suf)) ∧
        h'.freep = lastStart h.base (frees pre) ∧
        h'.freep ∈ ringNodes h.base (merge (pre ++ { u with free := true } :: suf)) ∧
        Edits (fun x => unitAt (lastStart h.base (frees pre)) x ∨ unitAt u.start x) h h' := by
    intro hne hlast
    have hjoin : joinLower m (lastStart h.base (frees pre)) u.start
        = setPtr m (lastStart h.base (frees pre)) u.start := by
      unfold joinLower
      rw [hsize]
      exact if_neg hne
    rw [hjoin] at hok
    obtain ⟨hrep, hnode⟩ := up.link r hm hu hlast
    exact ⟨_, hok, hrep, rfl, hnode, hedits (setPtr_within _ _ _)⟩
  rcases lastStart_cases h.base (frees pre) with ⟨hnil, hzero⟩ | ⟨fs, e, hfrees, he⟩
  · refine hlink ?_ fun d hd => frees_eq_nil.mp hnil d (List.mem_of_getLast? hd)
    rw [hzero, r.size]
    rw [hzero] at hlt
    have hbase : headerAdd h.base ((0 : Nat) : Int) = h.base := by
      refine ptrAdd_eq ?_ (by omega)
      omega
    rw [hbase]
    omega
  · obtain ⟨hemem, hefree⟩ := mem_frees.mp (hfrees ▸ List.mem_append_right fs List.mem_cons_self)
    have hadd := r.headerAdd_size (List.mem_append_left (u :: suf) hemem)
    rw [he] at hlink hsize hok hedits ⊢
    rcases last_free_cases r.laid.tiled hfrees with ⟨xs, hpre, hstop⟩ | ⟨hstop, hlast⟩
    · obtain ⟨hrep, hnode, hsum⟩ := up.join r hm hu hpre hefree
      have happ : headers.Apart e.start u.start :=
        r.laid.apart (List.mem_append_left (u :: suf) hemem) hmem
      rw [joinLower_of_eq (by rw [hsize, hadd, hstop]) hsum happ] at hok
      exact ⟨_, hok, hrep, rfl, hnode,
        hedits ((setSize_within _ _ _).trans (setPtr_within _ _ _))⟩
    · rw [hadd] at hlink
      exact hlink hstop hlast

end

end SysProg.Memory.Heapmgrkr
