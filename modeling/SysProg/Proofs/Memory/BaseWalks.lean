import SysProg.Proofs.Memory.BaseTake

/-!
# `SysProg.Proofs.Memory.BaseWalks`: the loops that read the heap

* `Rep.scan` is the scan of `heapmgr_malloc`: it finds the first free block that fits, with the
  two nodes in front of it.
* `Rep.insertionPoint` is the search of `heapmgr_free`.
* `Rep.checkHeapValidity` says that the checker of a debug build accepts a heap whose free blocks
  are merged.

Each loop ends because the blocks do not overlap, so there are fewer than `2 ^ 64` of them.
-/

set_option autoImplicit false

namespace SysProg.Memory.Heapmgrbase

open SysProg.Lib

section
variable {h : Heap Unit} {m : Mem} {lo hi cur need : Nat} {p u : Piece}
  {ps pre suf ds rs : List Piece}

/-- A heap has few blocks. -/
theorem Blocks.length_le (hb : Blocks m lo ps hi) : 16 * ps.length + lo ≤ hi :=
  hb.laid.length_le

/-- There are fewer free blocks than addresses, so a walk over the list ends within its fuel. -/
theorem Blocks.length_frees_lt (hb : Blocks m lo ps hi) : (frees ps).length < 2 ^ 64 := by
  have hle := hb.length_le
  have hlt := hb.lt
  have hsub : (frees ps).length ≤ ps.length := List.length_filter_le _ _
  omega

/-- A block fits when its payload has the units. -/
theorem Blocks.le_payloadUnits (hb : Blocks m lo ps hi) (hp : p ∈ ps) (need : Nat) :
    need ≤ payloadUnits m p.start ↔ 16 * (1 + need) ≤ p.len := by
  obtain ⟨hspan, hpos, hmax⟩ := hb.span_eq hp
  unfold intMax at hmax
  have hexact : payloadUnits m p.start = (chunkGetSpanUnits m p.start - 1).toNat := by
    unfold payloadUnits
    omega
  rw [hexact]
  omega

/-- The test of the search, in bytes: the block is longer than the request with its header. -/
theorem Blocks.payloadUnits_lt (hb : Blocks m lo ps hi) (hp : p ∈ ps) (need : Nat) :
    need < payloadUnits m p.start ↔ 16 * (1 + need) < p.len := by
  have hle := hb.le_payloadUnits hp (need + 1)
  obtain ⟨hspan, -, -⟩ := hb.span_eq hp
  omega

/-! ### The scan of `heapmgr_malloc` -/

/-- The scan over the nodes `rs`, behind the nodes `ds`. The induction is on `rs`, and none of `ds`
fits. -/
theorem scan_seg (hb : Blocks m lo ps hi) :
    ∀ (rs ds : List Piece) {cur : Nat} (fuel : Nat), (∀ q ∈ rs, q ∈ ps) →
      Seg (headers.link 0 m) cur (rs.map Piece.start) 0 → rs.length < fuel →
      (∃ xs p ys, rs = xs ++ p :: ys ∧ (∀ q ∈ xs, q.len < 16 * (1 + need)) ∧
        16 * (1 + need) ≤ p.len ∧
        scan m need fuel (lastStart 0 ds.dropLast) (lastStart 0 ds) cur
          = .ok (lastStart 0 (ds ++ xs).dropLast, lastStart 0 (ds ++ xs), p.start)) ∨
      (∀ q ∈ rs, q.len < 16 * (1 + need)) ∧
        scan m need fuel (lastStart 0 ds.dropLast) (lastStart 0 ds) cur
          = .ok (lastStart 0 (ds ++ rs).dropLast, lastStart 0 (ds ++ rs), 0) := by
  intro rs
  induction rs with
  | nil =>
      intro ds cur fuel _ hseg hfuel
      cases fuel with
      | zero => cases hfuel
      | succ fuel =>
          refine Or.inr ⟨fun q hq => (by cases hq), ?_⟩
          rw [scan, if_pos (show cur = 0 from hseg), List.append_nil]
  | cons p rs ih =>
      intro ds cur fuel hmem hseg hfuel
      cases fuel with
      | zero => cases hfuel
      | succ fuel =>
          have hp := hmem p List.mem_cons_self
          have hpos := (hb.bounds hp).1
          obtain ⟨rfl, next, hnext, hrest⟩ := hseg
          rw [HeaderLayout.link_of_ne (by omega), Option.some.injEq] at hnext
          rw [scan, if_neg (by omega)]
          by_cases hfit : need ≤ payloadUnits m p.start
          · refine Or.inl ⟨[], p, rs, rfl, fun q hq => (by cases hq),
              (hb.le_payloadUnits hp need).mp hfit, ?_⟩
            rw [if_pos hfit, List.append_nil]
          · -- The node is behind `ds` for the rest of the scan.
            have hsmall : p.len < 16 * (1 + need) := by
              rw [hb.le_payloadUnits hp] at hfit
              omega
            rw [if_neg hfit]
            have hscan := ih (ds ++ [p]) fuel
              (fun q hq => hmem q (List.mem_cons_of_mem _ hq)) hrest
              (by rw [List.length_cons] at hfuel; omega)
            rw [List.dropLast_concat, lastStart_concat, ← hnext] at hscan
            rcases hscan with ⟨xs, q, ys, rfl, hxs, hq, hok⟩ | ⟨hall, hok⟩
            · refine Or.inl ⟨p :: xs, q, ys, rfl, fun d hd => ?_, hq, ?_⟩
              · rcases List.mem_cons.mp hd with rfl | hd
                · exact hsmall
                · exact hxs d hd
              · rwa [List.append_assoc, List.singleton_append] at hok
            · refine Or.inr ⟨fun d hd => ?_, ?_⟩
              · rcases List.mem_cons.mp hd with rfl | hd
                · exact hsmall
                · exact hall d hd
              · rwa [List.append_assoc, List.singleton_append] at hok

/-! ### The search of `heapmgr_free` -/

/-- The search over the nodes `rs`, behind the nodes `ds`. It stops in front of the nodes behind
the block. -/
theorem insertionPoint_seg (hb : Blocks m lo ps hi) {c : Nat} {ys : List Piece}
    (hys : ∀ q ∈ ys, c < q.start) :
    ∀ (rs ds : List Piece) {cur : Nat} (fuel : Nat), (∀ q ∈ rs ++ ys, q ∈ ps) →
      (∀ q ∈ rs, q.start ≤ c) → Seg (headers.link 0 m) cur ((rs ++ ys).map Piece.start) 0 →
        rs.length < fuel →
      insertionPoint m c fuel (lastStart 0 ds) cur = .ok (lastStart 0 (ds ++ rs)) := by
  intro rs
  induction rs with
  | nil =>
      intro ds cur fuel hmem _ hseg hfuel
      cases fuel with
      | zero => cases hfuel
      | succ fuel =>
          rw [List.append_nil, insertionPoint]
          split
          · rfl
          · rename_i hne
            -- The next node is behind the block.
            cases ys with
            | nil => exact absurd (show cur = 0 from hseg) hne
            | cons q ys =>
                have hstart : cur = q.start := hseg.1
                rw [hstart, if_pos (hys q List.mem_cons_self)]
  | cons p rs ih =>
      intro ds cur fuel hmem hrs hseg hfuel
      cases fuel with
      | zero => cases hfuel
      | succ fuel =>
          have hp := hmem p (List.mem_cons_self (l := rs ++ ys))
          have hpos := (hb.bounds hp).1
          have hple := hrs p List.mem_cons_self
          obtain ⟨rfl, next, hnext, hrest⟩ := hseg
          rw [HeaderLayout.link_of_ne (by omega), Option.some.injEq] at hnext
          rw [insertionPoint, if_neg (by omega), if_neg (by omega)]
          have hsearch := ih (ds ++ [p]) fuel
            (fun q hq => hmem q (List.mem_cons_of_mem _ hq))
            (fun q hq => hrs q (List.mem_cons_of_mem _ hq)) hrest
            (by rw [List.length_cons] at hfuel; omega)
          rw [lastStart_concat, ← hnext, List.append_assoc, List.singleton_append] at hsearch
          exact hsearch

/-- The search finds the last free block in front of a block in use, or that there is none. -/
theorem Rep.insertionPoint (r : Rep h (pre ++ u :: suf)) (hu : u.free = false) :
    insertionPoint h.mem u.start (2 ^ 64) 0 (freeHead h) = .ok (lastStart 0 (frees pre)) := by
  have hchain := r.chain
  have hfrees : frees (pre ++ u :: suf) = frees pre ++ frees suf := by
    rw [frees_append, frees_cons_of_used hu]
  rw [FreeChain, hfrees] at hchain
  have hubounds := r.blocks.bounds (List.mem_append_right pre List.mem_cons_self)
  have hlen := r.blocks.length_frees_lt
  rw [hfrees, List.length_append] at hlen
  refine insertionPoint_seg r.blocks (fun q hq => ?_) (frees pre) [] (2 ^ 64) (fun q hq => ?_)
    (fun q hq => ?_) hchain (by omega)
  · have hle := r.blocks.laid.tiled.behind (mem_frees.mp hq).1
    omega
  · rcases List.mem_append.mp hq with hq | hq
    · exact List.mem_append_left _ (mem_frees.mp hq).1
    · exact List.mem_append_right _ (List.mem_cons_of_mem _ (mem_frees.mp hq).1)
  · have hq' := (mem_frees.mp hq).1
    have hle := r.blocks.laid.tiled.before hq'
    have hqbounds := r.blocks.bounds (List.mem_append_left (u :: suf) hq')
    omega

/-! ### `check_heap_validity` -/

/-- `chunk_is_valid` on a block. -/
theorem Blocks.chunkIsValid_eq (hb : Blocks m lo ps hi) (hp : p ∈ ps) :
    chunkIsValid m p.start lo hi = .ok true := by
  have hbounds := hb.bounds hp
  obtain ⟨-, hspan, -⟩ := hb.span_eq hp
  have hpos := hb.pos
  unfold chunkIsValid
  rw [check_of (decide_eq_true (by omega)), check_of (decide_eq_true (by omega)),
    check_of (decide_eq_true (by omega)), decide_eq_true hbounds.2.1,
    decide_eq_true (by omega), decide_eq_true (by omega)]
  rfl

/-- The walk over the blocks `suf`. The induction is on them, and each passes the test of its
header. -/
theorem checkBlocks_suffix (hb : Blocks h.mem h.lo ps h.hi) :
    ∀ {suf : List Piece} {w fuel : Nat}, (∀ q ∈ suf, q ∈ ps) →
      (suf = [] ∧ w = 0 ∨ suf ≠ [] ∧ Tiled w suf h.hi) → suf.length < fuel →
      checkBlocks h fuel w = .ok true := by
  intro suf
  induction suf with
  | nil =>
      intro w fuel _ hw hfuel
      cases fuel with
      | zero => cases hfuel
      | succ fuel =>
          rcases hw with ⟨-, rfl⟩ | ⟨hne, -⟩
          · exact if_neg fun hboth => hboth.1 rfl
          · exact absurd rfl hne
  | cons p suf ih =>
      intro w fuel hmem hw hfuel
      cases fuel with
      | zero => cases hfuel
      | succ fuel =>
          rcases hw with ⟨hnil, -⟩ | ⟨-, ht⟩
          · cases hnil
          · have hp := hmem p List.mem_cons_self
            have hbounds := hb.bounds hp
            obtain ⟨rfl, -, hrest⟩ := ht
            rw [checkBlocks, if_pos ⟨by omega, by omega⟩, hb.chunkIsValid_eq hp,
              hb.chunkGetAdjacent_eq hp]
            refine ih (fun q hq => hmem q (List.mem_cons_of_mem _ hq)) ?_
              (by rw [List.length_cons] at hfuel; omega)
            -- The last block has none behind it.
            cases suf with
            | nil =>
                have hend : p.stop = h.hi := hrest
                exact Or.inl ⟨rfl, if_pos (by omega)⟩
            | cons q suf =>
                have hlt := (hrest.mem_bounds List.mem_cons_self).2
                have hstart := hrest.1
                rw [if_neg (by omega)]
                exact Or.inr ⟨List.cons_ne_nil _ _, hrest⟩

/-- The walk over the free blocks of `suf`. Each of them is marked as free, and its neighbour is not
free, as the free blocks are merged. -/
theorem checkFrees_suffix (hb : Blocks h.mem h.lo ps h.hi) :
    ∀ {suf : List Piece} {a w fuel : Nat}, (∀ q ∈ suf, q ∈ ps) → Tiled a suf h.hi → Merged suf →
      Seg (headers.link 0 h.mem) w ((frees suf).map Piece.start) 0 → suf.length < fuel →
      checkFrees h fuel w = .ok true := by
  intro suf
  induction suf with
  | nil =>
      intro a w fuel _ _ _ hseg hfuel
      cases fuel with
      | zero => cases hfuel
      | succ fuel => exact if_pos (show w = 0 from hseg)
  | cons p suf ih =>
      intro a w fuel hmem ht hm hseg hfuel
      have hp := hmem p List.mem_cons_self
      have hbounds := hb.bounds hp
      obtain ⟨-, -, hrest⟩ := ht
      rw [List.length_cons] at hfuel
      cases hfree : p.free with
      | false =>
          rw [frees_cons_of_used hfree] at hseg
          exact ih (fun q hq => hmem q (List.mem_cons_of_mem _ hq)) hrest hm.tail hseg (by omega)
      | true =>
          cases fuel with
          | zero => cases hfuel
          | succ fuel =>
              rw [frees_cons_of_free hfree, List.map_cons] at hseg
              obtain ⟨rfl, next, hnext, hseg⟩ := hseg
              rw [HeaderLayout.link_of_ne (by omega), Option.some.injEq] at hnext
              have hnext' : chunkGetNextFree h.mem p.start = next := hnext
              have hstatus : chunkGetStatus h.mem p.start = chunkFree := by
                rw [hb.status p hp, hfree]
                rfl
              rw [checkFrees, if_neg (by omega), if_neg (by rw [hstatus]; exact fun hne => hne rfl),
                hb.chunkIsValid_eq hp, hb.chunkGetAdjacent_eq hp, hnext']
              -- The next free block is not the next block.
              have hnot : ¬ ((if h.hi ≤ p.stop then 0 else p.stop) ≠ 0 ∧
                  (if h.hi ≤ p.stop then 0 else p.stop) = next) := by
                intro ⟨hne, heq⟩
                split at hne
                · exact hne rfl
                · rename_i hlt
                  rw [if_neg hlt] at heq
                  cases suf with
                  | nil =>
                      have hend : p.stop = h.hi := hrest
                      omega
                  | cons q suf =>
                      have hq := hm.head_used hfree q rfl
                      have hqlen := (hrest.mem_bounds List.mem_cons_self).2.1
                      have hqstart := hrest.1
                      rw [frees_cons_of_used hq] at hseg
                      cases hfs : frees suf with
                      | nil =>
                          rw [hfs] at hseg
                          have hzero : next = 0 := hseg
                          omega
                      | cons d fs =>
                          rw [hfs] at hseg
                          have hd := (mem_frees.mp (hfs ▸ List.mem_cons_self)).1
                          have hle := (hrest.2.2.mem_bounds hd).1
                          have hstart : next = d.start := hseg.1
                          omega
              show (if _ then _ else _) = _
              rw [if_neg hnot]
              exact ih (fun q hq => hmem q (List.mem_cons_of_mem _ hq)) hrest hm.tail hseg
                (by omega)

/-- The checker accepts a heap whose free blocks are merged. So the assertions of a debug build hold
between two calls. -/
theorem Rep.checkHeapValidity (r : Rep h ps) (hm : Merged ps) :
    checkHeapValidity h = .ok true := by
  have hpos := r.blocks.pos
  have hle := r.blocks.laid.tiled.le
  have hlen := r.blocks.length_le
  have hlt := r.blocks.lt
  rw [Heapmgrbase.checkHeapValidity, if_neg (by omega), if_neg (by omega)]
  split
  · -- The heap has no block, and the list is empty.
    rename_i heq
    have hchain := r.chain
    cases ps with
    | nil => rw [decide_eq_true (show freeHead h = 0 from hchain)]
    | cons p ps =>
        rw [List.length_cons] at hlen
        omega
  · rename_i hne
    have hps : ps ≠ [] := by
      rintro rfl
      exact hne r.blocks.laid.tiled
    rw [checkBlocks_suffix r.blocks (fun q hq => hq) (Or.inr ⟨hps, r.blocks.laid.tiled⟩) (by omega)]
    exact checkFrees_suffix r.blocks (fun q hq => hq) r.blocks.laid.tiled hm r.chain (by omega)

/-- The assertions on the whole heap hold. -/
theorem Rep.assertValid (r : Rep h ps) (hm : Merged ps) (debug : Bool) :
    assertValid debug h = .ok () := by
  cases debug with
  | false => rfl
  | true =>
      show (Heapmgrbase.checkHeapValidity h).bind _ = _
      rw [r.checkHeapValidity hm]
      rfl

end

end SysProg.Memory.Heapmgrbase
