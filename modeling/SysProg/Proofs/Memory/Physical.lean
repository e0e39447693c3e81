import SysProg.Proofs.Memory.Settle

/-!
# `SysProg.Proofs.Memory.Physical`: the blocks and the physical layout

* `Rest.layout_eq`: the physical layout is the list of the blocks.
* `release_eq_coalesce`: a release frees a block and coalesces. `Rest.entry_freed` is the same on
  the layout, for any number of blocks.
* `Rest.small_release` and `Rest.small_grown`: the condition of `Client.SizesFit`, for blocks.
  `Rest.sizesFit` provides it in a heap that is small as a whole.
-/

set_option autoImplicit false

namespace SysProg.Memory

open SysProg.Lib

variable {ι : Type} {mgr : Manager ι} {h : Heap ι} {g : Mem} {bs pre suf : List Block}
  {b u : Block} {ls : ι → List Nat}

/-! ### The layout -/

/-- A block in memory. -/
def Block.entry (b : Block) : PhysBlock :=
  ⟨b.addr, b.span, if b.state = .free then chunkFree else chunkUsed⟩

/-- The status of a block in memory. -/
theorem Block.entry_free_iff (b : Block) : b.entry.status = chunkFree ↔ b.state = .free := by
  unfold Block.entry
  by_cases hfree : b.state = .free
  · simp [hfree]
  · simp only [hfree, iff_false]
    decide

/-- The walk over the blocks from any of them on. Each block leads to the next one, and the fuel is
enough for all of them. -/
theorem Rep.physFrom_eq {binOf : Int → Option ι} (r : Rep binOf h g (pre ++ suf) ls)
    (hsettled : ∀ b ∈ pre ++ suf, b.Settled) {fuel : Nat} (hfuel : suf.length < fuel) :
    physFrom h fuel ((suf.head?.map Block.addr).getD 0) = suf.map Block.entry := by
  -- The walk has passed `pre` and stands at the first block of `suf`.
  induction suf generalizing pre fuel with
  | nil =>
      cases fuel with
      | zero => omega
      | succ fuel => rfl
  | cons b suf ih =>
      cases fuel with
      | zero => omega
      | succ fuel =>
          have hb : b ∈ pre ++ b :: suf := by simp
          have hgood := r.phys.good b hb
          have hpos := hgood.fits.pos
          have hstatus : chunkGetStatus h.mem b.addr = b.entry.status := by
            unfold Block.entry
            rcases hsettled b hb with hs | hs
            · simp [hgood.free hs, hs]
            · simp [hgood.used (Or.inr hs), hs]
          have hnext := r.nextPhys
          have happend : pre ++ b :: suf = (pre ++ [b]) ++ suf := by simp
          rw [happend] at r hsettled
          rw [List.length_cons] at hfuel
          have hrest := ih r hsettled (show suf.length < fuel by omega)
          rw [List.head?_cons, Option.map_some, Option.getD_some, physFrom, if_neg (by omega),
            hgood.header, hstatus, hnext, hrest]
          rfl

/-- The layout of a heap at rest. -/
theorem Rest.layout_eq (r : Rest mgr h g bs ls) : layout h = bs.map Block.entry := by
  unfold layout
  cases bs with
  | nil =>
      rw [if_pos (show h.lo = h.hi from r.rep.phys.tiles)]
      rfl
  | cons b bs =>
      have hspan := (r.rep.phys.good b (by simp)).fits.span_ge
      have hlo : b.addr = h.lo := r.rep.phys.tiles.1
      have hrest := r.rep.phys.tiles.2.le
      unfold Block.stop at hrest
      have hwalk := Rep.physFrom_eq (show Rep mgr.binOf h g ([] ++ b :: bs) ls from r.rep)
        r.settled r.rep.length_lt
      rw [List.head?_cons, Option.map_some, Option.getD_some, hlo] at hwalk
      rw [if_neg (by omega), hwalk]

/-- A free block that fits, as a block of the list. The span may be negative. -/
theorem Rest.hasFit_int_iff (r : Rest mgr h g bs ls) (need : Int) :
    HasFit h need ↔ ∃ b ∈ bs, b.state = .free ∧ need ≤ b.span := by
  unfold HasFit
  rw [r.layout_eq]
  constructor
  · intro ⟨e, he, hfree, hspan⟩
    obtain ⟨b, hb, rfl⟩ := List.mem_map.mp he
    exact ⟨b, hb, b.entry_free_iff.mp hfree, hspan⟩
  · intro ⟨b, hb, hfree, hspan⟩
    exact ⟨b.entry, List.mem_map_of_mem hb, b.entry_free_iff.mpr hfree, hspan⟩

/-- A fit in the heap is a free block that is large enough. -/
theorem Rest.hasFit_iff (r : Rest mgr h g bs ls) (need : Nat) :
    HasFit h need ↔ ∃ b ∈ bs, b.state = .free ∧ need ≤ b.span := by
  rw [r.hasFit_int_iff]
  simp only [Int.ofNat_le]

/-! ### Joined blocks -/

/-- Two blocks as one. -/
def Block.join (b d : Block) : Block := { b with span := b.span + d.span }

/-- The blocks with their free neighbours joined. -/
def coalesceFree (bs : List Block) : List Block :=
  coalesce (fun b : Block => b.state = .free) Block.join bs

/-- Two free blocks are joined to a free one. -/
theorem joining_free : Joining (fun b : Block => b.state = .free) Block.join where
  isOpen_join _ _ hb _ := hb
  assoc b d e _ _ _ := by simp [Block.join, Nat.add_assoc]

/-- Blocks whose free ones are apart stay as they are. -/
theorem coalesceFree_eq_self (hadj : NoAdjacentFree bs) : coalesceFree bs = bs :=
  coalesce_eq_self hadj

/-- A merge with the right neighbour joins what coalescing joins. -/
theorem coalesceFree_absorbRight :
    coalesceFree (pre ++ { (absorbRight b suf).1 with state := .free } :: (absorbRight b suf).2)
      = coalesceFree (pre ++ { b with state := .free } :: suf) := by
  obtain ⟨heq, -⟩ | ⟨d, rest, rfl, hfree, heq⟩ := absorbRight_cases b suf
  · rw [heq]
  · rw [heq]
    exact joining_free.coalesce_join (a := { b with state := .free }) rfl hfree pre rest

/-- So does a merge with the left neighbour. -/
theorem coalesceFree_absorbLeft :
    coalesceFree ((absorbLeft pre b).1 ++ { (absorbLeft pre b).2 with state := .free } :: suf)
      = coalesceFree (pre ++ { b with state := .free } :: suf) := by
  obtain ⟨heq, -⟩ | ⟨init, d, rfl, hfree, heq⟩ := absorbLeft_cases pre b
  · rw [heq]
  · rw [heq, List.append_assoc]
    have hjoin := joining_free.coalesce_join (b := { b with state := .free }) hfree rfl init suf
    -- The joined block is free, as its left part is.
    have hstate : d.join { b with state := .free }
        = { d with span := d.span + b.span, state := .free } := by
      unfold Block.join
      rw [← hfree]
    rw [hstate] at hjoin
    exact hjoin

/-- The release of a block frees and coalesces. -/
theorem release_eq_coalesce (hpre : NoAdjacentFree pre) (hsuf : NoAdjacentFree suf) :
    release pre b suf = coalesceFree (pre ++ { b with state := .free } :: suf) := by
  rw [← coalesceFree_eq_self (noAdjacentFree_release (b := b) hpre hsuf)]
  unfold release
  simp only
  rw [coalesceFree_absorbLeft, coalesceFree_absorbRight]

/-- A block whose pointer is one of `ps` is freed. -/
def Block.freed (ps : List Nat) (b : Block) : Block :=
  if b.state = .live ∧ b.addr + 16 ∈ ps then { b with state := .free } else b

namespace Block

/-- Without calls of `free` nothing is freed. -/
theorem freed_nil (b : Block) : b.freed [] = b := by simp [freed]

/-- A free block stays as it is. -/
theorem freed_of_free (ps : List Nat) (hfree : b.state = .free) : b.freed ps = b := by
  simp [freed, hfree]

/-- Freeing does not change the size. -/
theorem small_freed_iff (ps : List Nat) (b : Block) : (b.freed ps).Small ↔ b.Small := by
  unfold freed
  split <;> exact Iff.rfl

/-- The pointers may be freed one after the other. -/
theorem freed_freed (p : Nat) (ps : List Nat) (b : Block) :
    (b.freed [p]).freed ps = b.freed (p :: ps) := by
  unfold freed
  by_cases hlive : b.state = .live
  · by_cases hp : b.addr + 16 = p
    · simp [hlive, hp]
    · simp [hlive, hp]
  · simp [hlive]

end Block

/-- One pointer frees the block it belongs to. -/
theorem Rest.map_freed (r : Rest mgr h g (pre ++ u :: suf) ls) (hlive : u.state = .live) :
    (pre ++ u :: suf).map (Block.freed [u.addr + 16])
      = pre ++ { u with state := .free } :: suf := by
  have hside : ∀ d, d ∈ pre ∨ d ∈ suf → d.freed [u.addr + 16] = d := by
    intro d hd
    have hne := r.rep.phys.ne_of_side hd
    unfold Block.freed
    rw [if_neg]
    rw [List.mem_singleton]
    omega
  have hself : u.freed [u.addr + 16] = { u with state := .free } := by simp [Block.freed, hlive]
  rw [List.map_append, List.map_cons, hself, List.map_congr_left fun d hd => hside d (Or.inl hd),
    List.map_congr_left fun d hd => hside d (Or.inr hd), List.map_id', List.map_id']

/-- Joining in memory. -/
theorem map_entry_coalesceFree (bs : List Block) :
    (coalesceFree bs).map Block.entry = mergeFree (bs.map Block.entry) := by
  have hjoin : ∀ b d : Block, b.state = .free → d.state = .free →
      (b.join d).entry = { b.entry with span := b.entry.span + d.entry.span } := by
    intro b d hb _
    simp [Block.entry, Block.join, hb]
  exact map_coalesce Block.entry_free_iff hjoin bs

/-- Freed blocks in memory. -/
theorem Rest.entry_freed (r : Rest mgr h g bs ls) (ps : List Nat) :
    (coalesceFree (bs.map (Block.freed ps))).map Block.entry
      = mergeFree ((bs.map Block.entry).map (markFree ps)) := by
  have hmark : ∀ b ∈ bs, (b.freed ps).entry = markFree ps b.entry := by
    intro b hb
    unfold Block.freed markFree Block.entry
    rcases r.settled b hb with hfree | hlive
    · simp [hfree, chunkFree, chunkUsed]
    · by_cases hp : b.addr + 16 ∈ ps <;> simp [hlive, hp, chunkUnit]
  rw [map_entry_coalesceFree, List.map_map, List.map_map]
  exact congrArg mergeFree (List.map_congr_left hmark)

/-! ### Sizes -/

/-- The condition on the sizes, for blocks. -/
theorem sizesFit_map_entry : SizesFit (bs.map Block.entry) ↔ ∀ b ∈ bs, b.Small := by
  unfold SizesFit Block.Small
  constructor
  · intro h b hb
    have hsize : (chunkUnit : Int) * b.span ≤ intMax := h b.entry (List.mem_map_of_mem hb)
    unfold chunkUnit intMax at hsize
    omega
  · intro h e he
    obtain ⟨b, hb, rfl⟩ := List.mem_map.mp he
    have hsmall := h b hb
    show (chunkUnit : Int) * b.span ≤ intMax
    unfold chunkUnit intMax
    omega

/-- The condition on the frees, for blocks. -/
theorem Rest.freesFit_iff (r : Rest mgr h g bs ls) (ps : List Nat) :
    FreesFit h ps ↔ ∀ b ∈ coalesceFree (bs.map (Block.freed ps)), b.Small := by
  rw [FreesFit, r.layout_eq, ← r.entry_freed, sizesFit_map_entry]

/-- The parts of a small block are small. -/
theorem small_of_coalesceFree (hsmall : ∀ c ∈ coalesceFree bs, c.Small) (hb : b ∈ bs) :
    b.Small := by
  obtain ⟨c, hc, hle⟩ : ∃ c ∈ coalesceFree bs, b.span ≤ c.span :=
    exists_mem_coalesce (fun b d => Nat.le_add_right b.span d.span)
      (fun b d => Nat.le_add_left d.span b.span) hb
  have hcsmall := hsmall c hc
  unfold Block.Small at hcsmall ⊢
  omega

/-- The blocks after a release are small. -/
theorem Rest.small_release (r : Rest mgr h g (pre ++ u :: suf) ls) (hlive : u.state = .live)
    (hfit : FreesFit h [u.addr + 16]) :
    ∀ d ∈ release pre { u with state := .used } suf, d.Small := by
  have hparts := (noAdjacentFree_middle (by rw [hlive]; decide)).mp r.adj
  rw [release_eq_coalesce hparts.1 hparts.2, ← r.map_freed hlive]
  exact (r.freesFit_iff _).mp hfit

/-- New memory as a free block behind the others. -/
theorem Rest.layout_append (r : Rest mgr h g bs ls) (span : Nat) :
    layout h ++ [(⟨h.brk, span, chunkFree⟩ : PhysBlock)]
      = (bs ++ [(⟨h.hi, span, .free⟩ : Block)]).map Block.entry := by
  rw [r.layout_eq, r.bounded.brk, List.map_append]
  rfl

/-- The new block is small, after it was merged. -/
theorem Rest.small_grown (r : Rest mgr h g bs ls) {needUnits : Nat}
    (hfit : SizesFit (mergeFree (layout h ++ [⟨h.brk, growSpan needUnits, chunkFree⟩]))) :
    (grown bs h.hi needUnits).2.Small := by
  rw [r.layout_append, ← map_entry_coalesceFree, sizesFit_map_entry] at hfit
  have hrelease := release_eq_coalesce (b := ⟨h.hi, growSpan needUnits, .raw⟩) r.adj
    List.isChain_nil
  refine hfit _ ?_
  rw [← hrelease]
  exact List.mem_append_right _ List.mem_cons_self

/-- A tiling stays one when its free blocks are joined. A joined block starts where its first part
did, and ends where its last part did. -/
theorem Tiles.coalesceFree {lo hi : Nat} (htiles : Tiles lo bs hi) :
    Tiles lo (Memory.coalesceFree bs) hi := by
  induction bs generalizing lo with
  | nil => exact htiles
  | cons b bs ih =>
      obtain ⟨haddr, hrest⟩ := htiles
      have htail := ih hrest
      unfold Memory.coalesceFree at htail ⊢
      rw [coalesce_cons]
      cases hbs : coalesce (fun b : Block => b.state = .free) Block.join bs with
      | nil =>
          rw [hbs] at htail
          exact ⟨haddr, htail⟩
      | cons d ds =>
          rw [hbs] at htail
          rw [consJoin]
          split
          -- The joined block ends where the second one does.
          · refine ⟨haddr, ?_⟩
            obtain ⟨hd, hds⟩ := htail
            have hstop : (b.join d).stop = d.stop := by
              unfold Block.stop at hd ⊢
              unfold Block.join
              simp only
              omega
            rw [hstop]
            exact hds
          · exact ⟨haddr, htail⟩

/-- Freed blocks are where they were. -/
theorem Tiles.map_freed {lo hi : Nat} (ps : List Nat) (htiles : Tiles lo bs hi) :
    Tiles lo (bs.map (Block.freed ps)) hi := by
  induction bs generalizing lo with
  | nil => exact htiles
  | cons b bs ih =>
      obtain ⟨haddr, hrest⟩ := htiles
      have htail := ih hrest
      have hsame : (b.freed ps).addr = b.addr ∧ (b.freed ps).stop = b.stop := by
        unfold Block.freed
        split <;> exact ⟨rfl, rfl⟩
      exact ⟨hsame.1.trans haddr, by rw [hsame.2]; exact htail⟩

/-- The blocks of a small heap are small. -/
theorem Tiles.small {lo hi : Nat} (htiles : Tiles lo bs hi) (hsmall : hi ≤ lo + 2147483647) :
    ∀ b ∈ bs, b.Small := by
  intro b hb
  obtain ⟨hlo, hhi⟩ := htiles.mem_bounds hb
  unfold Block.stop at hhi
  unfold Block.Small
  omega

/-- Joining freed blocks makes no block that is too large, in a small heap. -/
theorem Rest.sizesFit_freed (r : Rest mgr h g bs ls) (hsmall : h.hi ≤ h.lo + 2147483647)
    (ps : List Nat) : FreesFit h ps :=
  (r.freesFit_iff ps).mpr ((r.rep.phys.tiles.map_freed ps).coalesceFree.small hsmall)

/-- Nor does joining new memory. -/
theorem Rest.sizesFit_grown (r : Rest mgr h g bs ls) {needUnits : Nat}
    (hsmall : h.brk + 16 * growSpan needUnits ≤ h.lo + 2147483647) :
    SizesFit (mergeFree (layout h ++ [⟨h.brk, growSpan needUnits, chunkFree⟩])) := by
  have htiles : Tiles h.lo (bs ++ [⟨h.hi, growSpan needUnits, .free⟩])
      (h.hi + 16 * growSpan needUnits) :=
    tiles_append.mpr ⟨h.hi, r.rep.phys.tiles, rfl, rfl⟩
  rw [r.layout_append, ← map_entry_coalesceFree, sizesFit_map_entry]
  rw [r.bounded.brk] at hsmall
  exact htiles.coalesceFree.small hsmall

end SysProg.Memory
