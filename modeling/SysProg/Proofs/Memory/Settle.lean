import SysProg.Proofs.Memory.Grow

/-!
# `SysProg.Proofs.Memory.Settle`: the heap between two calls

`Rest` is the heap between two calls: every block is free or live, no two free blocks are next
to each other, and the ghost is the memory itself. During a call the ghost stays the memory
of its start, and `Rest.refresh` makes it the memory itself again at its end.

* `noAdjacentFree_split`, `Carved.noAdjacentFree` and `noAdjacentFree_release`: the calls keep
  free blocks apart.
* `liveBlocks`: the blocks of the client, and how the calls change them.
-/

set_option autoImplicit false

namespace SysProg.Memory

open SysProg.Lib

variable {pre mid suf bs : List Block} {b u : Block} {need : Nat}

/-! ### Free blocks apart -/

/-- The free blocks of a list are apart if and only if they are so on both sides of a block,
and that block has no free neighbour when it is free. -/
theorem noAdjacentFree_split :
    NoAdjacentFree (pre ++ b :: suf) ↔ NoAdjacentFree pre ∧ NoAdjacentFree suf ∧
      (b.state = .free → (∀ d ∈ pre.getLast?, d.state ≠ .free) ∧
        ∀ d ∈ suf.head?, d.state ≠ .free) := by
  unfold NoAdjacentFree
  rw [List.isChain_append, List.isChain_cons]
  constructor
  · intro ⟨hpre, ⟨hhead, hsuf⟩, hlast⟩
    refine ⟨hpre, hsuf, fun hfree => ⟨?_, ?_⟩⟩
    · intro d hd hdfree
      exact hlast d hd b rfl ⟨hdfree, hfree⟩
    · intro d hd hdfree
      exact hhead d hd ⟨hfree, hdfree⟩
  · intro ⟨hpre, hsuf, hsides⟩
    refine ⟨hpre, ⟨?_, hsuf⟩, ?_⟩
    · intro d hd ⟨hfree, hdfree⟩
      exact (hsides hfree).2 d hd hdfree
    · intro d hd e he ⟨hdfree, hfree⟩
      have heq : b = e := Option.some.inj he
      rw [← heq] at hfree
      exact (hsides hfree).1 d hd hdfree

/-- A block that is not free may stand anywhere. -/
theorem noAdjacentFree_middle (hb : b.state ≠ .free) :
    NoAdjacentFree (pre ++ b :: suf) ↔ NoAdjacentFree pre ∧ NoAdjacentFree suf := by
  rw [noAdjacentFree_split]
  constructor
  · intro ⟨hpre, hsuf, _⟩
    exact ⟨hpre, hsuf⟩
  · intro ⟨hpre, hsuf⟩
    exact ⟨hpre, hsuf, fun hfree => absurd hfree hb⟩

/-- A free block that is carved leaves a free part next to the new block only. -/
theorem Carved.noAdjacentFree (hcarved : Carved b need mid u) (hfree : b.state = .free)
    (hadj : NoAdjacentFree (pre ++ b :: suf)) : NoAdjacentFree (pre ++ (mid ++ suf)) := by
  obtain ⟨hpre, hsuf, hsides⟩ := noAdjacentFree_split.mp hadj
  obtain ⟨hleft, hright⟩ := hsides hfree
  have hused : BlockState.used ≠ .free := BlockState.noConfusion
  -- Only a free part can have a free neighbour, and it takes over the neighbours of `b`.
  cases hcarved with
  | whole hspan => exact (noAdjacentFree_middle hused).mpr ⟨hpre, hsuf⟩
  | back hspan =>
      have htail : NoAdjacentFree ([] ++ ⟨b.addr + 16 * (b.span - need), need, .used⟩ :: suf) :=
        (noAdjacentFree_middle hused).mpr ⟨List.isChain_nil, hsuf⟩
      refine noAdjacentFree_split.mpr ⟨hpre, htail, fun _ => ⟨hleft, ?_⟩⟩
      intro d hd
      have heq : _ = d := Option.some.inj hd
      rw [← heq]
      exact hused
  | front hspan =>
      refine (noAdjacentFree_middle hused).mpr ⟨hpre, ?_⟩
      have hnone : ∀ d ∈ ([] : List Block).getLast?, d.state ≠ .free := by
        intro d hd
        cases hd
      exact noAdjacentFree_split.mpr ⟨List.isChain_nil, hsuf, fun _ => ⟨hnone, hright⟩⟩

/-- What is on the right after a merge does not start with a free block. -/
theorem absorbRight_head (hsuf : NoAdjacentFree suf) :
    NoAdjacentFree (absorbRight b suf).2 ∧
      ∀ d ∈ (absorbRight b suf).2.head?, d.state ≠ .free := by
  obtain ⟨heq, hhead⟩ | ⟨e, rest, rfl, hfree, heq⟩ := absorbRight_cases b suf
  · rw [heq]
    exact ⟨hsuf, hhead⟩
  · -- A free neighbour is swallowed, and what comes behind it is not free.
    obtain ⟨_, htail, hsides⟩ := noAdjacentFree_split.mp
      (show NoAdjacentFree ([] ++ e :: rest) from hsuf)
    rw [heq]
    exact ⟨htail, (hsides hfree).2⟩

/-- What is on the left after a merge does not end with a free block. -/
theorem absorbLeft_last (hpre : NoAdjacentFree pre) :
    NoAdjacentFree (absorbLeft pre b).1 ∧
      ∀ d ∈ (absorbLeft pre b).1.getLast?, d.state ≠ .free := by
  obtain ⟨heq, hlast⟩ | ⟨init, e, rfl, hfree, heq⟩ := absorbLeft_cases pre b
  · rw [heq]
    exact ⟨hpre, hlast⟩
  · obtain ⟨hinit, _, hsides⟩ := noAdjacentFree_split.mp hpre
    rw [heq]
    exact ⟨hinit, (hsides hfree).1⟩

/-- A block that is released has no free neighbours in the end. -/
theorem noAdjacentFree_release (hpre : NoAdjacentFree pre) (hsuf : NoAdjacentFree suf) :
    NoAdjacentFree (release pre b suf) := by
  obtain ⟨hright, hhead⟩ := absorbRight_head (b := b) hsuf
  obtain ⟨hleft, hlast⟩ := absorbLeft_last (b := (absorbRight b suf).1) hpre
  exact noAdjacentFree_split.mpr ⟨hleft, hright, fun _ => ⟨hlast, hhead⟩⟩

/-! ### The blocks of the client -/

/-- The blocks that the client holds. -/
def liveBlocks (bs : List Block) : List Block := bs.filter fun b => b.state = .live

/-- The live blocks are those in the state `live`. -/
theorem mem_liveBlocks : b ∈ liveBlocks bs ↔ b ∈ bs ∧ b.state = .live := by
  unfold liveBlocks
  rw [List.mem_filter, decide_eq_true_eq]

/-- The live blocks of two parts. -/
theorem liveBlocks_append : liveBlocks (pre ++ suf) = liveBlocks pre ++ liveBlocks suf :=
  List.filter_append pre suf

/-- A live block in front is the first of the live ones. -/
theorem liveBlocks_cons_live (hb : b.state = .live) : liveBlocks (b :: bs) = b :: liveBlocks bs :=
  List.filter_cons_of_pos (decide_eq_true hb)

/-- Another block in front is none of them. -/
theorem liveBlocks_cons_ne (hb : b.state ≠ .live) : liveBlocks (b :: bs) = liveBlocks bs :=
  List.filter_cons_of_neg (by simp [hb])

/-- Among free blocks none is live. -/
theorem liveBlocks_free (hbs : ∀ d ∈ bs, d.state = .free) : liveBlocks bs = [] := by
  refine List.filter_eq_nil_iff.mpr fun d hd => ?_
  rw [hbs d hd]
  decide

/-- A merge takes free blocks only. -/
theorem liveBlocks_absorbRight : liveBlocks (absorbRight b suf).2 = liveBlocks suf := by
  obtain ⟨heq, -⟩ | ⟨d, rest, rfl, hfree, heq⟩ := absorbRight_cases b suf
  · rw [heq]
  · rw [heq, liveBlocks_cons_ne (by rw [hfree]; decide)]

/-- A merge with the block in front takes no live block. -/
theorem liveBlocks_absorbLeft : liveBlocks (absorbLeft pre b).1 = liveBlocks pre := by
  obtain ⟨heq, -⟩ | ⟨init, d, rfl, hfree, heq⟩ := absorbLeft_cases pre b
  · rw [heq]
  · rw [heq, liveBlocks_append, liveBlocks_cons_ne (by rw [hfree]; decide)]
    exact (List.append_nil _).symm

/-- A release does not touch the other blocks of the client. -/
theorem liveBlocks_release : liveBlocks (release pre b suf) = liveBlocks pre ++ liveBlocks suf := by
  unfold release
  rw [liveBlocks_append, liveBlocks_absorbLeft, liveBlocks_cons_ne BlockState.noConfusion,
    liveBlocks_absorbRight]

/-- A merge drops blocks on the left, and adds none. -/
theorem mem_absorbLeft {d : Block} (hd : d ∈ (absorbLeft pre b).1) : d ∈ pre := by
  obtain ⟨heq, -⟩ | ⟨init, e, rfl, -, heq⟩ := absorbLeft_cases pre b
  · rwa [heq] at hd
  · rw [heq] at hd
    exact List.mem_append_left _ hd

/-- So it does on the right. -/
theorem mem_absorbRight {d : Block} (hd : d ∈ (absorbRight b suf).2) : d ∈ suf := by
  obtain ⟨heq, -⟩ | ⟨e, rest, rfl, -, heq⟩ := absorbRight_cases b suf
  · rwa [heq] at hd
  · rw [heq] at hd
    exact List.mem_cons_of_mem _ hd

/-- A merge keeps the other blocks as they are. -/
theorem mem_release {d : Block} (hd : d ∈ release pre b suf) :
    d ∈ pre ∨ d.state = .free ∨ d ∈ suf := by
  unfold release at hd
  rcases List.mem_append.mp hd with hd | hd
  · exact Or.inl (mem_absorbLeft hd)
  · rcases List.mem_cons.mp hd with rfl | hd
    · exact Or.inr (Or.inl rfl)
    · exact Or.inr (Or.inr (mem_absorbRight hd))

/-- The new block among the blocks that are carved. -/
theorem Carved.split (hcarved : Carved b need mid u) (hspan : need ≤ b.span) :
    u.state = .used ∧ need ≤ u.span ∧ ∃ xs ys, mid = xs ++ u :: ys ∧
      (∀ d ∈ xs, d.state = .free) ∧ ∀ d ∈ ys, d.state = .free := by
  have hnil : ∀ d ∈ ([] : List Block), d.state = .free := by
    intro d hd
    cases hd
  have hone : ∀ e : Block, e.state = .free → ∀ d ∈ [e], d.state = .free := by
    intro e he d hd
    rw [List.mem_singleton.mp hd]
    exact he
  cases hcarved with
  | whole hwhole => exact ⟨rfl, hspan, [], [], rfl, hnil, hnil⟩
  | back hback => exact ⟨rfl, Nat.le_refl _, [_], [], rfl, hone _ rfl, hnil⟩
  | front hfront => exact ⟨rfl, Nat.le_refl _, [], [_], rfl, hnil, hone _ rfl⟩

/-! ### A change of the ghost and of the states -/

namespace Rep

variable {ι : Type} {binOf : Int → Option ι} {h : Heap ι} {g : Mem} {ls : ι → List Nat}

/-- Another ghost that agrees on the live blocks. -/
theorem reghost (r : Rep binOf h g bs ls) (g' : Mem)
    (hsame : ∀ d ∈ liveBlocks bs, ∀ x, d.addr ≤ x → x < d.stop → h.mem.byte x = g'.byte x) :
    Rep binOf h g' bs ls := by
  refine ⟨⟨r.phys.tiles, ?_, r.phys.hi_lt, r.phys.pos⟩, r.linked, r.nodup, r.mem_iff⟩
  intro d hd
  have hgood := r.phys.good d hd
  exact ⟨hgood.fits, hgood.header, hgood.footer, hgood.free, hgood.used,
    fun hlive => hsame d (mem_liveBlocks.mpr ⟨hd, hlive⟩)⟩

/-- A used block passes to the client, or back. Both have the status of a used block in memory, so
nothing is written. -/
theorem restate (r : Rep binOf h g (pre ++ b :: suf) ls) (state : BlockState)
    (hb : b.state = .used ∨ b.state = .live) (hstate : state = .used ∨ state = .live)
    (hsame : state = .live → ∀ x, b.addr ≤ x → x < b.stop → h.mem.byte x = g.byte x) :
    Rep binOf h g (pre ++ { b with state := state } :: suf) ls := by
  have hgood := r.phys.good b (by simp)
  have hne : ∀ s : BlockState, s = .used ∨ s = .live → s ≠ .free := by
    intro s hs hfree
    rw [hfree] at hs
    rcases hs with hs | hs <;> cases hs
  have hgood' : Good h.mem g { b with state := state } :=
    ⟨hgood.fits.withState state, hgood.header, hgood.footer,
      fun hfree => absurd hfree (hne _ hstate), fun _ => hgood.used hb, hsame⟩
  -- No byte is written: only the view of the block changes.
  have hold : Tiles b.addr [b] b.stop := ⟨rfl, rfl⟩
  have hnew : Tiles b.addr [{ b with state := state }] b.stop := ⟨rfl, rfl⟩
  exact Rep.resize (show Rep binOf h g (pre ++ ([b] ++ suf)) ls from r) hold hnew
    (List.cons_ne_nil _ _) (fun _ _ => rfl)
    (fun d hd => by rw [List.mem_singleton.mp hd]; exact hgood')
    (fun d hd => by rw [List.mem_singleton.mp hd]; exact hne _ hb)
    fun d hd => by rw [List.mem_singleton.mp hd]; exact hne _ hstate

end Rep

/-! ### The heap at rest -/

section
variable {ι : Type} {mgr : Manager ι} {h : Heap ι} {g : Mem} {ls : ι → List Nat}

/-- The heap between two calls. -/
structure Rest (mgr : Manager ι) (h : Heap ι) (g : Mem) (bs : List Block) (ls : ι → List Nat) :
    Prop where
  rep : Rep mgr.binOf h g bs ls
  settled : ∀ b ∈ bs, b.Settled
  adj : NoAdjacentFree bs
  bounded : h.Bounded
  booted : h.booted = true

namespace Rest

/-- The assertions of a debug build hold. -/
theorem assertValid_eq [DecidableEq ι] (r : Rest mgr h g bs ls) (debug : Bool) :
    assertValid mgr debug h = .ok () := by
  unfold assertValid
  rw [r.rep.checkHeapValidity_eq mgr.bins r.settled r.adj]
  cases debug <;> rfl

/-- The ghost may be taken anew. -/
theorem refresh (r : Rest mgr h g bs ls) : Rest mgr h h.mem bs ls :=
  ⟨r.rep.reghost h.mem fun _ _ _ _ _ => rfl, r.settled, r.adj, r.bounded, r.booted⟩

/-- The bytes of the client are those of the ghost. -/
theorem kept (r : Rest mgr h g bs ls) {d : Block} (hd : d ∈ liveBlocks bs) {x : Nat}
    (hlo : d.addr ≤ x) (hhi : x < d.stop) : h.mem.byte x = g.byte x := by
  obtain ⟨hmem, hlive⟩ := mem_liveBlocks.mp hd
  exact (r.rep.phys.good d hmem).live hlive x hlo hhi

end Rest

/-- The bounds do not depend on the memory. -/
theorem Heap.Bounded.same {h' : Heap ι} (hh : h.Bounded) (hsame : SameBounds h h') :
    h'.Bounded := by
  refine ⟨?_, ?_, ?_, ?_⟩
  · rw [hsame.brk, hsame.hi, hh.brk]
  · rw [hsame.base, hsame.lo, hh.base]
  · rw [hsame.brk, hsame.limit]
    exact hh.brk_le
  · rw [hsame.limit]
    exact hh.limit_lt

end

end SysProg.Memory
