import SysProg.Lib.DoublyLinked
import SysProg.Memory.Heap
import SysProg.Proofs.Memory.Layout

/-!
# `SysProg.Proofs.Memory.FreeList`: the free lists

`Rep` is the representation of a heap: its blocks `bs`, and the nodes `ls i` of each free list
`i`. The nodes are the free blocks whose span belongs to the list.

* `Rep.detach_spec`: `freelist_detach` makes a free block a used one.
* `Rep.insert_spec`: `freelist_insert` makes a block free.
* `Rep.resize`: a change of blocks that are in no list leaves the lists alone.
-/

set_option autoImplicit false

namespace SysProg.Memory

open SysProg.Lib

variable {ι : Type}

/-- The heap consists of the blocks `bs`, and the list `i` of the free blocks `ls i`. -/
structure Rep (binOf : Int → Option ι) (h : Heap ι) (g : Mem) (bs : List Block)
    (ls : ι → List Nat) : Prop where
  phys : Phys h.mem g h.lo bs h.hi
  linked : ∀ i, Linked (chunkGetNextFree h.mem) (chunkGetPrevFree h.mem) 0 0 (h.heads i) (ls i)
  nodup : ∀ i, (ls i).Nodup
  mem_iff : ∀ i c, c ∈ ls i ↔ ∃ b ∈ bs, b.addr = c ∧ b.state = .free ∧ binOf b.span = some i

/-- Every span of a block has a list. -/
def BinsCover (binOf : Int → Option ι) : Prop :=
  ∀ span : Nat, 2 ≤ span → 16 * span ≤ 2147483647 → ∃ i, binOf span = some i

/-- Two heaps that differ in their memory and the heads of the lists only. -/
structure SameBounds (h h' : Heap ι) : Prop where
  lo : h'.lo = h.lo
  hi : h'.hi = h.hi
  booted : h'.booted = h.booted
  brk : h'.brk = h.brk
  base : h'.base = h.base
  limit : h'.limit = h.limit

namespace SameBounds

variable {h h' h'' : Heap ι}

/-- Nothing has changed, so the bounds have not either. -/
theorem refl (h : Heap ι) : SameBounds h h := ⟨rfl, rfl, rfl, rfl, rfl, rfl⟩

/-- A write to the memory keeps the bounds and the heads. -/
theorem setMem (h : Heap ι) (m : Mem) : SameBounds h (h.setMem m) :=
  ⟨rfl, rfl, rfl, rfl, rfl, rfl⟩

/-- Two changes that keep the bounds, one behind the other. -/
theorem trans (h₁ : SameBounds h h') (h₂ : SameBounds h' h'') : SameBounds h h'' :=
  ⟨h₂.lo.trans h₁.lo, h₂.hi.trans h₁.hi, h₂.booted.trans h₁.booted, h₂.brk.trans h₁.brk,
    h₂.base.trans h₁.base, h₂.limit.trans h₁.limit⟩

end SameBounds

/-- Two heaps whose breaks have the same bounds. -/
structure SameRange (h h' : Heap ι) : Prop where
  base : h'.base = h.base
  limit : h'.limit = h.limit

namespace SameRange

variable {h h' h'' : Heap ι}

/-- Nothing has changed, so the range has not either. -/
theorem refl (h : Heap ι) : SameRange h h := ⟨rfl, rfl⟩

/-- Two changes that keep the range, one behind the other. -/
theorem trans (h₁ : SameRange h h') (h₂ : SameRange h' h'') : SameRange h h'' :=
  ⟨h₂.base.trans h₁.base, h₂.limit.trans h₁.limit⟩

end SameRange

/-- The same bounds and heads are the same range. -/
theorem SameBounds.range {h h' : Heap ι} (hsame : SameBounds h h') : SameRange h h' :=
  ⟨hsame.base, hsame.limit⟩

namespace Rep

variable {binOf : Int → Option ι} {h : Heap ι} {g : Mem} {bs pre mid mid' suf : List Block}
  {b d : Block} {ls : ι → List Nat} {i j : ι} {c : Nat}

/-- The block of a node. -/
theorem block_of_mem (r : Rep binOf h g bs ls) (hc : c ∈ ls i) :
    ∃ b ∈ bs, b.addr = c ∧ b.state = .free ∧ binOf b.span = some i :=
  (r.mem_iff i c).mp hc

/-- A free block is a node of its list. -/
theorem mem_of_free (r : Rep binOf h g bs ls) (hb : b ∈ bs) (hfree : b.state = .free)
    (hbin : binOf b.span = some i) : b.addr ∈ ls i :=
  (r.mem_iff i b.addr).mpr ⟨b, hb, rfl, hfree, hbin⟩

/-- A block that is not free is in no list. -/
theorem notMem_of_ne_free (r : Rep binOf h g bs ls) (hb : b ∈ bs) (hne : b.state ≠ .free)
    (i : ι) : b.addr ∉ ls i := by
  intro hmem
  obtain ⟨d, hd, haddr, hfree, _⟩ := r.block_of_mem hmem
  rw [r.phys.addr_inj hd hb haddr] at hfree
  exact hne hfree

/-- A node is in one list only. -/
theorem list_unique (r : Rep binOf h g bs ls) (hi : c ∈ ls i) (hj : c ∈ ls j) : i = j := by
  obtain ⟨b, hb, hbc, _, hbi⟩ := r.block_of_mem hi
  obtain ⟨d, hd, hdc, _, hdj⟩ := r.block_of_mem hj
  rw [r.phys.addr_inj hb hd (hbc.trans hdc.symm), hdj] at hbi
  exact (Option.some.inj hbi).symm

/-- The list of a span. -/
theorem exists_bin (r : Rep binOf h g bs ls) (hcover : BinsCover binOf) (hb : b ∈ bs) :
    ∃ i, binOf b.span = some i :=
  hcover b.span (r.phys.good b hb).fits.span_ge (r.phys.good b hb).fits.small

/-- An address in a free list is an address. -/
theorem node_lt (r : Rep binOf h g bs ls) (hc : c ∈ ls i) : c < 2 ^ 64 := by
  obtain ⟨b, hb, rfl, _, _⟩ := r.block_of_mem hc
  have hstop := (r.phys.good b hb).fits.stop_lt
  omega

/-- The nodes of a list apart from one block. They are the free blocks on either side of it that
belong to the list. -/
theorem side_iff (r : Rep binOf h g (pre ++ b :: suf) ls) (i : ι) (c : Nat) :
    (∃ d, (d ∈ pre ∨ d ∈ suf) ∧ d.addr = c ∧ d.state = .free ∧ binOf d.span = some i) ↔
      c ∈ ls i ∧ c ≠ b.addr := by
  constructor
  · intro ⟨d, hd, haddr, hfree, hbin⟩
    have hmem : d ∈ pre ++ b :: suf := by
      rcases hd with hd | hd <;> simp [hd]
    rw [← haddr]
    exact ⟨r.mem_of_free hmem hfree hbin, r.phys.ne_of_side hd⟩
  · intro ⟨hc, hne⟩
    obtain ⟨d, hd, haddr, hfree, hbin⟩ := r.block_of_mem hc
    have hside : d ∈ pre ∨ d ∈ suf := by
      rcases List.mem_append.mp hd with hd | hd
      · exact Or.inl hd
      · rcases List.mem_cons.mp hd with rfl | hd
        · exact absurd haddr.symm hne
        · exact Or.inr hd
    exact ⟨d, hside, haddr, hfree, hbin⟩

/-- The head of a list that is not empty is a node. -/
theorem head_mem (r : Rep binOf h g bs ls) (hne : h.heads i ≠ 0) : h.heads i ∈ ls i := by
  have hfirst := (r.linked i).head_eq
  cases hl : ls i with
  | nil =>
      rw [hl] at hfirst
      exact absurd hfirst hne
  | cons c l =>
      rw [hl] at hfirst
      rw [show h.heads i = c from hfirst]
      exact List.mem_cons_self

/-- The head of a list is an address or `NULL`. -/
theorem head_lt (r : Rep binOf h g bs ls) (i : ι) : h.heads i < 2 ^ 64 := by
  by_cases hne : h.heads i = 0
  · rw [hne]
    exact Nat.two_pow_pos 64
  · exact r.node_lt (r.head_mem hne)

/-! ### Blocks in no list -/

/-- Some blocks that are in no list are replaced by others that are in none. -/
theorem resize {m : Mem} {start stop : Nat} (r : Rep binOf h g (pre ++ (mid ++ suf)) ls)
    (hold : Tiles start mid stop) (hnew : Tiles start mid' stop) (hne : mid ≠ [])
    (hout : ∀ x, x < start ∨ stop ≤ x → m.byte x = h.mem.byte x)
    (hgood : ∀ d ∈ mid', Good m g d) (hbusy : ∀ d ∈ mid, d.state ≠ .free)
    (hbusy' : ∀ d ∈ mid', d.state ≠ .free) :
    Rep binOf (h.setMem m) g (pre ++ (mid' ++ suf)) ls := by
  have hphys : Phys m g h.lo (pre ++ (mid' ++ suf)) h.hi :=
    r.phys.replace hold hnew hne hout hgood
  -- The free blocks are those on either side, and their links are not touched.
  have hside : ∀ d, d ∈ pre ++ (mid ++ suf) → d.state = .free → d ∈ pre ∨ d ∈ suf := by
    intro d hd hfree
    rcases List.mem_append.mp hd with hd | hd
    · exact Or.inl hd
    · rcases List.mem_append.mp hd with hd | hd
      · exact absurd hfree (hbusy d hd)
      · exact Or.inr hd
  have hlinks : ∀ i, ∀ c ∈ ls i, chunkGetNextFree m c = chunkGetNextFree h.mem c ∧
      chunkGetPrevFree m c = chunkGetPrevFree h.mem c := by
    intro i c hc
    obtain ⟨d, hd, rfl, hfree, _⟩ := r.block_of_mem hc
    obtain ⟨a, hpre, htiles⟩ := tiles_append.mp r.phys.tiles
    obtain ⟨z, hmid, hsuf⟩ := tiles_append.mp htiles
    obtain ⟨e, mid, rfl⟩ := List.exists_cons_of_ne_nil hne
    have ha : a = start := hmid.1.symm.trans hold.1
    have hz : z = stop := by
      rw [ha] at hmid
      exact hmid.unique hold
    refine (r.phys.good d hd).links_congr fun x hlo hhi => hout x ?_
    rcases hside d hd hfree with hd | hd
    · have hle := (hpre.mem_bounds hd).2
      omega
    · have hle := (hsuf.mem_bounds hd).1
      omega
  refine ⟨hphys, ?_, r.nodup, ?_⟩
  · intro i
    exact (r.linked i).congr (fun c hc => (hlinks i c hc).1) fun c hc => (hlinks i c hc).2
  · intro i c
    rw [r.mem_iff]
    constructor
    · intro ⟨d, hd, haddr, hfree, hbin⟩
      rcases hside d hd hfree with hd | hd
      · exact ⟨d, by simp [hd], haddr, hfree, hbin⟩
      · exact ⟨d, by simp [hd], haddr, hfree, hbin⟩
    · intro ⟨d, hd, haddr, hfree, hbin⟩
      rcases List.mem_append.mp hd with hd | hd
      · exact ⟨d, by simp [hd], haddr, hfree, hbin⟩
      · rcases List.mem_append.mp hd with hd | hd
        · exact absurd hfree (hbusy' d hd)
        · exact ⟨d, by simp [hd], haddr, hfree, hbin⟩

/-! ### One list -/

/-- A node of a list other than that of `b` is not `b`. -/
theorem ne_of_other (r : Rep binOf h g bs ls) (hb : b ∈ bs) (hbin : binOf b.span = some i)
    (hj : j ≠ i) (hc : c ∈ ls j) : c ≠ b.addr := by
  intro heq
  obtain ⟨d, hd, haddr, _, hdbin⟩ := r.block_of_mem hc
  rw [r.phys.addr_inj hd hb (haddr.trans heq), hbin] at hdbin
  exact hj (Option.some.inj hdbin).symm

/-- The block `b` enters or leaves its list, which becomes `l`. The other lists stay. -/
theorem relist [DecidableEq ι] {h' : Heap ι} {b' : Block} {l : List Nat}
    (r : Rep binOf h g (pre ++ b :: suf) ls) (hsame : SameBounds h h')
    (haddr : b'.addr = b.addr) (hspan : b'.span = b.span) (hbin : binOf b.span = some i)
    (hphys : Phys h'.mem g h.lo (pre ++ b' :: suf) h.hi)
    (hlinked : Linked (chunkGetNextFree h'.mem) (chunkGetPrevFree h'.mem) 0 0 (h'.heads i) l)
    (hnodup : l.Nodup)
    (hmem : ∀ c, c ∈ l ↔ c ∈ ls i ∧ c ≠ b.addr ∨ c = b.addr ∧ b'.state = .free)
    (hother : ∀ j, j ≠ i → h'.heads j = h.heads j ∧ ∀ c ∈ ls j,
      chunkGetNextFree h'.mem c = chunkGetNextFree h.mem c ∧
        chunkGetPrevFree h'.mem c = chunkGetPrevFree h.mem c) :
    Rep binOf h' g (pre ++ b' :: suf) (Function.update ls i l) := by
  have hb : b ∈ pre ++ b :: suf := by simp
  refine ⟨?_, ?_, ?_, ?_⟩
  · rw [hsame.lo, hsame.hi]
    exact hphys
  · intro j
    by_cases hj : j = i
    · subst hj
      rw [Function.update_self]
      exact hlinked
    · obtain ⟨hhead, hlinks⟩ := hother j hj
      rw [Function.update_of_ne hj, hhead]
      exact (r.linked j).congr (fun c hc => (hlinks c hc).1) fun c hc => (hlinks c hc).2
  · intro j
    by_cases hj : j = i
    · subst hj
      rw [Function.update_self]
      exact hnodup
    · rw [Function.update_of_ne hj]
      exact r.nodup j
  · intro j c
    -- The nodes are those of before, with `b` added or taken away in its own list only.
    have hnode : c ∈ Function.update ls i l j ↔
        c ∈ ls j ∧ c ≠ b.addr ∨ c = b.addr ∧ j = i ∧ b'.state = .free := by
      by_cases hj : j = i
      · subst hj
        rw [Function.update_self, hmem]
        simp
      · rw [Function.update_of_ne hj]
        constructor
        · intro hc
          exact Or.inl ⟨hc, r.ne_of_other hb hbin hj hc⟩
        · intro hc
          rcases hc with ⟨hc, _⟩ | ⟨_, heq, _⟩
          · exact hc
          · exact absurd heq hj
    rw [hnode, ← r.side_iff]
    constructor
    · intro hc
      rcases hc with ⟨d, hd, hrest⟩ | ⟨rfl, rfl, hfree⟩
      · exact ⟨d, by rcases hd with hd | hd <;> simp [hd], hrest⟩
      · exact ⟨b', by simp, haddr, hfree, by rw [hspan]; exact hbin⟩
    · intro ⟨d, hd, hdaddr, hdfree, hdbin⟩
      rcases List.mem_append.mp hd with hd | hd
      · exact Or.inl ⟨d, Or.inl hd, hdaddr, hdfree, hdbin⟩
      · rcases List.mem_cons.mp hd with rfl | hd
        · rw [hspan, hbin] at hdbin
          exact Or.inr ⟨hdaddr.symm.trans haddr, (Option.some.inj hdbin).symm, hdfree⟩
        · exact Or.inl ⟨d, Or.inr hd, hdaddr, hdfree, hdbin⟩

/-! ### `freelist_detach` -/

section
variable {xs ys : List Nat}

/-- The neighbours of a node are in its list. -/
theorem prev_mem (r : Rep binOf h g bs ls) (hls : ls i = xs ++ c :: ys)
    (hne : chunkGetPrevFree h.mem c ≠ 0) : chunkGetPrevFree h.mem c ∈ ls i := by
  have hlinked := r.linked i
  rw [hls] at hlinked ⊢
  rw [hlinked.prev_eq] at hne ⊢
  cases hlast : xs.getLast? with
  | none =>
      rw [hlast] at hne
      exact absurd rfl hne
  | some p => exact List.mem_append_left _ (List.mem_of_getLast? hlast)

/-- The link of a node that is not the last one is a node. -/
theorem next_mem (r : Rep binOf h g bs ls) (hls : ls i = xs ++ c :: ys)
    (hne : chunkGetNextFree h.mem c ≠ 0) : chunkGetNextFree h.mem c ∈ ls i := by
  have hlinked := r.linked i
  rw [hls] at hlinked ⊢
  rw [hlinked.next_eq] at hne ⊢
  cases hhead : ys.head? with
  | none =>
      rw [hhead] at hne
      exact absurd rfl hne
  | some n => exact List.mem_append_right _ (List.mem_cons_of_mem _ (List.mem_of_head? hhead))

/-- A node of another list is not next to a node. -/
theorem other_ne_neighbours (r : Rep binOf h g bs ls) (hls : ls i = xs ++ c :: ys) (hj : j ≠ i)
    {e : Nat} (he : e ∈ ls j) :
    e ≠ c ∧ e ≠ chunkGetPrevFree h.mem c ∧ e ≠ chunkGetNextFree h.mem c := by
  obtain ⟨d, hd, rfl, _⟩ := r.block_of_mem he
  have hpos := (r.phys.good d hd).fits.pos
  have hapart : ∀ x ∈ ls i, d.addr ≠ x := fun x hx heq => hj (r.list_unique he (heq ▸ hx))
  refine ⟨hapart c (by rw [hls]; simp), ?_, ?_⟩
  · intro heq
    exact hapart _ (r.prev_mem hls (by omega)) heq
  · intro heq
    exact hapart _ (r.next_mem hls (by omega)) heq

variable [DecidableEq ι]

/-- The link to a node is moved to the node behind it. It is in the node in front, or it is the head
of the list. -/
theorem unlinkNext_spec (r : Rep binOf h g bs ls) (hb : b ∈ bs) (hbin : binOf b.span = some i)
    (hls : ls i = xs ++ b.addr :: ys) :
    ∃ h', unlinkNext binOf h b.addr = .ok h' ∧ SameBounds h h' ∧
      h'.heads = (if chunkGetPrevFree h.mem b.addr = 0
        then Function.update h.heads i (chunkGetNextFree h.mem b.addr) else h.heads) ∧
      Phys h'.mem g h.lo bs h.hi ∧
      ∀ d ∈ bs, chunkGetNextFree h'.mem d.addr
          = (if d.addr = chunkGetPrevFree h.mem b.addr then chunkGetNextFree h.mem b.addr
            else chunkGetNextFree h.mem d.addr) ∧
        chunkGetPrevFree h'.mem d.addr = chunkGetPrevFree h.mem d.addr := by
  unfold unlinkNext
  simp only
  by_cases hprev : chunkGetPrevFree h.mem b.addr = 0
  -- The block is the head of its list, and no memory is written.
  · have hspan := (r.phys.good b hb).header
    rw [if_neg (not_not.mpr hprev), hspan, hbin, if_pos hprev]
    refine ⟨_, rfl, ⟨rfl, rfl, rfl, rfl, rfl, rfl⟩, rfl, r.phys, ?_⟩
    intro d hd
    have hpos := (r.phys.good d hd).fits.pos
    rw [hprev, if_neg (by omega)]
    exact ⟨rfl, rfl⟩
  -- The node before is in the list, so it is a free block and its header may be written.
  · rw [if_pos hprev, if_neg hprev]
    obtain ⟨p, hp, haddr, hfree, _⟩ := r.block_of_mem (r.prev_mem hls hprev)
    obtain ⟨hphys, hlinks⟩ := r.phys.setNextFree hp (by rw [hfree]; decide)
      (show chunkGetNextFree h.mem b.addr < 2 ^ 64 from loadPtr_lt _ _)
    rw [haddr] at hphys hlinks
    exact ⟨_, rfl, ⟨rfl, rfl, rfl, rfl, rfl, rfl⟩, rfl, hphys, hlinks⟩

/-- What `freelist_detach` writes: the neighbours of the block are linked to each other. The first
one has the head of the list in front of it. -/
theorem detach_links (r : Rep binOf h g (pre ++ b :: suf) ls) (hfree : b.state = .free)
    (hbin : binOf b.span = some i) (hls : ls i = xs ++ b.addr :: ys) :
    ∃ h', freelistDetach binOf h b.addr = .ok h' ∧ SameBounds h h' ∧
      h'.heads = (if chunkGetPrevFree h.mem b.addr = 0
        then Function.update h.heads i (chunkGetNextFree h.mem b.addr) else h.heads) ∧
      Phys h'.mem g h.lo (pre ++ { b with state := .used } :: suf) h.hi ∧
      ∀ d ∈ pre ++ b :: suf, d.addr ≠ b.addr →
        chunkGetNextFree h'.mem d.addr
          = (if d.addr = chunkGetPrevFree h.mem b.addr then chunkGetNextFree h.mem b.addr
            else chunkGetNextFree h.mem d.addr) ∧
        chunkGetPrevFree h'.mem d.addr
          = (if d.addr = chunkGetNextFree h.mem b.addr then chunkGetPrevFree h.mem b.addr
            else chunkGetPrevFree h.mem d.addr) := by
  have hb : b ∈ pre ++ b :: suf := by simp
  have hlive : b.state ≠ .live := by rw [hfree]; decide
  obtain ⟨h₁, heq₁, hsame₁, hheads₁, hphys₁, hlinks₁⟩ := r.unlinkNext_spec hb hbin hls
  obtain ⟨p, hp⟩ : ∃ p, p = chunkGetPrevFree h.mem b.addr := ⟨_, rfl⟩
  obtain ⟨n, hn⟩ : ∃ n, n = chunkGetNextFree h.mem b.addr := ⟨_, rfl⟩
  have hp_lt : p < 2 ^ 64 := by rw [hp]; exact loadPtr_lt _ _
  unfold freelistDetach
  simp only [heq₁, Except.map, ← hp, ← hn] at hlinks₁ ⊢
  obtain ⟨m₂, hm₂⟩ : ∃ m₂, m₂ = if n ≠ 0 then chunkSetPrevFree h₁.mem n p else h₁.mem :=
    ⟨_, rfl⟩
  -- The node behind, if there is one, gets the back link.
  have hback : Phys m₂ g h.lo (pre ++ b :: suf) h.hi ∧ ∀ d ∈ pre ++ b :: suf,
      chunkGetNextFree m₂ d.addr = chunkGetNextFree h₁.mem d.addr ∧
      chunkGetPrevFree m₂ d.addr = (if d.addr = n then p else chunkGetPrevFree h₁.mem d.addr) := by
    by_cases hn0 : n = 0
    · rw [hm₂, if_neg (not_not.mpr hn0)]
      refine ⟨hphys₁, fun d hd => ⟨rfl, ?_⟩⟩
      have hpos := (r.phys.good d hd).fits.pos
      rw [if_neg (by omega)]
    · obtain ⟨q, hq, haddr, hqfree, _⟩ := r.block_of_mem (r.next_mem hls (by rw [← hn]; exact hn0))
      have hset := hphys₁.setPrevFree hq (by rw [hqfree]; decide) hp_lt
      rw [haddr, ← hn] at hset
      rw [hm₂, if_pos hn0]
      exact hset
  rw [← hm₂]
  obtain ⟨hphys₂, hlinks₂⟩ := hback
  -- The three writes to the block itself do not matter to the links of the others.
  obtain ⟨hphys₃, hlinks₃⟩ := hphys₂.setNextFree hb hlive (Nat.two_pow_pos 64)
  obtain ⟨hphys₄, hlinks₄⟩ := hphys₃.setPrevFree hb hlive (Nat.two_pow_pos 64)
  obtain ⟨hphys₅, hlinks₅⟩ := hphys₄.setStatus (Or.inr ⟨rfl, rfl⟩)
  refine ⟨_, rfl, hsame₁.trans ⟨rfl, rfl, rfl, rfl, rfl, rfl⟩, ?_, hphys₅, ?_⟩
  · rw [hp, hn]
    exact hheads₁
  · intro d hd hne
    constructor
    · have hnext := (hlinks₅ d hd).1
      rw [(hlinks₄ d hd).1, (hlinks₃ d hd).1, if_neg hne, (hlinks₂ d hd).1,
        (hlinks₁ d hd).1] at hnext
      exact hnext
    · have hprev := (hlinks₅ d hd).2
      rw [(hlinks₄ d hd).2, if_neg hne, (hlinks₃ d hd).2, (hlinks₂ d hd).2,
        (hlinks₁ d hd).2] at hprev
      exact hprev

/-- `freelist_detach` makes a free block a used one. It is in no list then, and the other lists are
as before. -/
theorem detach_spec (r : Rep binOf h g (pre ++ b :: suf) ls) (hcover : BinsCover binOf)
    (hfree : b.state = .free) :
    ∃ h' ls', freelistDetach binOf h b.addr = .ok h' ∧ SameBounds h h' ∧
      Rep binOf h' g (pre ++ { b with state := .used } :: suf) ls' := by
  have hb : b ∈ pre ++ b :: suf := by simp
  obtain ⟨i, hbin⟩ := r.exists_bin hcover hb
  obtain ⟨xs, ys, hls⟩ := List.append_of_mem (r.mem_of_free hb hfree hbin)
  obtain ⟨h', heq, hsame, hheads, hphys, hlinks⟩ := r.detach_links hfree hbin hls
  have hlinked := r.linked i
  have hnodup := r.nodup i
  rw [hls] at hlinked hnodup
  have hne : ∀ c ∈ xs ++ ys, c ≠ b.addr := by
    intro c hc heq
    rw [heq] at hc
    have hsplit := List.nodup_middle.mp hnodup
    exact (List.nodup_cons.mp hsplit).1 hc
  have hsame_links : ∀ c ∈ xs ++ ys,
      chunkGetNextFree h'.mem c = (if c = chunkGetPrevFree h.mem b.addr
        then chunkGetNextFree h.mem b.addr else chunkGetNextFree h.mem c) ∧
      chunkGetPrevFree h'.mem c = (if c = chunkGetNextFree h.mem b.addr
        then chunkGetPrevFree h.mem b.addr else chunkGetPrevFree h.mem c) := by
    intro c hc
    have hmem : c ∈ ls i := by
      rw [hls]
      rcases List.mem_append.mp hc with hc | hc <;> simp [hc]
    obtain ⟨d, hd, rfl, _⟩ := r.block_of_mem hmem
    exact hlinks d hd (hne _ hc)
  have hfirst := hlinked.prev_eq_null_iff
  -- `unlink` wants `NULL`, the back link of the head, to be no node.
  have hzero : (0 :: (xs ++ b.addr :: ys)).Nodup :=
    List.nodup_cons.mpr ⟨fun hmem => hlinked.ne_null hmem rfl, hnodup⟩
  have hunlink := hlinked.unlink hzero (fun c hc => (hsame_links c hc).1)
    fun c hc => (hsame_links c hc).2
  -- The list of the block is linked over it, and its head moves when the block was the head.
  have hlist : Linked (chunkGetNextFree h'.mem) (chunkGetPrevFree h'.mem) 0 0 (h'.heads i)
      (xs ++ ys) := by
    rw [hheads]
    by_cases hxs : xs = []
    · rw [if_pos hxs] at hunlink
      rw [if_pos (hfirst.mpr hxs), Function.update_self]
      exact hunlink
    · rw [if_neg hxs] at hunlink
      rw [if_neg fun h0 => hxs (hfirst.mp h0)]
      exact hunlink
  refine ⟨h', Function.update ls i (xs ++ ys), heq, hsame, r.relist hsame rfl rfl hbin hphys hlist
    (List.nodup_cons.mp (List.nodup_middle.mp hnodup)).2 (fun c => ?_) fun j hj => ⟨?_, ?_⟩⟩
  · rw [hls]
    constructor
    · intro hc
      exact Or.inl ⟨by rcases List.mem_append.mp hc with hc | hc <;> simp [hc], hne c hc⟩
    · intro hc
      rcases hc with ⟨hc, hcb⟩ | ⟨_, hused⟩
      · rcases List.mem_append.mp hc with hc | hc
        · exact List.mem_append_left _ hc
        · rcases List.mem_cons.mp hc with hc | hc
          · exact absurd hc hcb
          · exact List.mem_append_right _ hc
      · cases hused
  · rw [hheads]
    split
    · exact Function.update_of_ne hj _ _
    · rfl
  · intro c hc
    obtain ⟨d, hd, rfl, _⟩ := r.block_of_mem hc
    obtain ⟨hself, hprev, hnext⟩ := r.other_ne_neighbours hls hj hc
    obtain ⟨hdnext, hdprev⟩ := hlinks d hd hself
    rw [if_neg hprev] at hdnext
    rw [if_neg hnext] at hdprev
    exact ⟨hdnext, hdprev⟩

/-! ### `freelist_insert` -/

/-- What `freelist_insert` writes: the block is linked before the head of its list. The old head
links back to it. -/
theorem insert_links (r : Rep binOf h g (pre ++ b :: suf) ls) (hfree : b.state ≠ .free)
    (hbin : binOf b.span = some i) :
    ∃ h', freelistInsert binOf h b.addr = .ok h' ∧ SameBounds h h' ∧
      h'.heads = Function.update h.heads i b.addr ∧
      Phys h'.mem g h.lo (pre ++ { b with state := .free } :: suf) h.hi ∧
      chunkGetNextFree h'.mem b.addr = h.heads i ∧ chunkGetPrevFree h'.mem b.addr = 0 ∧
      ∀ d, d ∈ pre ∨ d ∈ suf →
        chunkGetNextFree h'.mem d.addr = chunkGetNextFree h.mem d.addr ∧
        chunkGetPrevFree h'.mem d.addr
          = (if d.addr = h.heads i then b.addr else chunkGetPrevFree h.mem d.addr) := by
  have hb : b ∈ pre ++ b :: suf := by simp
  have hgood := r.phys.good b hb
  have hstop := hgood.fits.stop_lt
  have hnot := r.notMem_of_ne_free hb hfree i
  obtain ⟨head, hhead⟩ : ∃ head, head = h.heads i := ⟨_, rfl⟩
  have hhead_lt : head < 2 ^ 64 := by rw [hhead]; exact r.head_lt i
  have hhead_mem : head ≠ 0 → head ∈ ls i := by
    rw [hhead]
    exact r.head_mem
  -- The block is in no list yet, so it is not the head.
  have hself : b.addr ≠ head := by
    intro heq
    have hpos := hgood.fits.pos
    exact hnot (by rw [heq]; exact hhead_mem (by omega))
  obtain ⟨b', hb'⟩ : ∃ b' : Block, b' = { b with state := .free } := ⟨_, rfl⟩
  have haddr : b'.addr = b.addr := by rw [hb']
  have hlive' : b'.state ≠ .live := by
    rw [hb']
    exact BlockState.noConfusion
  have hbs' : b' ∈ pre ++ b' :: suf := by simp
  have hside : ∀ d, d ∈ pre ∨ d ∈ suf → d ∈ pre ++ b' :: suf := by
    intro d hd
    rcases hd with hd | hd <;> simp [hd]
  -- The writes, one after the other.
  obtain ⟨hphys₁, hlinks₁⟩ := r.phys.setStatus (Or.inl ⟨rfl, rfl⟩)
  rw [← hb'] at hphys₁
  obtain ⟨hphys₂, hlinks₂⟩ := hphys₁.setNextFree hbs' hlive' hhead_lt
  obtain ⟨hphys₃, hlinks₃⟩ := hphys₂.setPrevFree hbs' hlive' (Nat.two_pow_pos 64)
  rw [haddr] at hlinks₂ hphys₃ hlinks₃
  obtain ⟨m₃, hm₃⟩ : ∃ m₃, m₃ = chunkSetPrevFree (chunkSetNextFree
    (chunkSetStatus h.mem b.addr chunkFree) b.addr head) b.addr 0 := ⟨_, rfl⟩
  rw [← hm₃] at hphys₃ hlinks₃
  -- The old head gets its back link, when the list was not empty.
  have hlast : Phys (if head ≠ 0 then chunkSetPrevFree m₃ head b.addr else m₃) g h.lo
      (pre ++ b' :: suf) h.hi ∧ ∀ d ∈ pre ++ b' :: suf,
        chunkGetNextFree (if head ≠ 0 then chunkSetPrevFree m₃ head b.addr else m₃) d.addr
          = chunkGetNextFree m₃ d.addr ∧
        chunkGetPrevFree (if head ≠ 0 then chunkSetPrevFree m₃ head b.addr else m₃) d.addr
          = (if d.addr = head then b.addr else chunkGetPrevFree m₃ d.addr) := by
    by_cases h0 : head = 0
    · rw [if_neg (not_not.mpr h0)]
      refine ⟨hphys₃, fun d hd => ⟨rfl, ?_⟩⟩
      have hpos := (hphys₃.good d hd).fits.pos
      rw [if_neg (by omega)]
    · rw [if_pos h0]
      obtain ⟨d, hd, hdaddr, hdfree, _⟩ := (r.side_iff i head).mpr ⟨hhead_mem h0, hself.symm⟩
      have hset := hphys₃.setPrevFree (hside d hd) (by rw [hdfree]; decide)
        (show b.addr < 2 ^ 64 by omega)
      rw [hdaddr] at hset
      exact hset
  obtain ⟨hphys₄, hlinks₄⟩ := hlast
  unfold freelistInsert
  rw [hgood.header, hbin]
  simp only [← hhead, ← hm₃]
  refine ⟨_, rfl, ⟨rfl, rfl, rfl, rfl, rfl, rfl⟩, rfl, ?_, ?_, ?_, ?_⟩
  · rw [← hb']
    exact hphys₄
  · have hnext := (hlinks₄ b' hbs').1
    rw [(hlinks₃ b' hbs').1, (hlinks₂ b' hbs').1, haddr, if_pos rfl] at hnext
    exact hnext
  · have hprev := (hlinks₄ b' hbs').2
    rw [(hlinks₃ b' hbs').2, haddr, if_neg hself, if_pos rfl] at hprev
    exact hprev
  · intro d hd
    have hne := r.phys.ne_of_side hd
    have hold : d ∈ pre ++ b :: suf := by rcases hd with hd | hd <;> simp [hd]
    constructor
    · have hnext := (hlinks₄ d (hside d hd)).1
      rw [(hlinks₃ d (hside d hd)).1, (hlinks₂ d (hside d hd)).1, if_neg hne,
        (hlinks₁ d hold).1] at hnext
      exact hnext
    · have hprev := (hlinks₄ d (hside d hd)).2
      rw [(hlinks₃ d (hside d hd)).2, if_neg hne, (hlinks₂ d (hside d hd)).2,
        (hlinks₁ d hold).2] at hprev
      exact hprev

/-- `freelist_insert` makes a block free. It is the first one in the list of its span. -/
theorem insert_spec (r : Rep binOf h g (pre ++ b :: suf) ls) (hcover : BinsCover binOf)
    (hfree : b.state ≠ .free) :
    ∃ h' ls', freelistInsert binOf h b.addr = .ok h' ∧ SameBounds h h' ∧
      Rep binOf h' g (pre ++ { b with state := .free } :: suf) ls' := by
  have hb : b ∈ pre ++ b :: suf := by simp
  obtain ⟨i, hbin⟩ := r.exists_bin hcover hb
  have hpos := (r.phys.good b hb).fits.pos
  have hnot := r.notMem_of_ne_free hb hfree
  obtain ⟨h', heq, hsame, hheads, hphys, hnext, hprev, hlinks⟩ := r.insert_links hfree hbin
  -- A node of any list is another block.
  have hnode : ∀ j, ∀ c ∈ ls j, ∃ d, (d ∈ pre ∨ d ∈ suf) ∧ d.addr = c := by
    intro j c hc
    have hne : c ≠ b.addr := fun heq => hnot j (heq ▸ hc)
    obtain ⟨d, hd, haddr, _⟩ := (r.side_iff j c).mpr ⟨hc, hne⟩
    exact ⟨d, hd, haddr⟩
  have hlist : Linked (chunkGetNextFree h'.mem) (chunkGetPrevFree h'.mem) 0 0 (h'.heads i)
      (b.addr :: ls i) := by
    rw [hheads, Function.update_self]
    refine (r.linked i).push (by omega) hnext hprev ?_ ?_ (r.nodup i)
    · intro c hc
      obtain ⟨d, hd, rfl⟩ := hnode i c hc
      exact (hlinks d hd).1
    · intro c hc
      obtain ⟨d, hd, rfl⟩ := hnode i c hc
      exact (hlinks d hd).2
  refine ⟨h', Function.update ls i (b.addr :: ls i), heq, hsame, r.relist hsame rfl rfl hbin hphys
    hlist (List.nodup_cons.mpr ⟨hnot i, r.nodup i⟩) (fun c => ?_) fun j hj => ⟨?_, fun c hc => ?_⟩⟩
  · rw [List.mem_cons]
    constructor
    · intro hc
      rcases hc with hc | hc
      · exact Or.inr ⟨hc, rfl⟩
      · exact Or.inl ⟨hc, fun heq => hnot i (heq ▸ hc)⟩
    · intro hc
      rcases hc with ⟨hc, _⟩ | ⟨hc, _⟩
      · exact Or.inr hc
      · exact Or.inl hc
  · rw [hheads]
    exact Function.update_of_ne hj _ _
  · -- The head of the list of the block is not a node of another list.
    obtain ⟨d, hd, rfl⟩ := hnode j c hc
    have hhead : d.addr ≠ h.heads i := by
      intro heq
      have hdpos := (r.phys.good d (by rcases hd with hd | hd <;> simp [hd])).fits.pos
      rw [heq] at hc
      exact hj (r.list_unique hc (r.head_mem (by omega)))
    obtain ⟨hdnext, hdprev⟩ := hlinks d hd
    rw [if_neg hhead] at hdprev
    exact ⟨hdnext, hdprev⟩

end

end Rep

end SysProg.Memory
