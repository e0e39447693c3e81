import SysProg.Proofs.Memory.FreeList

/-!
# `SysProg.Proofs.Memory.Merge`: merging neighbours

`absorbRight` and `absorbLeft` are the merges on the level of blocks.

* `absorbRight_cases` and `absorbLeft_cases`: all that a merge can do.
* `Rep.nextPhys` and `Rep.prevPhys`: the neighbours in memory are the neighbours in the list
  of blocks.
* `Rep.merge`: two adjacent blocks in no list become one.
* `Rep.coalesceRight_spec`, `Rep.coalesceLeft_spec` and `Rep.growMerge_eq`: the code merges
  like the abstract operations.
* `Rep.release_spec`: the steps of `heapmgr_free` together.
-/

set_option autoImplicit false

namespace SysProg.Memory

open SysProg.Lib

/-! ### The merges of blocks -/

/-- The merge of a block with a free block on its right. -/
def absorbRight (b : Block) : List Block → Block × List Block
  | [] => (b, [])
  | d :: suf =>
      if d.state = .free then ({ b with span := b.span + d.span, state := .raw }, suf)
      else (b, d :: suf)

/-- The merge of a block with a free block on its left. -/
def absorbLeft (pre : List Block) (b : Block) : List Block × Block :=
  match pre.getLast? with
  | none => (pre, b)
  | some d =>
      if d.state = .free then (pre.dropLast, { d with span := d.span + b.span, state := .raw })
      else (pre, b)

/-- The blocks after `b` was freed. -/
def release (pre : List Block) (b : Block) (suf : List Block) : List Block :=
  let right := absorbRight b suf
  let left := absorbLeft pre right.1
  left.1 ++ { left.2 with state := .free } :: right.2

/-- The states of a block between two calls. -/
def Block.Settled (b : Block) : Prop := b.state = .free ∨ b.state = .live

/-- A block that is being worked on. -/
def Block.Open (b : Block) : Prop := b.state = .used ∨ b.state = .raw

namespace Block.Open

variable {b : Block}

/-- A block that is open is not in a list, so it is not free. -/
theorem ne_free (h : b.Open) : b.state ≠ .free := by
  intro hfree
  rcases h with h | h <;> rw [h] at hfree <;> cases hfree

end Block.Open

/-- What a merge with the right neighbour does. -/
theorem absorbRight_cases (b : Block) (suf : List Block) :
    absorbRight b suf = (b, suf) ∧ (∀ d ∈ suf.head?, d.state ≠ .free) ∨
      ∃ d rest, suf = d :: rest ∧ d.state = .free ∧
        absorbRight b suf = ({ b with span := b.span + d.span, state := .raw }, rest) := by
  cases suf with
  | nil => exact Or.inl ⟨rfl, fun d hd => by cases hd⟩
  | cons d rest =>
      rw [absorbRight]
      by_cases hfree : d.state = .free
      · rw [if_pos hfree]
        exact Or.inr ⟨d, rest, rfl, hfree, rfl⟩
      · rw [if_neg hfree]
        refine Or.inl ⟨rfl, fun e he => ?_⟩
        rw [← Option.some.inj he]
        exact hfree

/-- What a merge with the left neighbour does. -/
theorem absorbLeft_cases (pre : List Block) (b : Block) :
    absorbLeft pre b = (pre, b) ∧ (∀ d ∈ pre.getLast?, d.state ≠ .free) ∨
      ∃ init d, pre = init ++ [d] ∧ d.state = .free ∧
        absorbLeft pre b = (init, { d with span := d.span + b.span, state := .raw }) := by
  rcases List.eq_nil_or_concat pre with rfl | ⟨init, d, rfl⟩
  · exact Or.inl ⟨rfl, fun d hd => by cases hd⟩
  · rw [List.concat_eq_append, absorbLeft, List.getLast?_concat, List.dropLast_concat]
    dsimp only
    by_cases hfree : d.state = .free
    · rw [if_pos hfree]
      exact Or.inr ⟨init, d, rfl, hfree, rfl⟩
    · rw [if_neg hfree]
      refine Or.inl ⟨rfl, fun e he => ?_⟩
      rw [← Option.some.inj he]
      exact hfree

/-- A block that takes in the one behind it stays at its address. -/
theorem absorbRight_addr (b : Block) (suf : List Block) :
    (absorbRight b suf).1.addr = b.addr := by
  obtain ⟨heq, -⟩ | ⟨d, rest, -, -, heq⟩ := absorbRight_cases b suf
  · rw [heq]
  · rw [heq]

/-- A block that takes in the one behind it is still open. -/
theorem absorbRight_open {b : Block} (hb : b.Open) (suf : List Block) :
    (absorbRight b suf).1.Open := by
  obtain ⟨heq, -⟩ | ⟨d, rest, -, -, heq⟩ := absorbRight_cases b suf
  · rw [heq]
    exact hb
  · rw [heq]
    exact Or.inr rfl

/-- A merge makes a block larger. -/
theorem le_absorbLeft_span (pre : List Block) (b : Block) :
    b.span ≤ (absorbLeft pre b).2.span := by
  obtain ⟨heq, -⟩ | ⟨init, d, -, -, heq⟩ := absorbLeft_cases pre b
  · rw [heq]
  · rw [heq]
    exact Nat.le_add_left _ _

/-- The block that comes out of a merge with the one in front of it is still open. -/
theorem absorbLeft_open {b : Block} (hb : b.Open) (pre : List Block) :
    (absorbLeft pre b).2.Open := by
  obtain ⟨heq, -⟩ | ⟨init, d, -, -, heq⟩ := absorbLeft_cases pre b
  · rw [heq]
    exact hb
  · rw [heq]
    exact Or.inr rfl

variable {ι : Type}

namespace Rep

variable {binOf : Int → Option ι} {h : Heap ι} {g : Mem} {bs pre suf : List Block}
  {b d : Block} {ls : ι → List Nat}

/-! ### The neighbours -/

/-- The status tells a free block from a live one. -/
theorem status_iff (r : Rep binOf h g bs ls) (hb : b ∈ bs) (hs : b.Settled) :
    chunkGetStatus h.mem b.addr = chunkFree ↔ b.state = .free := by
  have hgood := r.phys.good b hb
  constructor
  · intro hstatus
    rcases hs with hs | hs
    · exact hs
    · rw [hgood.used (Or.inr hs)] at hstatus
      exact absurd hstatus (by decide)
  · exact hgood.free

/-- The right neighbour in memory. -/
theorem nextPhys (r : Rep binOf h g (pre ++ b :: suf) ls) :
    chunkGetNextPhys h.mem b.addr h.hi = (suf.head?.map Block.addr).getD 0 := by
  rw [(r.phys.good b (by simp)).nextPhys]
  have htiles := (tiles_split.mp r.phys.tiles).2
  cases suf with
  | nil =>
      -- The last block ends at `s_heap_hi`.
      rw [show b.stop = h.hi from htiles, if_pos (Nat.le_refl _)]
      rfl
  | cons d suf =>
      have hspan := (r.phys.good d (by simp)).fits.span_ge
      have hle := htiles.2.le
      have haddr := htiles.1
      unfold Block.stop at hle
      rw [if_neg (by omega), ← haddr]
      rfl

/-- The left neighbour in memory. It is found by its footer, or there is none at the start of the
heap. -/
theorem prevPhys (r : Rep binOf h g (pre ++ b :: suf) ls) :
    chunkGetPrevPhys h.mem b.addr h.lo = (pre.getLast?.map Block.addr).getD 0 := by
  have htiles := (tiles_split.mp r.phys.tiles).1
  unfold chunkGetPrevPhys
  rcases List.eq_nil_or_concat pre with rfl | ⟨pre, d, rfl⟩
  · rw [if_pos (Nat.le_of_eq (show h.lo = b.addr from htiles).symm)]
    rfl
  · rw [List.concat_eq_append] at htiles r ⊢
    obtain ⟨hpre, hstop⟩ := tiles_split.mp htiles
    have hstop' : d.stop = b.addr := hstop
    have hgood := r.phys.good d (by simp)
    have hspan := hgood.fits.span_ge
    have hsmall := hgood.fits.small
    have hlt := (r.phys.good b (by simp)).fits.stop_lt
    have hle := hpre.le
    unfold Block.stop at hstop'
    -- The unit before the block is the footer of its neighbour, which has the span.
    have hfoot : ptrAdd b.addr (-chunkUnit) = d.foot :=
      ptrAdd_eq (by unfold chunkUnit Block.foot; omega) (by unfold Block.foot; omega)
    rw [if_neg (by omega), hfoot, hgood.footer, i32_eq (by unfold chunkUnit; omega)
      (by unfold chunkUnit; omega), List.getLast?_concat]
    exact ptrAdd_eq (by unfold chunkUnit; simp only [Option.map_some, Option.getD_some]; omega)
      (by simp only [Option.map_some, Option.getD_some]; omega)

/-! ### Two blocks become one -/

/-- Two adjacent blocks whose sizes add up to an `int` fit as one. The sum of the spans is exact
then. -/
theorem span_add (r : Rep binOf h g (pre ++ b :: d :: suf) ls)
    (hsmall : Block.Small ⟨b.addr, b.span + d.span, .raw⟩) :
    i32 (chunkGetSpan h.mem b.addr + chunkGetSpan h.mem d.addr) = (b.span + d.span : Nat) ∧
      d.addr = b.stop ∧ Block.Fits ⟨b.addr, b.span + d.span, .raw⟩ := by
  have hb := r.phys.good b (by simp)
  have hd := r.phys.good d (by simp)
  have htiles := (tiles_split.mp r.phys.tiles).2
  have hlo := (tiles_split.mp r.phys.tiles).1.le
  have haddr : d.addr = b.stop := htiles.1
  have hle := htiles.2.le
  have hbspan := hb.fits.span_ge
  have hdsmall := hd.fits.small
  have hbsmall := hb.fits.small
  refine ⟨?_, haddr, ?_⟩
  · rw [hb.header, hd.header, i32_eq (by omega) (by omega)]
    omega
  · unfold Block.stop at hle haddr
    exact r.phys.fits hlo (by unfold Block.stop; simp only; omega) (by simp only; omega) hsmall

/-- Two adjacent blocks that are in no list become one. The second one's header is a part of the new
payload. -/
theorem merge (r : Rep binOf h g (pre ++ b :: d :: suf) ls) (hb : b.Open) (hd : d.Open)
    (hsmall : Block.Small ⟨b.addr, b.span + d.span, .raw⟩) :
    Rep binOf (h.setMem (chunkSetSpan h.mem b.addr
        (i32 (chunkGetSpan h.mem b.addr + chunkGetSpan h.mem d.addr)))) g
      (pre ++ { b with span := b.span + d.span, state := .raw } :: suf) ls := by
  obtain ⟨hspan, haddr, hfits⟩ := r.span_add hsmall
  -- The merged block covers the bytes of both. Its header is that of `b`, and its footer is put
  -- where the footer of `d` was.
  obtain ⟨e, he⟩ : ∃ e : Block, e = ⟨b.addr, b.span + d.span, .raw⟩ := ⟨_, rfl⟩
  have headdr : e.addr = b.addr := by rw [he]
  have hespan : e.span = b.span + d.span := by rw [he]
  have hraw : e.state = .raw := by rw [he]
  have hstop : e.stop = d.stop := by
    unfold Block.stop at haddr ⊢
    rw [headdr, hespan]
    omega
  rw [← he] at hfits
  rw [hspan, ← hespan, ← headdr]
  have hgood : Good (chunkSetSpan h.mem e.addr e.span) g e := by
    have hset : Good (chunkSetSpan h.mem e.addr e.span) g { e with state := .raw } :=
      good_setSpan hfits
    rwa [← hraw] at hset
  have hold : Tiles e.addr [b, d] e.stop := ⟨headdr.symm, haddr, hstop.symm⟩
  have hnew : Tiles e.addr [e] e.stop := ⟨rfl, rfl⟩
  have hfree : e.state ≠ .free := by
    rw [hraw]
    exact BlockState.noConfusion
  have hmid : ∀ c ∈ [b, d], c.state ≠ .free := by
    intro c hc
    rcases List.mem_cons.mp hc with rfl | hc
    · exact hb.ne_free
    · rw [List.mem_singleton.mp hc]
      exact hd.ne_free
  have hmerged := Rep.resize (show Rep binOf h g (pre ++ ([b, d] ++ suf)) ls from r) hold hnew
    (List.cons_ne_nil _ _) (fun x hx => setSpan_byte hfits hx)
    (fun c hc => by rw [List.mem_singleton.mp hc]; exact hgood) hmid
    (fun c hc => by rw [List.mem_singleton.mp hc]; exact hfree)
  rw [← hraw]
  exact hmerged

/-! ### The merges in the code -/

section
variable [DecidableEq ι]

/-- The merge with the right neighbour. A free one is detached from its list first, and any other
one stays. -/
theorem coalesceRight_spec (r : Rep binOf h g (pre ++ b :: suf) ls) (hcover : BinsCover binOf)
    (hb : b.Open) (hsuf : ∀ d ∈ suf, d.Settled) (hsmall : (absorbRight b suf).1.Small) :
    ∃ h' ls', coalesceRight binOf h b.addr = .ok h' ∧ SameBounds h h' ∧
      Rep binOf h' g (pre ++ (absorbRight b suf).1 :: (absorbRight b suf).2) ls' := by
  unfold coalesceRight
  simp only [r.nextPhys]
  cases suf with
  | nil => exact ⟨h, ls, by simp, SameBounds.refl h, r⟩
  | cons d suf =>
      have hd : d ∈ pre ++ b :: d :: suf := by simp
      have hpos := (r.phys.good d hd).fits.pos
      have hstatus := r.status_iff hd (hsuf d List.mem_cons_self)
      have hne : d.addr ≠ 0 := by omega
      simp only [List.head?_cons, Option.map_some, Option.getD_some, absorbRight, hstatus]
      by_cases hfree : d.state = .free
      · rw [absorbRight, if_pos hfree] at hsmall
        rw [if_pos ⟨hne, hfree⟩, if_pos hfree]
        have r' : Rep binOf h g ((pre ++ [b]) ++ d :: suf) ls := by
          rw [List.append_assoc]
          exact r
        -- The neighbour leaves its list before its span is swallowed.
        obtain ⟨h₁, ls₁, heq, hsame, r₁⟩ := r'.detach_spec hcover hfree
        rw [List.append_assoc] at r₁
        have hmerged := Rep.merge (show Rep binOf h₁ g
          (pre ++ b :: { d with state := .used } :: suf) ls₁ from r₁) hb (Or.inl rfl) hsmall
        rw [heq]
        exact ⟨_, ls₁, rfl, hsame.trans (SameBounds.setMem _ _), hmerged⟩
      · rw [if_neg fun hc => hfree hc.2, if_neg hfree]
        exact ⟨h, ls, rfl, SameBounds.refl h, r⟩

/-- A free left neighbour is detached and merged. The result does not depend on where the
span of the block is read. -/
theorem absorb_left (r : Rep binOf h g ((pre ++ [d]) ++ b :: suf) ls)
    (hcover : BinsCover binOf) (hb : b.Open) (hfree : d.state = .free)
    (hsmall : Block.Small ⟨d.addr, d.span + b.span, .raw⟩) :
    ∃ h' ls', freelistDetach binOf h d.addr = .ok h' ∧ SameBounds h h' ∧
      chunkGetSpan h'.mem b.addr = b.span ∧
      Rep binOf (h'.setMem (chunkSetSpan h'.mem d.addr
          (i32 (chunkGetSpan h'.mem d.addr + b.span)))) g
        (pre ++ { d with span := d.span + b.span, state := .raw } :: suf) ls' := by
  rw [List.append_assoc] at r
  obtain ⟨h₁, ls₁, heq, hsame, r₁⟩ := Rep.detach_spec (show Rep binOf h g
    (pre ++ d :: (b :: suf)) ls from r) hcover hfree
  -- The detach does not touch the block itself, so its span may be read before or after.
  have hspan := (r₁.phys.good b (by simp)).header
  have hmerged := r₁.merge (Or.inl rfl) hb hsmall
  rw [hspan] at hmerged
  exact ⟨h₁, ls₁, heq, hsame, hspan, hmerged⟩

/-- The merge with the left neighbour. The answer is the address of the merged block, or of the
block itself. -/
theorem coalesceLeft_spec (r : Rep binOf h g (pre ++ b :: suf) ls) (hcover : BinsCover binOf)
    (hb : b.Open) (hpre : ∀ d ∈ pre, d.Settled) (hsmall : (absorbLeft pre b).2.Small) :
    ∃ h' ls', coalesceLeft binOf h b.addr = .ok (h', (absorbLeft pre b).2.addr) ∧
      SameBounds h h' ∧
      Rep binOf h' g ((absorbLeft pre b).1 ++ (absorbLeft pre b).2 :: suf) ls' := by
  unfold coalesceLeft
  unfold absorbLeft at hsmall ⊢
  simp only [r.prevPhys]
  rcases List.eq_nil_or_concat pre with rfl | ⟨pre, d, rfl⟩
  · exact ⟨h, ls, by simp, SameBounds.refl h, r⟩
  · rw [List.concat_eq_append] at r hpre hsmall ⊢
    have hd : d ∈ (pre ++ [d]) ++ b :: suf := by simp
    have hpos := (r.phys.good d hd).fits.pos
    have hstatus := r.status_iff hd (hpre d (by simp))
    have hne : d.addr ≠ 0 := by omega
    simp only [List.getLast?_concat, Option.map_some, Option.getD_some, hstatus,
      List.dropLast_concat]
    by_cases hfree : d.state = .free
    · simp only [List.getLast?_concat, if_pos hfree] at hsmall
      rw [if_pos ⟨hne, hfree⟩, if_pos hfree]
      obtain ⟨h₁, ls₁, heq, hsame, hspan, hmerged⟩ := r.absorb_left hcover hb hfree hsmall
      rw [heq]
      simp only [Except.map, hspan]
      exact ⟨_, ls₁, rfl, hsame.trans (SameBounds.setMem _ _), hmerged⟩
    · rw [if_neg fun hc => hfree hc.2, if_neg hfree]
      exact ⟨h, ls, rfl, SameBounds.refl h, r⟩

/-- The merge in `sys_grow`, where the span of the new block is in a variable. -/
theorem growMerge_eq (r : Rep binOf h g (pre ++ b :: suf) ls) (hcover : BinsCover binOf)
    (hb : b.Open) (hpre : ∀ d ∈ pre, d.Settled) (hsmall : (absorbLeft pre b).2.Small) :
    growMerge binOf h b.addr b.span = coalesceLeft binOf h b.addr := by
  unfold growMerge coalesceLeft
  unfold absorbLeft at hsmall
  simp only [r.prevPhys]
  rcases List.eq_nil_or_concat pre with rfl | ⟨pre, d, rfl⟩
  · simp
  · rw [List.concat_eq_append] at r hpre hsmall ⊢
    have hd : d ∈ (pre ++ [d]) ++ b :: suf := by simp
    have hstatus := r.status_iff hd (hpre d (by simp))
    simp only [List.getLast?_concat, Option.map_some, Option.getD_some, hstatus]
    by_cases hfree : d.state = .free
    · simp only [List.getLast?_concat, if_pos hfree] at hsmall
      obtain ⟨h₁, ls₁, heq, _, hspan, _⟩ := r.absorb_left hcover hb hfree hsmall
      simp only [heq, Except.map, hspan]
    · rw [if_neg fun hc => hfree hc.2, if_neg fun hc => hfree hc.2]

/-- The steps of `heapmgr_free`: the block is merged with its free neighbours and put into
its list. -/
theorem release_spec (r : Rep binOf h g (pre ++ b :: suf) ls) (hcover : BinsCover binOf)
    (hb : b.Open) (hpre : ∀ d ∈ pre, d.Settled) (hsuf : ∀ d ∈ suf, d.Settled)
    (hsmall : ∀ d ∈ release pre b suf, d.Small) :
    ∃ h₁ h₂ c h' ls', coalesceRight binOf h b.addr = .ok h₁ ∧
      coalesceLeft binOf h₁ b.addr = .ok (h₂, c) ∧ freelistInsert binOf h₂ c = .ok h' ∧
      SameBounds h h' ∧ Rep binOf h' g (release pre b suf) ls' := by
  have hsmall₂ : (absorbLeft pre (absorbRight b suf).1).2.Small :=
    hsmall { (absorbLeft pre (absorbRight b suf).1).2 with state := .free } (by simp [release])
  have hsmall₁ : (absorbRight b suf).1.Small := by
    have hle := le_absorbLeft_span pre (absorbRight b suf).1
    unfold Block.Small at hsmall₂ ⊢
    omega
  -- The order is that of the code: the right neighbour, the left one, and then the list.
  obtain ⟨h₁, ls₁, hright, hsame₁, r₁⟩ := r.coalesceRight_spec hcover hb hsuf hsmall₁
  have hopen₁ := absorbRight_open hb suf
  obtain ⟨h₂, ls₂, hleft, hsame₂, r₂⟩ := r₁.coalesceLeft_spec hcover hopen₁ hpre hsmall₂
  rw [absorbRight_addr] at hleft
  have hopen₂ := absorbLeft_open hopen₁ pre
  obtain ⟨h₃, ls₃, hinsert, hsame₃, r₃⟩ := r₂.insert_spec hcover hopen₂.ne_free
  exact ⟨h₁, h₂, _, h₃, ls₃, hright, hleft, hinsert, (hsame₁.trans hsame₂).trans hsame₃, r₃⟩

end

end Rep

end SysProg.Memory
