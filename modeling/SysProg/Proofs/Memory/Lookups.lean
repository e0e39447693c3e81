import SysProg.Memory.Lookups
import SysProg.Proofs.Memory.Addresses
import SysProg.Proofs.Memory.Fit

/-!
# `SysProg.Proofs.Memory.Lookups`: every address inside a call is exact

Every lookup of a call is about a part of a block that the call works on, whatever headers the call
has changed before it. `PartOf P` says so of a block and of a lookup, for the blocks of `P`.

* `Rep.detach_partOf`, `Rep.insert_partOf`, `Rep.right_partOf`, `Rep.left_partOf` and
  `Rep.grow_partOf`: the lookups of the functions that the managers share.
* `AllocParts`: those of a `do_alloc`. `Heapmgr1.allocParts` and `Heapmgr2.allocParts` are the two
  managers.
* `Client.Inv.lookups_partOf`: those of a whole call.

`call_addresses_exact` is the result.
-/

set_option autoImplicit false

namespace SysProg.Memory

open SysProg.Lib

/-! ### Parts of blocks -/

/-- The block is a part of one of the blocks of `P`. -/
def Block.PartOf (P : PhysBlock → Prop) (d : Block) : Prop := ∃ b, P b ∧ InPart b d.addr d.span

/-- The lookup is about a part of one of the blocks of `P`. -/
def Lookup.PartOf (P : PhysBlock → Prop) (l : Lookup) : Prop := ∃ b, P b ∧ l.InPart b

/-- A lookup in a block with exact parts is exact. The cases are those of `PartsExact`. -/
theorem Lookup.InPart.exact {b : PhysBlock} {l : Lookup} (hb : PartsExact b) (hl : l.InPart b) :
    l.Exact := by
  cases l with
  | footer m c =>
      obtain ⟨k, hspan, hin⟩ := hl
      have hpos := hin.pos
      show (getFooter m c : Int) = c + (chunkGetSpan m c - 1) * chunkUnit
      rw [hb.footer m c k hin hspan, hspan]
      unfold chunkUnit
      omega
  | next m c stop =>
      obtain ⟨k, hspan, hin⟩ := hl
      show (chunkGetNextPhys m c stop : Int) = if (stop : Int) ≤ c + chunkGetSpan m c * chunkUnit
        then 0 else c + chunkGetSpan m c * chunkUnit
      rw [hb.next m c k stop hin hspan, hspan]
      unfold chunkUnit
      split
      · rw [if_pos (by omega)]
        rfl
      · rw [if_neg (by omega)]
        omega
  | prev m c start =>
      show (chunkGetPrevPhys m c start : Int)
        = if c ≤ start then 0 else c - footerSpan m (c - chunkUnit) * chunkUnit
      by_cases hstart : c ≤ start
      · rw [if_pos hstart, chunkGetPrevPhys, if_pos hstart]
        rfl
      · obtain ⟨d, k, rfl, hfoot, hin⟩ := hl (Nat.lt_of_not_le hstart)
        have hpos := hin.pos
        have hback : d + k * chunkUnit - chunkUnit = d + (k - 1) * chunkUnit := by
          unfold chunkUnit
          omega
        rw [hback] at hfoot ⊢
        rw [hb.prev m d k start hin hfoot, if_neg hstart, if_neg hstart, hfoot]
        push_cast
        omega

/-- A lookup behind a function that does not stop the program. -/
theorem mem_behind {α : Type} {x : Except Stop α} {lookups : α → List Lookup} {l : Lookup} :
    l ∈ behind x lookups ↔ ∃ a, x = .ok a ∧ l ∈ lookups a := by
  cases x with
  | error e => simp [behind]
  | ok a => simp [behind]

section
variable {P : PhysBlock → Prop} {m g : Mem} {d e : Block}

/-- A block of `P` is a part of itself. -/
theorem Block.PartOf.self (hspan : 1 ≤ d.span) (hd : P d.entry) : d.PartOf P :=
  ⟨d.entry, hd, hspan, Nat.le_refl _, Int.le_refl _⟩

/-- A part of a part. -/
theorem Block.PartOf.sub (h : d.PartOf P) (hspan : 1 ≤ e.span) (haddr : d.addr ≤ e.addr)
    (hstop : e.stop ≤ d.stop) : e.PartOf P := by
  obtain ⟨b, hb, hin⟩ := h
  have hle := hin.le
  have hend := hin.stop
  unfold Block.stop at hstop
  unfold chunkUnit at hend
  exact ⟨b, hb, ⟨hspan, by omega, by unfold chunkUnit; omega⟩⟩

/-- The footer of a block whose span is in its header. -/
theorem Block.PartOf.footer (h : d.PartOf P) (hspan : chunkGetSpan m d.addr = d.span) :
    (Lookup.footer m d.addr).PartOf P := by
  obtain ⟨b, hb, hin⟩ := h
  exact ⟨b, hb, d.span, hspan, hin⟩

/-- `chunk_set_span` looks the new footer up. The new span is in the header by then. -/
theorem Block.PartOf.setSpan (h : d.PartOf P) (hfits : d.Fits) (m : Mem) :
    ∀ l ∈ setSpanLookups m d.addr d.span, l.PartOf P := by
  intro l hl
  have hsmall := hfits.small
  rw [List.mem_singleton.mp hl]
  exact h.footer (loadInt_storeInt m (d.addr + 4) (by omega) (by omega))

/-- The assignments to a new block look its footer up twice. -/
theorem Block.PartOf.init (h : d.PartOf P) (hfits : d.Fits) (m : Mem) {status : Int}
    (hstatus : status = chunkFree ∨ status = chunkUsed) :
    ∀ l ∈ initLookups m d.addr d.span status, l.PartOf P := by
  intro l hl
  rcases List.mem_append.mp hl with hl | hl
  · exact h.setSpan hfits m l hl
  · rw [List.mem_singleton.mp hl]
    have hraw : Good (chunkSetSpan m d.addr d.span) m { d with state := .raw } := good_setSpan hfits
    -- The status and the link do not change the span.
    have hset : ∃ state : BlockState, state ≠ .live ∧
        Good (chunkSetStatus (chunkSetSpan m d.addr d.span) d.addr status) m
          { d with state := state } := by
      rcases hstatus with rfl | rfl
      · exact ⟨.free, BlockState.noConfusion, (hraw.setStatus (Or.inl ⟨rfl, rfl⟩)).1⟩
      · exact ⟨.used, BlockState.noConfusion, (hraw.setStatus (Or.inr ⟨rfl, rfl⟩)).1⟩
    obtain ⟨state, hlive, hgood⟩ := hset
    exact h.footer (hgood.setNextFree hlive (Nat.two_pow_pos 64)).1.header

end

namespace Rep

variable {ι : Type} {binOf : Int → Option ι} {h : Heap ι} {g : Mem} {bs pre suf : List Block}
  {b d : Block} {ls : ι → List Nat} {P : PhysBlock → Prop}

/-- The left neighbour of a block. Its footer is in front of the block, and it belongs to a block of
the heap if there is one. -/
theorem prev_partOf (r : Rep binOf h g (pre ++ b :: suf) ls)
    (hparts : ∀ d ∈ pre ++ b :: suf, d.PartOf P) : (Lookup.prev h.mem b.addr h.lo).PartOf P := by
  have htiles := (tiles_split.mp r.phys.tiles).1
  rcases List.eq_nil_or_concat pre with rfl | ⟨pre, d, rfl⟩
  · obtain ⟨e, he, -⟩ := hparts b (by simp)
    have hlo : h.lo = b.addr := htiles
    exact ⟨e, he, fun hlt => absurd hlt (by omega)⟩
  · rw [List.concat_eq_append] at htiles hparts r
    obtain ⟨e, he, hin⟩ := hparts d (by simp)
    have hgood := r.phys.good d (by simp)
    have hspan := hgood.fits.span_ge
    have hstop : d.stop = b.addr := (tiles_split.mp htiles).2
    have hfoot : b.addr - chunkUnit = d.foot := by
      unfold Block.stop at hstop
      unfold Block.foot chunkUnit
      omega
    refine ⟨e, he, fun _ => ⟨d.addr, d.span, ?_, ?_, hin⟩⟩
    · unfold Block.stop at hstop
      unfold chunkUnit
      omega
    · rw [hfoot]
      exact hgood.footer

/-- The lookups of `freelist_insert`. They are the footers of the block and of the old head of its
list. -/
theorem insert_partOf (r : Rep binOf h g (pre ++ b :: suf) ls) (hcover : BinsCover binOf)
    (hfree : b.state ≠ .free) (hparts : ∀ d ∈ pre ++ b :: suf, d.PartOf P) :
    ∀ l ∈ insertLookups binOf h b.addr, l.PartOf P := by
  have hb : b ∈ pre ++ b :: suf := by simp
  obtain ⟨i, hbin⟩ := r.exists_bin hcover hb
  have hnot := r.notMem_of_ne_free hb hfree i
  obtain ⟨head, hhead⟩ : ∃ head, head = h.heads i := ⟨_, rfl⟩
  have hhead_lt : head < 2 ^ 64 := by rw [hhead]; exact r.head_lt i
  -- The writes before the second lookup leave the spans of all blocks as they are.
  have hstate : BlockState.free = .free ∧ chunkFree = chunkFree ∨
      BlockState.free = .used ∧ chunkFree = chunkUsed := Or.inl ⟨rfl, rfl⟩
  have hphys₁ := (r.phys.setStatus hstate).1
  have hb' : ({ b with state := .free } : Block) ∈ pre ++ { b with state := .free } :: suf := by
    simp
  have hphys₂ := (hphys₁.setNextFree hb' BlockState.noConfusion hhead_lt).1
  have hphys₃ := (hphys₂.setPrevFree hb' BlockState.noConfusion (Nat.two_pow_pos 64)).1
  unfold insertLookups
  rw [(r.phys.good b hb).header, hbin]
  simp only [← hhead]
  intro l hl
  rcases List.mem_cons.mp hl with rfl | hl
  · exact (hparts b hb).footer (hphys₂.good _ hb').header
  · by_cases h0 : head ≠ 0
    · have hmem : head ∈ ls i := by
        rw [hhead] at h0 ⊢
        exact r.head_mem h0
      have hself : head ≠ b.addr := fun heq => hnot (heq ▸ hmem)
      obtain ⟨d, hd, hdaddr, -⟩ := (r.side_iff i head).mpr ⟨hmem, hself⟩
      have hold : d ∈ pre ++ b :: suf := by rcases hd with hd | hd <;> simp [hd]
      have hnew : d ∈ pre ++ { b with state := .free } :: suf := by
        rcases hd with hd | hd <;> simp [hd]
      rw [if_pos h0] at hl
      rw [List.mem_singleton.mp hl, ← hdaddr]
      rw [← hdaddr] at hphys₃
      exact (hparts d hold).footer (hphys₃.good d hnew).header
    · rw [if_neg h0] at hl
      cases hl

/-- The block that is merged to the left is a part of what it is merged into. -/
theorem partOf_of_absorbLeft (r : Rep binOf h g (pre ++ b :: suf) ls)
    (hmerged : (absorbLeft pre b).2.PartOf P) : b.PartOf P := by
  have hspan := (r.phys.good b (by simp)).fits.span_ge
  obtain ⟨heq, -⟩ | ⟨init, d, rfl, -, heq⟩ := absorbLeft_cases pre b
  · rw [heq] at hmerged
    exact hmerged
  · rw [heq] at hmerged
    have hstop := r.phys.tiles.before (show d ∈ init ++ [d] by simp)
    have hend : d.stop = b.addr := (tiles_split.mp (tiles_split.mp r.phys.tiles).1).2
    refine hmerged.sub (by omega) ?_ ?_
    · unfold Block.stop at hstop
      simp only
      omega
    · unfold Block.stop at hend ⊢
      simp only
      omega

section
variable [DecidableEq ι]

/-- The lookups of `freelist_detach`. The headers of all blocks stay during its writes, so the
footers are where they were. -/
theorem detach_partOf (r : Rep binOf h g (pre ++ b :: suf) ls) (hcover : BinsCover binOf)
    (hfree : b.state = .free) (hparts : ∀ d ∈ pre ++ b :: suf, d.PartOf P) :
    ∀ l ∈ detachLookups binOf h b.addr, l.PartOf P := by
  have hb : b ∈ pre ++ b :: suf := by simp
  have hlive : b.state ≠ .live := by rw [hfree]; decide
  obtain ⟨i, hbin⟩ := r.exists_bin hcover hb
  obtain ⟨xs, ys, hls⟩ := List.append_of_mem (r.mem_of_free hb hfree hbin)
  obtain ⟨h₁, heq₁, -, -, hphys₁, -⟩ := r.unlinkNext_spec hb hbin hls
  obtain ⟨p, hp⟩ : ∃ p, p = chunkGetPrevFree h.mem b.addr := ⟨_, rfl⟩
  obtain ⟨n, hn⟩ : ∃ n, n = chunkGetNextFree h.mem b.addr := ⟨_, rfl⟩
  have hp_lt : p < 2 ^ 64 := by rw [hp]; exact loadPtr_lt _ _
  -- The node behind is a block of the heap.
  have hnode : n ≠ 0 → ∃ q ∈ pre ++ b :: suf, q.addr = n ∧ q.state ≠ .live := by
    intro hn0
    obtain ⟨q, hq, haddr, hqfree, -⟩ := r.block_of_mem (r.next_mem hls (by rw [← hn]; exact hn0))
    exact ⟨q, hq, haddr.trans hn.symm, by rw [hqfree]; decide⟩
  have hphys₂ : Phys (if n ≠ 0 then chunkSetPrevFree h₁.mem n p else h₁.mem) g h.lo
      (pre ++ b :: suf) h.hi := by
    by_cases hn0 : n ≠ 0
    · obtain ⟨q, hq, haddr, hqlive⟩ := hnode hn0
      rw [if_pos hn0, ← haddr]
      exact (hphys₁.setPrevFree hq hqlive hp_lt).1
    · rw [if_neg hn0]
      exact hphys₁
  have hphys₃ := (hphys₂.setNextFree hb hlive (Nat.two_pow_pos 64)).1
  unfold detachLookups
  simp only [heq₁, behind, ← hp, ← hn]
  intro l hl
  rcases List.mem_cons.mp hl with rfl | hl
  · exact (hparts b hb).footer (r.phys.good b hb).header
  · rcases List.mem_append.mp hl with hl | hl
    · by_cases hn0 : n ≠ 0
      · obtain ⟨q, hq, haddr, -⟩ := hnode hn0
        rw [if_pos hn0] at hl
        rw [List.mem_singleton.mp hl, ← haddr]
        exact (hparts q hq).footer (hphys₁.good q hq).header
      · rw [if_neg hn0] at hl
        cases hl
    · rw [List.mem_singleton.mp hl]
      exact (hparts b hb).footer (hphys₃.good b hb).header

/-- The lookups of the merge with the right neighbour. The merged block is a part of one of `P` by
hypothesis, and so are the two. -/
theorem right_partOf (r : Rep binOf h g (pre ++ b :: suf) ls) (hcover : BinsCover binOf)
    (hsuf : ∀ d ∈ suf, d.Settled) (hsmall : (absorbRight b suf).1.Small)
    (hparts : ∀ d ∈ pre ++ b :: suf, d.PartOf P) (hmerged : (absorbRight b suf).1.PartOf P) :
    ∀ l ∈ rightLookups binOf h b.addr, l.PartOf P := by
  have hb : b ∈ pre ++ b :: suf := by simp
  have hnext : (Lookup.next h.mem b.addr h.hi).PartOf P :=
    (hparts b hb).footer (r.phys.good b hb).header
  unfold rightLookups
  simp only [r.nextPhys]
  intro l hl
  rcases List.mem_cons.mp hl with rfl | hl
  · exact hnext
  · cases suf with
    | nil => simp at hl
    | cons d suf =>
        have hd : d ∈ pre ++ b :: d :: suf := by simp
        have hstatus := r.status_iff hd (hsuf d List.mem_cons_self)
        simp only [List.head?_cons, Option.map_some, Option.getD_some, hstatus] at hl
        by_cases hfree : d.state = .free
        · have r' : Rep binOf h g ((pre ++ [b]) ++ d :: suf) ls := by
            rw [List.append_assoc]
            exact r
          obtain ⟨h₁, ls₁, heq, -, r₁⟩ := r'.detach_spec hcover hfree
          rw [List.append_assoc] at r₁
          rw [absorbRight, if_pos hfree] at hsmall hmerged
          -- The span that is written is that of the two blocks together.
          obtain ⟨hspan, -, hfits⟩ := Rep.span_add (show Rep binOf h₁ g
            (pre ++ b :: { d with state := .used } :: suf) ls₁ from r₁) hsmall
          have hsum : i32 (chunkGetSpan h₁.mem b.addr + chunkGetSpan h₁.mem d.addr)
              = (b.span + d.span : Nat) := hspan
          have hpos := (r.phys.good d hd).fits.pos
          rw [if_pos ⟨by omega, hfree⟩] at hl
          rcases List.mem_append.mp hl with hl | hl
          · exact r'.detach_partOf hcover hfree (by simpa using hparts) l hl
          · simp only [heq, behind, hsum] at hl
            exact Block.PartOf.setSpan (d := ⟨b.addr, b.span + d.span, .raw⟩) hmerged hfits
              h₁.mem l hl
        · rw [if_neg fun hc => hfree hc.2] at hl
          cases hl

/-- The lookups of the merges with the left neighbour. The span of the block is read from its
header, or it is in a variable. -/
theorem left_partOf (r : Rep binOf h g (pre ++ b :: suf) ls) (hcover : BinsCover binOf)
    (hpre : ∀ d ∈ pre, d.Settled) (hsmall : (absorbLeft pre b).2.Small)
    (hparts : ∀ d ∈ pre ++ b :: suf, d.PartOf P) (hmerged : (absorbLeft pre b).2.PartOf P)
    {span : Mem → Int} (hspan : ∀ m, chunkGetSpan m b.addr = b.span → span m = b.span) :
    ∀ l ∈ leftLookups binOf h b.addr span, l.PartOf P := by
  have hprev := r.prev_partOf hparts
  unfold leftLookups
  simp only [r.prevPhys]
  intro l hl
  rcases List.mem_cons.mp hl with rfl | hl
  · exact hprev
  · rcases List.eq_nil_or_concat pre with rfl | ⟨pre, d, rfl⟩
    · simp at hl
    · rw [List.concat_eq_append] at r hpre hsmall hparts hmerged hl
      have hd : d ∈ (pre ++ [d]) ++ b :: suf := by simp
      have hstatus := r.status_iff hd (hpre d (by simp))
      simp only [List.getLast?_concat, Option.map_some, Option.getD_some, hstatus] at hl
      by_cases hfree : d.state = .free
      · rw [List.append_assoc] at r hparts
        obtain ⟨h₁, ls₁, heq, -, r₁⟩ := Rep.detach_spec (show Rep binOf h g
          (pre ++ d :: (b :: suf)) ls from r) hcover hfree
        unfold absorbLeft at hsmall hmerged
        simp only [List.getLast?_concat, if_pos hfree] at hsmall hmerged
        obtain ⟨hsum, -, hfits⟩ := r₁.span_add hsmall
        have hself := hspan h₁.mem (r₁.phys.good b (by simp)).header
        rw [(r₁.phys.good b (by simp)).header, ← hself] at hsum
        have hsum' : i32 (chunkGetSpan h₁.mem d.addr + span h₁.mem) = (d.span + b.span : Nat) :=
          hsum
        have hpos := (r.phys.good d (by simp)).fits.pos
        rw [if_pos ⟨by omega, hfree⟩] at hl
        rcases List.mem_append.mp hl with hl | hl
        · exact Rep.detach_partOf r hcover hfree hparts l hl
        · simp only [heq, behind, hsum'] at hl
          exact Block.PartOf.setSpan (d := ⟨d.addr, d.span + b.span, .raw⟩) hmerged hfits
            h₁.mem l hl
      · rw [if_neg fun hc => hfree hc.2] at hl
        cases hl

/-- The lookups of `sys_grow`. The new block is set up, merged and put into its list. -/
theorem grow_partOf (r : Rep binOf h g bs ls) (hcover : BinsCover binOf) (hh : h.Bounded)
    (hsettled : ∀ b ∈ bs, b.Settled) (granted : Bool) {needUnits : Nat}
    (hunits : needUnits ≤ 2147483645)
    (hsmall : granted = true → h.brk + 16 * growSpan needUnits ≤ h.limit →
      (grown bs h.hi needUnits).2.Small)
    (hparts : ∀ d ∈ bs, d.PartOf P)
    (hgrown : granted = true → h.brk + 16 * growSpan needUnits ≤ h.limit →
      (grown bs h.hi needUnits).2.PartOf P) :
    ∀ l ∈ growLookups binOf h granted needUnits, l.PartOf P := by
  obtain ⟨n, hn⟩ : ∃ n, n = growSpan needUnits := ⟨_, rfl⟩
  obtain ⟨e, he⟩ : ∃ e : Block, e = ⟨h.hi, n, .raw⟩ := ⟨_, rfl⟩
  have hbrk := hh.brk
  have hlt := hh.limit_lt
  have hpos := r.phys.pos
  have hle := r.phys.tiles.le
  have hn_ge : 2 ≤ n := by
    have hgrow := le_growSpan needUnits
    omega
  have hn_le : n ≤ 2147483647 := hn ▸ growSpan_le hunits
  have heq : grown bs h.hi needUnits
      = ((absorbLeft bs e).1, { (absorbLeft bs e).2 with state := .free }) := by
    rw [he, hn]
    rfl
  unfold growLookups
  simp only [← hn, bmod_bytes hn_le]
  rcases hh.sbrk_cases hle granted (16 * n) with hrefused | ⟨htrue, hroom, hgranted⟩
  · rw [hrefused]
    simp
  · have hok : ¬ h.brk = sbrkFailed := by
      unfold sbrkFailed
      omega
    have hexact : i32 (n : Int) = n := i32_eq (by omega) (by omega)
    rw [hgranted]
    simp only [hexact, if_neg hok]
    have haddr : e.addr = h.hi := by rw [he]
    have hespan : e.span = n := by rw [he]
    have hraw : e.state = .raw := by rw [he]
    have hstop : h.hi + 16 * n = e.stop := by rw [he, Block.stop]
    have hmerged : (absorbLeft bs e).2.Small := by
      have hgrowSmall := hsmall htrue (hn ▸ hroom)
      rwa [heq] at hgrowSmall
    have hpart : (absorbLeft bs e).2.PartOf P := by
      have hgrowPart := hgrown htrue (hn ▸ hroom)
      rwa [heq] at hgrowPart
    have hesmall : e.Small := by
      have hle := le_absorbLeft_span bs e
      unfold Block.Small at hmerged ⊢
      omega
    have hfits : e.Fits := by
      rw [he] at hesmall ⊢
      exact ⟨by simp only; omega, hn_ge, hesmall, by simp only; omega⟩
    have hopen : e.Open := Or.inr hraw
    have r₁ := r.extend_init hraw haddr hfits
    rw [haddr, hespan, ← hstop, ← hbrk] at r₁
    obtain ⟨h₁, hh₁⟩ : ∃ h₁ : Heap ι, h₁ = Heap.setMem
      { h with brk := h.brk + 16 * n, hi := h.brk + 16 * n } (initBlock h.mem h.brk n chunkFree) :=
      ⟨_, rfl⟩
    rw [← hh₁] at r₁ ⊢
    have hepart : e.PartOf P := r₁.partOf_of_absorbLeft hpart
    have hparts₁ : ∀ d ∈ bs ++ [e], d.PartOf P := by
      intro d hd
      rcases List.mem_append.mp hd with hd | hd
      · exact hparts d hd
      · rw [List.mem_singleton.mp hd]
        exact hepart
    have hmerge := r₁.growMerge_eq hcover hopen hsettled hmerged
    obtain ⟨h₂, ls₂, hleft, -, r₂⟩ := r₁.coalesceLeft_spec hcover hopen hsettled hmerged
    have hbehind : growMerge binOf h₁ h.brk n = .ok (h₂, (absorbLeft bs e).2.addr) := by
      rw [← hleft, ← hmerge, haddr, hespan, hbrk]
    have headdr : h.brk = e.addr := hbrk.trans haddr.symm
    intro l hl
    rcases List.mem_append.mp hl with hl | hl
    · rw [headdr, ← hespan] at hl
      exact hepart.init hfits h.mem (Or.inl rfl) l hl
    · rcases List.mem_append.mp hl with hl | hl
      · rw [headdr] at hl
        exact r₁.left_partOf hcover hsettled hmerged hparts₁ hpart
          (fun _ _ => congrArg Int.ofNat hespan.symm) l hl
      · simp only [hbehind, behind] at hl
        refine r₂.insert_partOf hcover (absorbLeft_open hopen bs).ne_free (fun d hd => ?_) l hl
        rcases List.mem_append.mp hd with hd | hd
        · exact hparts d (mem_absorbLeft hd)
        · rw [List.mem_singleton.mp hd]
          exact hpart

/-- The lookups of the steps of `heapmgr_free`, as in `release_spec`. Each step leaves the blocks
that the next one looks at. -/
theorem release_partOf (r : Rep binOf h g (pre ++ b :: suf) ls) (hcover : BinsCover binOf)
    (hb : b.Open) (hpre : ∀ d ∈ pre, d.Settled) (hsuf : ∀ d ∈ suf, d.Settled)
    (hsmall : ∀ d ∈ release pre b suf, d.Small) (hparts : ∀ d ∈ pre ++ b :: suf, d.PartOf P)
    (hentry : ∀ d ∈ release pre b suf, P d.entry) :
    ∃ h₁ h₂ c h' ls', coalesceRight binOf h b.addr = .ok h₁ ∧
      coalesceLeft binOf h₁ b.addr = .ok (h₂, c) ∧ freelistInsert binOf h₂ c = .ok h' ∧
      (∀ l, l ∈ rightLookups binOf h b.addr ∨
        l ∈ leftLookups binOf h₁ b.addr (fun m => chunkGetSpan m b.addr) ∨
        l ∈ insertLookups binOf h₂ c → l.PartOf P) ∧
      Rep binOf h' g (release pre b suf) ls' := by
  obtain ⟨right, hright⟩ : ∃ right, right = absorbRight b suf := ⟨_, rfl⟩
  obtain ⟨left, hleft⟩ : ∃ left, left = absorbLeft pre right.1 := ⟨_, rfl⟩
  have hrelease : release pre b suf = left.1 ++ { left.2 with state := .free } :: right.2 := by
    rw [hleft, hright]
    rfl
  have hmem : { left.2 with state := .free } ∈ release pre b suf := by
    rw [hrelease]
    exact List.mem_append_right _ List.mem_cons_self
  have hsmall₂ : left.2.Small := hsmall { left.2 with state := .free } hmem
  have hsmall₁ : right.1.Small := by
    have hle := le_absorbLeft_span pre right.1
    rw [← hleft] at hle
    unfold Block.Small at hsmall₂ ⊢
    omega
  have hopen₁ : right.1.Open := hright ▸ absorbRight_open hb suf
  have hopen₂ : left.2.Open := hleft ▸ absorbLeft_open hopen₁ pre
  have haddr : right.1.addr = b.addr := hright ▸ absorbRight_addr b suf
  -- The heaps after the two merges and after the insertion.
  obtain ⟨h₁, ls₁, heq₁, -, r₁⟩ := r.coalesceRight_spec hcover hb hsuf (hright ▸ hsmall₁)
  rw [← hright] at r₁
  obtain ⟨h₂, ls₂, heq₂, -, r₂⟩ := r₁.coalesceLeft_spec hcover hopen₁ hpre (hleft ▸ hsmall₂)
  rw [← hleft, haddr] at heq₂
  rw [← hleft] at r₂
  obtain ⟨h₃, ls₃, heq₃, -, r₃⟩ := r₂.insert_spec hcover hopen₂.ne_free
  rw [← hrelease] at r₃
  -- The last merged block has all the others as parts.
  have hpart₂ : left.2.PartOf P := by
    have hge := (r₃.phys.good _ hmem).fits.span_ge
    exact Block.PartOf.self (d := { left.2 with state := .free }) (Nat.le_of_succ_le hge)
      (hentry _ hmem)
  have hpart₁ : right.1.PartOf P := r₁.partOf_of_absorbLeft (hleft ▸ hpart₂)
  have hparts₁ : ∀ d ∈ pre ++ right.1 :: right.2, d.PartOf P := by
    intro d hd
    rcases List.mem_append.mp hd with hd | hd
    · exact hparts d (by simp [hd])
    · rcases List.mem_cons.mp hd with rfl | hd
      · exact hpart₁
      · rw [hright] at hd
        exact hparts d (by simp [mem_absorbRight hd])
  have hparts₂ : ∀ d ∈ left.1 ++ left.2 :: right.2, d.PartOf P := by
    intro d hd
    rcases List.mem_append.mp hd with hd | hd
    · rw [hleft] at hd
      exact hparts d (by simp [mem_absorbLeft hd])
    · rcases List.mem_cons.mp hd with rfl | hd
      · exact hpart₂
      · exact hparts₁ d (by simp [hd])
  refine ⟨h₁, h₂, _, h₃, ls₃, heq₁, heq₂, heq₃, fun l hl => ?_, r₃⟩
  rcases hl with hl | hl | hl
  · exact r.right_partOf hcover hsuf (hright ▸ hsmall₁) hparts (hright ▸ hpart₁) l hl
  · rw [← haddr] at hl
    exact r₁.left_partOf hcover hpre (hleft ▸ hsmall₂) hparts₁ (hleft ▸ hpart₂)
      (fun _ hspan => hspan) l hl
  · exact r₂.insert_partOf hcover hopen₂.ne_free hparts₂ l hl

end

end Rep

/-! ### `do_alloc` -/

/-- The lookups of `do_alloc` are about parts of the free block that it carves, and of the others in
the lists. -/
def AllocParts {ι : Type} (mgr : Manager ι) (alloc : Heap ι → Nat → Int → List Lookup) : Prop :=
  ∀ (h : Heap ι) (g : Mem) (pre suf : List Block) (b : Block) (ls : ι → List Nat) (need : Nat)
    (P : PhysBlock → Prop), Rep mgr.binOf h g (pre ++ b :: suf) ls → b.state = .free → 2 ≤ need →
    need ≤ b.span → (∀ d ∈ pre ++ b :: suf, d.PartOf P) → ∀ l ∈ alloc h b.addr need, l.PartOf P

/-- `heapmgr1` cuts the new block from the end of the free one, which keeps its place. -/
theorem Heapmgr1.allocParts : AllocParts manager allocLookups := by
  intro h g pre suf b ls need P r hfree hneed hspan hparts
  have hb : b ∈ pre ++ b :: suf := by simp
  have hgood := r.phys.good b hb
  have hpart := hparts b hb
  unfold allocLookups
  simp only [remain_eq hgood hspan]
  by_cases hsplit : need + 2 ≤ b.span
  · obtain ⟨f, hf⟩ : ∃ f : Block, f = ⟨b.addr, b.span - need, .free⟩ := ⟨_, rfl⟩
    obtain ⟨u, hu⟩ : ∃ u : Block, u = ⟨b.addr + 16 * (b.span - need), need, .used⟩ := ⟨_, rfl⟩
    have hfits := fits_parts hgood.fits (show 2 ≤ b.span - need by omega) (by omega) .free .used
    rw [show b.span - (b.span - need) = need by omega, ← hf, ← hu] at hfits
    have hfaddr : f.addr = b.addr := by rw [hf]
    have hfspan : f.span = b.span - need := by rw [hf]
    have huaddr : u.addr = b.addr + 16 * (b.span - need) := by rw [hu]
    have huspan : u.span = need := by rw [hu]
    have hfpart : f.PartOf P := hpart.sub (by omega) (by omega) (by
      unfold Block.stop
      omega)
    have hupart : u.PartOf P := hpart.sub (by omega) (by omega) (by
      unfold Block.stop
      omega)
    have hraw : Good (chunkSetSpan h.mem f.addr f.span) g { f with state := .raw } :=
      good_setSpan hfits.1
    rw [if_pos (by omega), part_eq hgood.fits (show b.span - need ≤ b.span by omega), ← huaddr,
      ← hfspan, ← hfaddr, ← huspan]
    intro l hl
    rcases List.mem_cons.mp hl with rfl | hl
    · rw [hfaddr]
      exact hpart.footer hgood.header
    · rcases List.mem_append.mp hl with hl | hl
      · exact hfpart.setSpan hfits.1 h.mem l hl
      · rcases List.mem_cons.mp hl with rfl | hl
        · exact hfpart.footer hraw.header
        · exact hupart.init hfits.2 _ (Or.inr rfl) l hl
  · rw [if_neg (by omega)]
    exact r.detach_partOf cover hfree hparts

/-- `heapmgr2` cuts the new block from the beginning, and puts the rest into its own list. -/
theorem Heapmgr2.allocParts : AllocParts manager allocLookups := by
  intro h g pre suf b ls need P r hfree hneed hspan hparts
  have hb : b ∈ pre ++ b :: suf := by simp
  have hgood := r.phys.good b hb
  have hpart := hparts b hb
  obtain ⟨h₁, ls₁, heq, -, r₁⟩ := r.detach_spec cover hfree
  have heq' : freelistDetach h b.addr = .ok h₁ := heq
  unfold allocLookups
  simp only [remain_eq hgood hspan, heq', behind]
  intro l hl
  rcases List.mem_append.mp hl with hl | hl
  · exact r.detach_partOf cover hfree hparts l hl
  · by_cases hsplit : need + 2 ≤ b.span
    · obtain ⟨u, hu⟩ : ∃ u : Block, u = ⟨b.addr, need, .used⟩ := ⟨_, rfl⟩
      obtain ⟨e, he⟩ : ∃ e : Block, e = ⟨b.addr + 16 * need, b.span - need, .raw⟩ := ⟨_, rfl⟩
      have hfits := fits_parts hgood.fits hneed hsplit .used .raw
      rw [← hu, ← he] at hfits
      have huaddr : u.addr = b.addr := by rw [hu]
      have huspan : u.span = need := by rw [hu]
      have headdr : e.addr = b.addr + 16 * need := by rw [he]
      have hespan : e.span = b.span - need := by rw [he]
      have hestate : e.state = .raw := by rw [he]
      have hupart : u.PartOf P := hpart.sub (by omega) (by omega) (by
        unfold Block.stop
        omega)
      have hepart : e.PartOf P := hpart.sub (by omega) (by omega) (by
        unfold Block.stop
        omega)
      have r₂ := r₁.splitFront (Or.inl rfl) hu he hneed hsplit
      have r₂' := show Rep binOf _ g (pre ++ ([u] ++ (e :: suf))) ls₁ from r₂
      rw [← List.append_assoc] at r₂'
      rw [if_pos (by omega), part_eq hgood.fits hspan, ← headdr, ← hespan, ← huspan, ← huaddr] at hl
      have hraw : Good (chunkSetSpan (initBlock h₁.mem u.addr u.span chunkUsed) e.addr e.span) g
          { e with state := .raw } := good_setSpan hfits.2
      rcases List.mem_append.mp hl with hl | hl
      · exact hupart.init hfits.1 h₁.mem (Or.inr rfl) l hl
      · rcases List.mem_append.mp hl with hl | hl
        · exact hepart.setSpan hfits.2 _ l hl
        · rcases List.mem_cons.mp hl with rfl | hl
          · exact hepart.footer
              (hraw.setNextFree BlockState.noConfusion (Nat.two_pow_pos 64)).1.header
          · refine r₂'.insert_partOf cover (by rw [hestate]; decide) (fun d hd => ?_) l hl
            rcases List.mem_append.mp hd with hd | hd
            · rcases List.mem_append.mp hd with hd | hd
              · exact hparts d (by simp [hd])
              · rw [List.mem_singleton.mp hd]
                exact hupart
            · rcases List.mem_cons.mp hd with rfl | hd
              · exact hepart
              · exact hparts d (by simp [hd])
    · rw [if_neg (by omega)] at hl
      cases hl

/-! ### `check_heap_validity` -/

namespace Rep

variable {ι : Type} {binOf : Int → Option ι} {h : Heap ι} {g : Mem} {bs pre suf : List Block}
  {ls : ι → List Nat} {P : PhysBlock → Prop}

/-- The walk over the blocks from any of them on. It looks the footers and the neighbours of the
blocks up, one block after the other. -/
theorem checkBlocks_partOf (r : Rep binOf h g (pre ++ suf) ls)
    (hparts : ∀ d ∈ pre ++ suf, d.PartOf P) (fuel prevW : Nat) :
    ∀ l ∈ checkBlocksLookups h fuel prevW ((suf.head?.map Block.addr).getD 0), l.PartOf P := by
  -- The walk has passed `pre` and stands at the first block of `suf`.
  induction fuel generalizing pre suf prevW with
  | zero =>
      intro l hl
      cases hl
  | succ fuel ih =>
      cases suf with
      | nil => simp [checkBlocksLookups]
      | cons b suf =>
          have hb : b ∈ pre ++ b :: suf := by simp
          have hgood := r.phys.good b hb
          have hpos := hgood.fits.pos
          have hnext := r.nextPhys
          have happend : pre ++ b :: suf = (pre ++ [b]) ++ suf := by simp
          have hfoot := (hparts b hb).footer hgood.header
          rw [happend] at r hparts
          have hrest := ih r hparts b.addr
          rw [List.head?_cons, Option.map_some, Option.getD_some, checkBlocksLookups,
            if_neg (by omega), hnext]
          intro l hl
          rcases List.mem_append.mp hl with hl | hl
          · unfold validLookups at hl
            split at hl
            · cases hl
            · rw [List.mem_singleton.mp hl]
              exact hfoot
          · split at hl
            · cases hl
            · split at hl
              · cases hl
              · rcases List.mem_cons.mp hl with rfl | hl
                · exact hfoot
                · exact hrest l hl

section
variable [DecidableEq ι]

/-- The walk over a list from any of its nodes on. The nodes of the list are blocks of the heap. -/
theorem checkList_partOf (r : Rep binOf h g bs ls) (hparts : ∀ d ∈ bs, d.PartOf P) {i : ι}
    {xs ys : List Nat} (hls : ls i = xs ++ ys) (fuel : Nat) :
    ∀ l ∈ checkListLookups binOf h i fuel (ys.head?.getD 0), l.PartOf P := by
  have hnode : ∀ c ∈ ls i, (Lookup.footer h.mem c).PartOf P := by
    intro c hc
    obtain ⟨b, hb, rfl, -⟩ := r.block_of_mem hc
    exact (hparts b hb).footer (r.phys.good b hb).header
  -- The walk has passed the nodes `xs` and stands at the first of `ys`.
  induction fuel generalizing xs ys with
  | zero =>
      intro l hl
      cases hl
  | succ fuel ih =>
      cases ys with
      | nil => simp [checkListLookups]
      | cons c ys =>
          have hlinked := r.linked i
          rw [hls] at hlinked
          have hnext := hlinked.next_eq
          have hmem : c ∈ ls i := by
            rw [hls]
            simp
          have hbehind : chunkGetNextFree h.mem c ≠ 0 → chunkGetNextFree h.mem c ∈ ls i :=
            r.next_mem hls
          have hrest := ih (show ls i = (xs ++ [c]) ++ ys by rw [hls]; simp)
          rw [← hnext] at hrest
          rw [List.head?_cons, Option.getD_some, checkListLookups]
          split
          · intro l hl
            cases hl
          · intro l hl
            rcases List.mem_cons.mp hl with rfl | hl
            · exact hnode c hmem
            · split at hl
              · cases hl
              · split at hl
                · cases hl
                · rcases List.mem_append.mp hl with hl | hl
                  · split at hl
                    case isTrue hne =>
                      rw [List.mem_singleton.mp hl]
                      exact hnode _ (hbehind hne)
                    case isFalse => cases hl
                  · split at hl
                    · cases hl
                    · split at hl
                      · cases hl
                      · exact hrest l hl

/-- The lookups of the check of the lists are at parts of the blocks. -/
theorem checkLists_partOf (r : Rep binOf h g bs ls) (hparts : ∀ d ∈ bs, d.PartOf P)
    (bins : List ι) : ∀ l ∈ checkListsLookups binOf h bins, l.PartOf P := by
  induction bins with
  | nil =>
      intro l hl
      cases hl
  | cons i bins ih =>
      have hsplit : ls i = [] ++ ls i := rfl
      rw [checkListsLookups, r.checkList_head i]
      intro l hl
      rcases List.mem_append.mp hl with hl | hl
      · rw [(r.linked i).head_eq] at hl
        exact r.checkList_partOf hparts hsplit (2 ^ 64) l hl
      · exact ih l hl

/-- The lookups of `check_heap_validity`. It walks over the blocks and over the lists, and writes
nothing. -/
theorem check_partOf (r : Rep binOf h g bs ls) (hparts : ∀ d ∈ bs, d.PartOf P) (bins : List ι) :
    ∀ l ∈ checkLookups binOf bins h, l.PartOf P := by
  unfold checkLookups
  split
  case isTrue =>
    intro l hl
    cases hl
  case isFalse hne =>
    have hempty : bs ≠ [] := by
      rintro rfl
      exact hne (Or.inr (Or.inr r.phys.tiles))
    obtain ⟨b, rest, rfl⟩ := List.exists_cons_of_ne_nil hempty
    have hlo : b.addr = h.lo := r.phys.tiles.1
    have hwalk := Rep.checkBlocks_partOf (show Rep binOf h g ([] ++ b :: rest) ls from r) hparts
      (2 ^ 64) 0
    rw [List.head?_cons, Option.map_some, Option.getD_some, hlo] at hwalk
    intro l hl
    rcases List.mem_append.mp hl with hl | hl
    · exact hwalk l hl
    · obtain ⟨ok, -, hl⟩ := mem_behind.mp hl
      cases ok with
      | true => exact r.checkLists_partOf hparts bins l hl
      | false => cases hl

end

end Rep

/-! ### The two calls -/

section
variable {ι : Type} [DecidableEq ι] {mgr : Manager ι} {alloc : Heap ι → Nat → Int → List Lookup}
  {h : Heap ι} {g : Mem} {bs pre suf : List Block} {b u : Block} {ls : ι → List Nat} {need : Nat}
  {P : PhysBlock → Prop} {s : Client ι}

/-- The lookups of an assertion. -/
theorem Rep.assert_partOf (r : Rep mgr.binOf h g bs ls) (debug : Bool)
    (hparts : ∀ d ∈ bs, d.PartOf P) : ∀ l ∈ assertLookups mgr debug h, l.PartOf P := by
  unfold assertLookups
  cases debug with
  | true => exact r.check_partOf hparts mgr.bins
  | false =>
      intro l hl
      cases hl

/-- The parts of a block that is carved. They have a unit at least, and lie between its start and
its end. -/
theorem Carved.sub {mid : List Block} (hcarved : Carved b need mid u) (hneed : 2 ≤ need)
    (hspan : need ≤ b.span) {d : Block} (hd : d ∈ mid) :
    1 ≤ d.span ∧ b.addr ≤ d.addr ∧ d.stop ≤ b.stop := by
  unfold Block.stop
  cases hcarved with
  | whole hwhole =>
      rw [List.mem_singleton.mp hd]
      exact ⟨by simp only; omega, Nat.le_refl _, Nat.le_refl _⟩
  | back hback =>
      rcases List.mem_cons.mp hd with rfl | hd
      · simp only
        omega
      · rw [List.mem_singleton.mp hd]
        simp only
        omega
  | front hfront =>
      rcases List.mem_cons.mp hd with rfl | hd
      · simp only
        omega
      · rw [List.mem_singleton.mp hd]
        simp only
        omega

/-- The lookups of a `do_alloc` and of the assertion behind it. -/
theorem Rep.carve_partOf (hs : mgr.Sound) (halloc : AllocParts mgr alloc) (debug : Bool)
    (r : Rep mgr.binOf h g (pre ++ b :: suf) ls) (hfree : b.state = .free) (hneed : 2 ≤ need)
    (hspan : need ≤ b.span) (hparts : ∀ d ∈ pre ++ b :: suf, d.PartOf P) :
    ∀ l ∈ carveLookups mgr alloc debug h b.addr need, l.PartOf P := by
  obtain ⟨h', ls', mid, u, heq, -, hcarved, r'⟩ :=
    hs.alloc h g pre suf b ls need r hfree hneed hspan
  intro l hl
  rcases List.mem_append.mp hl with hl | hl
  · exact halloc h g pre suf b ls need P r hfree hneed hspan hparts l hl
  · simp only [heq, behind] at hl
    refine r'.assert_partOf debug (fun d hd => ?_) l hl
    rcases List.mem_append.mp hd with hd | hd
    · exact hparts d (by simp [hd])
    · rcases List.mem_append.mp hd with hd | hd
      · obtain ⟨hpos, haddr, hstop⟩ := hcarved.sub hneed hspan hd
        exact (hparts b (by simp)).sub hpos haddr hstop
      · exact hparts d (by simp [hd])

/-- The lookups of `heapmgr_malloc` behind the bootstrap. They are those of the block that is found,
or of the growth and the new block. -/
theorem Rest.allocUnits_partOf (hs : mgr.Sound) (halloc : AllocParts mgr alloc) (debug : Bool)
    (r : Rest mgr h g bs ls) {env : Sbrk} {size : UInt64} (hunits : needUnits size ≤ 2147483645)
    (hparts : ∀ d ∈ bs, d.PartOf P)
    (hgrows : (∀ b ∈ bs, b.state = .free → b.span < needUnits size + 2) → Granted h env size →
      (grown bs h.hi (needUnits size)).2.Small ∧ (grown bs h.hi (needUnits size)).2.PartOf P) :
    ∀ l ∈ allocUnitsLookups mgr alloc debug h env (needUnits size), l.PartOf P := by
  unfold allocUnitsLookups
  simp only [i32_units hunits, r.assertValid_eq debug]
  intro l hl
  rcases List.mem_append.mp hl with hl | hl
  · exact r.rep.assert_partOf debug hparts l hl
  rcases r.searchFree_cases hs hunits with ⟨hnone, hnofit⟩ | ⟨b, hb, hfree, hspan, hsome⟩
  · -- The heap grows, and the block at its end is carved.
    have hsmall := fun hextend hroom => (hgrows hnofit ⟨hextend, hroom⟩).1
    simp only [hnone, behind] at hl
    rcases List.mem_append.mp hl with hl | hl
    · exact r.rep.grow_partOf hs.cover r.bounded r.settled env.extend hunits hsmall hparts
        (fun hextend hroom => (hgrows hnofit ⟨hextend, hroom⟩).2) l hl
    · rcases r.rep.grow_spec hs.cover r.bounded r.settled env.extend hunits hsmall with
        hrefused | ⟨h₁, ls₁, heq, -, -, -, hbrk, r₁⟩
      · simp only [hrefused, if_true] at hl
        exact r.rep.assert_partOf debug hparts l hl
      · have hpos := (r₁.phys.good (grown bs h.hi (needUnits size)).2 (by simp)).fits.pos
        simp only [heq, if_neg (show ¬ (grown bs h.hi (needUnits size)).2.addr = 0 by omega)] at hl
        refine Rep.carve_partOf hs halloc debug r₁ rfl (by omega)
          (le_grown_span bs h.hi (needUnits size)) (fun d hd => ?_) l hl
        rcases List.mem_append.mp hd with hd | hd
        · exact hparts d (mem_absorbLeft hd)
        · rw [List.mem_singleton.mp hd]
          rcases r.sysGrow_brk hunits heq with ⟨hgranted, -⟩ | ⟨-, rfl, -⟩
          · exact (hgrows hnofit hgranted).2
          · exact absurd hbrk (Nat.lt_irrefl _)
  · obtain ⟨pre, suf, rfl⟩ := List.append_of_mem hb
    simp only [hsome, behind] at hl
    exact r.rep.carve_partOf hs halloc debug hfree (by omega) hspan hparts l hl

/-- The lookups of `heapmgr_malloc` on a heap that is set up. `P` has the blocks of the heap, and
the block that the new memory makes. -/
theorem Rest.malloc_partOf (hs : mgr.Sound) (halloc : AllocParts mgr alloc) (debug : Bool)
    (r : Rest mgr h g bs ls) {env : Sbrk} {size : UInt64} (hsize : size.toNat ≤ maxSize)
    (hpos : 0 < size) (hfit : GrowthFits h env size) (hheap : ∀ e ∈ layout h, P e)
    (hgrown : Grows h env size →
      ∀ e ∈ mergeFree (layout h ++ [⟨h.brk, growSpan (needUnits size), chunkFree⟩]), P e) :
    ∀ l ∈ allocUnitsLookups mgr alloc debug h env (needUnits size), l.PartOf P := by
  refine r.allocUnits_partOf hs halloc debug (needUnits_le hsize) (fun d hd => ?_)
    fun hnofit hgranted => ⟨r.small_of_growthFits hpos hfit hnofit hgranted.1 hgranted.2, ?_⟩
  · have hspan := (r.rep.phys.good d hd).fits.span_ge
    refine Block.PartOf.self (by omega) (hheap _ ?_)
    rw [r.layout_eq]
    exact List.mem_map_of_mem hd
  · have hnone : ¬ HasFit h (needSpan size) := by
      rw [needSpan_eq, r.hasFit_iff]
      intro ⟨b, hb, hfree, hspan⟩
      have hlt := hnofit b hb hfree
      omega
    have hspan := le_grown_span bs h.hi (needUnits size)
    refine Block.PartOf.self (by omega) (hgrown ⟨hpos, hnone, hgranted⟩ _ ?_)
    rw [r.layout_append, ← map_entry_coalesceFree, ← release_eq_coalesce
      (b := ⟨h.hi, growSpan (needUnits size), .raw⟩) r.adj List.isChain_nil]
    exact List.mem_map_of_mem (List.mem_append_right _ List.mem_cons_self)

/-- The lookups of `heapmgr_free`. The merged block is in the heap that the call leaves. -/
theorem Rest.free_partOf (hs : mgr.Sound) (debug : Bool) (r : Rest mgr h g (pre ++ u :: suf) ls)
    (hlive : u.state = .live) (hfit : FreesFit h [u.addr + 16]) (hheap : ∀ e ∈ layout h, P e)
    (hmerged : ∀ e ∈ mergeFree ((layout h).map (markFree [u.addr + 16])), P e) :
    ∀ l ∈ freeLookups mgr debug h (u.addr + 16), l.PartOf P := by
  have hgood := r.rep.phys.good u (by simp)
  have hspan := hgood.fits.span_ge
  have hstop := hgood.fits.stop_lt
  have hchunk : ptrAdd (u.addr + 16) (-chunkUnit) = u.addr := ptrAdd_neg_chunkUnit (by omega)
  have hstatus : chunkGetStatus h.mem u.addr = chunkUsed := hgood.used (Or.inr hlive)
  have hparts : ∀ d ∈ pre ++ u :: suf, d.PartOf P := by
    intro d hd
    have hdspan := (r.rep.phys.good d hd).fits.span_ge
    refine Block.PartOf.self (by omega) (hheap _ ?_)
    rw [r.layout_eq]
    exact List.mem_map_of_mem hd
  have hparts₀ : ∀ d ∈ pre ++ { u with state := .used } :: suf, d.PartOf P := by
    intro d hd
    rcases List.mem_append.mp hd with hd | hd
    · exact hparts d (by simp [hd])
    · rcases List.mem_cons.mp hd with rfl | hd
      · exact hparts u (by simp)
      · exact hparts d (by simp [hd])
  have hentry : ∀ d ∈ release pre { u with state := .used } suf, P d.entry := by
    intro d hd
    have hadj := (noAdjacentFree_middle (by rw [hlive]; decide)).mp r.adj
    refine hmerged _ ?_
    rw [r.layout_eq, ← r.entry_freed, r.map_freed hlive, ← release_eq_coalesce
      (b := { u with state := .used }) hadj.1 hadj.2]
    exact List.mem_map_of_mem hd
  have r₀ := r.rep.restate .used (Or.inr hlive) (Or.inl rfl) fun hused => by cases hused
  obtain ⟨h₁, h₂, c, h₃, ls₃, hright, hleft, hinsert, hlookups, r₃⟩ :=
    r₀.release_partOf hs.cover (Or.inl rfl) (fun d hd => r.settled d (by simp [hd]))
      (fun d hd => r.settled d (by simp [hd])) (r.small_release hlive hfit) hparts₀ hentry
  have hright' : coalesceRight mgr.binOf h u.addr = .ok h₁ := hright
  have hleft' : coalesceLeft mgr.binOf h₁ u.addr = .ok (h₂, c) := hleft
  unfold freeLookups
  simp only [hchunk, hstatus, r.assertValid_eq debug, behind, hright', hleft', hinsert]
  rw [if_neg (by omega), if_neg fun hc => hc.2 rfl]
  intro l hl
  rcases List.mem_append.mp hl with hl | hl
  · exact r.rep.assert_partOf debug hparts l hl
  rcases List.mem_append.mp hl with hl | hl
  · exact hlookups l (Or.inl hl)
  rcases List.mem_append.mp hl with hl | hl
  · exact hlookups l (Or.inr (Or.inl hl))
  rcases List.mem_append.mp hl with hl | hl
  · exact hlookups l (Or.inr (Or.inr hl))
  · refine r₃.assert_partOf debug (fun d hd => ?_) l hl
    have hdspan := (r₃.phys.good d hd).fits.span_ge
    exact Block.PartOf.self (by omega) (hentry d hd)

/-- Every address that a call computes is one of a part of a block that it works on. -/
theorem Client.Inv.lookups_partOf (hs : mgr.Sound) (halloc : AllocParts mgr alloc) (debug : Bool)
    (hinv : Client.Inv mgr s) {a : Call} (hlegal : s.Legal a) (hfit : s.SizesFit a) :
    ∀ l ∈ s.lookups mgr alloc debug a, l.PartOf fun b => s.Handles b a := by
  have hnone : ∀ l ∈ ([] : List Lookup), l.PartOf fun b => s.Handles b a := by
    intro l hl
    cases hl
  cases a with
  | write x v => exact hnone
  | malloc size env =>
      rw [Client.lookups, mallocLookups]
      by_cases hzero : size = 0
      · rw [if_pos hzero]
        exact hnone
      rw [if_neg hzero]
      have hpos := UInt64.pos_iff_ne_zero.mpr hzero
      intro l hl
      obtain ⟨h₀, hsearched, hl⟩ := mem_behind.mp hl
      obtain ⟨hf, -⟩ | ⟨bs, ls, r, -⟩ := hinv
      · -- The first call sets the heap up, which changes neither its blocks nor its break.
        rcases hf.malloc_cases hs debug env hzero with ⟨hexit, hquery⟩ |
          ⟨h₁, r, hsearched', hrange, hbrk, hlayout, -⟩
        · unfold searchedHeap heapBootstrap Heap.sbrk at hsearched
          rw [hf.booted, hquery] at hsearched
          simp at hsearched
        · cases hsearched.symm.trans hsearched'
          refine r.malloc_partOf hs halloc debug hlegal hpos (hfit.congr hrange hbrk hlayout)
            (fun e he => Or.inl (hlayout ▸ he)) (fun hgrows e he => Or.inr ⟨?_, ?_⟩) l hl
          · unfold Grows HasFit at hgrows ⊢
            rwa [hlayout, ← hbrk, ← hrange.limit]
          · rwa [hlayout, ← hbrk]
      · cases hsearched.symm.trans (r.searchedHeap_eq env)
        exact r.malloc_partOf hs halloc debug hlegal hpos hfit (fun e he => Or.inl he)
          (fun hgrows e he => Or.inr ⟨hgrows, he⟩) l hl
  | free p =>
      rw [Client.lookups]
      rcases hlegal with rfl | ⟨q, hq, rfl⟩
      · exact hnone
      · obtain ⟨-, hnil⟩ | ⟨bs, ls, r, hserves⟩ := hinv
        · rw [hnil] at hq
          cases hq
        · obtain ⟨u, hu, haddr, -⟩ := hserves.block q hq
          obtain ⟨hmem, hlive⟩ := mem_liveBlocks.mp hu
          obtain ⟨pre, suf, rfl⟩ := List.append_of_mem hmem
          have hfit' : FreesFit s.heap [u.addr + 16] := haddr ▸ hfit
          rw [haddr]
          exact r.free_partOf hs debug hlive hfit' (fun e he => Or.inl he)
            fun e he => Or.inr he

/-- Every address that a call computes is exact, when the call makes no block of more than `INT_MAX`
bytes. -/
theorem Client.Inv.lookups_exact (hs : mgr.Sound) (halloc : AllocParts mgr alloc) (debug : Bool)
    (hinv : Client.Inv mgr s) {a : Call} (hlegal : s.Legal a) (hfit : s.SizesFit a) :
    ∀ l ∈ s.lookups mgr alloc debug a, l.Exact := by
  intro l hl
  obtain ⟨b, hb, hin⟩ := hinv.lookups_partOf hs halloc debug hlegal hfit l hl
  exact hin.exact (hinv.partsExact hfit hb)

end

/-- Inside the calls no address is wrong either. In every run that makes no block of more than
`INT_MAX` bytes, every footer and every neighbour that the next call computes is exact, if this call
makes no such block either. The headers have their values of that moment, and the assertions of a
debug build are a part of the calls. -/
theorem call_addresses_exact {debug : Bool} {mem : Mem} {brk limit : Nat}
    (haddr : AddressRange brk limit) :
    (∀ calls (s : Client Unit) out,
      run (clientStep Heapmgr1.manager debug) (Client.start mem brk limit) calls = some (s, out) →
      CallsFit Heapmgr1.manager debug (Client.start mem brk limit) calls →
      ∀ a, s.Legal a → s.SizesFit a →
        ∀ l ∈ s.lookups Heapmgr1.manager Heapmgr1.allocLookups debug a, l.Exact) ∧
    ∀ calls (s : Client (Fin Heapmgr2.numBins)) out,
      run (clientStep Heapmgr2.manager debug) (Client.start mem brk limit) calls = some (s, out) →
      CallsFit Heapmgr2.manager debug (Client.start mem brk limit) calls →
      ∀ a, s.Legal a → s.SizesFit a →
        ∀ l ∈ s.lookups Heapmgr2.manager Heapmgr2.allocLookups debug a, l.Exact := by
  constructor
  · intro calls s out hrun hcalls a hlegal hfit
    have hinv := Client.inv_run Heapmgr1.sound haddr hcalls hrun
    exact hinv.lookups_exact Heapmgr1.sound Heapmgr1.allocParts debug hlegal hfit
  · intro calls s out hrun hcalls a hlegal hfit
    have hinv := Client.inv_run Heapmgr2.sound haddr hcalls hrun
    exact hinv.lookups_exact Heapmgr2.sound Heapmgr2.allocParts debug hlegal hfit

/-- The free of a block between two free ones, with both managers. The first one looks 22 addresses
up, and the second one 20. -/
theorem call_addresses_exact_merge :
    (∃ s : Client Unit,
      run (clientStep Heapmgr1.manager true) (Client.start ⟨fun _ => 0⟩ 4096 100000)
        [.malloc 100 ⟨true, true⟩, .malloc 200 ⟨true, true⟩, .free 12192]
        = some (s, [12192, 11952]) ∧
      (s.lookups Heapmgr1.manager Heapmgr1.allocLookups true (.free 11952)).length = 22 ∧
      ∀ l ∈ s.lookups Heapmgr1.manager Heapmgr1.allocLookups true (.free 11952), l.Exact) ∧
    ∃ s : Client (Fin Heapmgr2.numBins),
      run (clientStep Heapmgr2.manager true) (Client.start ⟨fun _ => 0⟩ 4096 100000)
        [.malloc 100 ⟨true, true⟩, .malloc 200 ⟨true, true⟩, .free 4112]
        = some (s, [4112, 4256]) ∧
      (s.lookups Heapmgr2.manager Heapmgr2.allocLookups true (.free 4256)).length = 20 ∧
      ∀ l ∈ s.lookups Heapmgr2.manager Heapmgr2.allocLookups true (.free 4256), l.Exact := by
  have hbreak : BreakRange 4096 100000 := ⟨by decide, by decide, by decide, by decide⟩
  have hmap₁ : (run (clientStep Heapmgr1.manager true) (Client.start ⟨fun _ => 0⟩ 4096 100000)
      [.malloc 100 ⟨true, true⟩, .malloc 200 ⟨true, true⟩, .free 12192]).map (fun r => (r.2,
        decide (r.1.Legal (.free 11952)),
        (r.1.lookups Heapmgr1.manager Heapmgr1.allocLookups true (.free 11952)).length))
      = some ([12192, 11952], true, 22) := by decide +kernel
  have hmap₂ : (run (clientStep Heapmgr2.manager true) (Client.start ⟨fun _ => 0⟩ 4096 100000)
      [.malloc 100 ⟨true, true⟩, .malloc 200 ⟨true, true⟩, .free 4112]).map (fun r => (r.2,
        decide (r.1.Legal (.free 4256)),
        (r.1.lookups Heapmgr2.manager Heapmgr2.allocLookups true (.free 4256)).length))
      = some ([4112, 4256], true, 20) := by decide +kernel
  obtain ⟨⟨s, _⟩, hrun₁, heq₁⟩ := Option.map_eq_some_iff.mp hmap₁
  obtain ⟨⟨t, _⟩, hrun₂, heq₂⟩ := Option.map_eq_some_iff.mp hmap₂
  simp only [Prod.mk.injEq, decide_eq_true_eq] at heq₁ heq₂
  obtain ⟨rfl, hlegal₁, hlength₁⟩ := heq₁
  obtain ⟨rfl, hlegal₂, hlength₂⟩ := heq₂
  have hexact := @call_addresses_exact true ⟨fun _ => 0⟩ 4096 100000 hbreak.addresses
  -- In a heap of this size no call makes a block that is too large.
  exact ⟨⟨s, hrun₁, hlength₁, hexact.1 _ s _ hrun₁ (callsFit_of_breakRange Heapmgr1.sound hbreak _)
      _ hlegal₁ ((Client.inv_run_of_breakRange Heapmgr1.sound hbreak hrun₁).2 _)⟩,
    t, hrun₂, hlength₂, hexact.2 _ t _ hrun₂ (callsFit_of_breakRange Heapmgr2.sound hbreak _)
      _ hlegal₂ ((Client.inv_run_of_breakRange Heapmgr2.sound hbreak hrun₂).2 _)⟩

end SysProg.Memory
