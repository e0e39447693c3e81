import SysProg.Memory.Heapmgr1
import SysProg.Memory.Heapmgr2
import SysProg.Proofs.Memory.Merge

/-!
# `SysProg.Proofs.Memory.Carve`: cutting a block out of a free one

`Carved b need mid u` lists the ways in which `do_alloc` may turn the free block `b` into the
blocks `mid`, with the new block `u` among them: the whole of `b`, its end or its beginning.

* `Heapmgr1.doAlloc_spec` and `Heapmgr2.doAlloc_spec`: each manager carves.
* `Manager.Complete`: a search looks into the list of every span that is large enough. For
  `heapmgr2` this rests on `getBinIndex_mono`.
* `Manager.Sound` collects what the later proofs need of a manager, and `Heapmgr1.sound` and
  `Heapmgr2.sound` provide it.
-/

set_option autoImplicit false

namespace SysProg.Memory

open SysProg.Lib

/-- The blocks `mid` that a free block `b` is turned into for a span of `need` units. The new
block is `u`. -/
inductive Carved (b : Block) (need : Nat) : List Block → Block → Prop where
  | whole (hspan : b.span ≤ need + 1) :
      Carved b need [{ b with state := .used }] { b with state := .used }
  | back (hspan : need + 2 ≤ b.span) :
      Carved b need
        [⟨b.addr, b.span - need, .free⟩, ⟨b.addr + 16 * (b.span - need), need, .used⟩]
        ⟨b.addr + 16 * (b.span - need), need, .used⟩
  | front (hspan : need + 2 ≤ b.span) :
      Carved b need
        [⟨b.addr, need, .used⟩, ⟨b.addr + 16 * need, b.span - need, .free⟩]
        ⟨b.addr, need, .used⟩

/-! ### New blocks -/

section
variable {m g : Mem} {e : Block}

/-- A block whose links are cleared. -/
theorem Good.clearLinks (h : Good m g e) (hlive : e.state ≠ .live) :
    Good (chunkSetPrevFree (chunkSetNextFree m e.addr 0) e.addr 0) g e ∧
      ∀ x, x < e.addr ∨ e.stop ≤ x →
        (chunkSetPrevFree (chunkSetNextFree m e.addr 0) e.addr 0).byte x = m.byte x := by
  obtain ⟨h₁, _⟩ := h.setNextFree hlive (Nat.two_pow_pos 64)
  obtain ⟨h₂, _⟩ := h₁.setPrevFree hlive (Nat.two_pow_pos 64)
  refine ⟨h₂, fun x hx => ?_⟩
  rw [h₁.setPrevFree_byte 0 hx, chunkSetNextFree_byte h.fits 0 hx]

/-- A block that is set up on any memory. -/
theorem good_initBlock (m g : Mem) (hfits : e.Fits) {status : Int}
    {state : BlockState}
    (hstate : state = .free ∧ status = chunkFree ∨ state = .used ∧ status = chunkUsed) :
    Good (initBlock m e.addr e.span status) g { e with state := state } ∧
      ∀ x, x < e.addr ∨ e.stop ≤ x → (initBlock m e.addr e.span status).byte x = m.byte x := by
  have h₁ : Good (chunkSetSpan m e.addr e.span) g { e with state := .raw } :=
    good_setSpan hfits
  obtain ⟨h₂, _⟩ := h₁.setStatus hstate
  have hlive : state ≠ .live := by
    rcases hstate with ⟨hs, _⟩ | ⟨hs, _⟩ <;> rw [hs] <;> exact BlockState.noConfusion
  obtain ⟨h₃, hout⟩ := h₂.clearLinks hlive
  refine ⟨h₃, fun x hx => ?_⟩
  have hclear := hout x hx
  rw [chunkSetStatus_byte hfits status hx, setSpan_byte hfits hx] at hclear
  exact hclear

/-- A block whose state is forgotten. -/
theorem Good.forget (h : Good m g e) : Good m g { e with state := .raw } := by
  refine ⟨h.fits.withState .raw, h.header, h.footer, ?_, ?_, ?_⟩
  · intro hfree
    cases hfree
  · intro hused
    rcases hused with hused | hused <;> cases hused
  · intro hlive
    cases hlive

end

/-! ### The end of a free block -/

section
variable {ι : Type} {binOf : Int → Option ι} {h : Heap ι} {g : Mem} {pre suf : List Block}
  {b : Block} {ls : ι → List Nat} {need : Nat}

/-- The two parts of a block fit. -/
theorem fits_parts (hfits : b.Fits) {k : Nat} (hk : 2 ≤ k) (hrest : k + 2 ≤ b.span)
    (state state' : BlockState) :
    Block.Fits ⟨b.addr, k, state⟩ ∧ Block.Fits ⟨b.addr + 16 * k, b.span - k, state'⟩ := by
  have hpos := hfits.pos
  have hsmall := hfits.small
  have hstop := hfits.stop_lt
  constructor
  · exact ⟨hpos, hk, by simp only; omega, by simp only; omega⟩
  · exact ⟨by simp only; omega, by simp only; omega, by simp only; omega, by simp only; omega⟩

/-- The writes of the split in the `do_alloc` of `heapmgr1`. The free part keeps the links of
the block. -/
theorem good_splitBack {m m' : Mem} (hgood : Good m g b) (hfree : b.state = .free) {f u : Block}
    (hf : f = ⟨b.addr, b.span - need, .free⟩)
    (hu : u = ⟨b.addr + 16 * (b.span - need), need, .used⟩) (hneed : 2 ≤ need)
    (hspan : need + 2 ≤ b.span)
    (hm : m' = initBlock (chunkSetPrevFree (chunkSetSpan m f.addr f.span) f.addr
      (chunkGetPrevFree m b.addr)) u.addr u.span chunkUsed) :
    Good m' g f ∧ Good m' g u ∧
      (chunkGetNextFree m' b.addr = chunkGetNextFree m b.addr ∧
        chunkGetPrevFree m' b.addr = chunkGetPrevFree m b.addr) ∧
      ∀ x, x < b.addr ∨ b.stop ≤ x → m'.byte x = m.byte x := by
  have hfaddr : f.addr = b.addr := by rw [hf]
  have hffree : f.state = .free := by rw [hf]
  have hustate : u.state = .used := by rw [hu]
  have huaddr : u.addr = f.stop := by
    rw [hf, hu]
    rfl
  have hparts := fits_parts hgood.fits (show 2 ≤ b.span - need by omega) (by omega) .free .used
  rw [show b.span - (b.span - need) = need by omega, ← hf, ← hu] at hparts
  obtain ⟨hffits, hufits⟩ := hparts
  -- The free part gets its span, and the back link in its new footer.
  obtain ⟨m₁, hm₁⟩ : ∃ m₁, m₁ = chunkSetSpan m f.addr f.span := ⟨_, rfl⟩
  obtain ⟨m₂, hm₂⟩ : ∃ m₂, m₂ = chunkSetPrevFree m₁ f.addr (chunkGetPrevFree m b.addr) :=
    ⟨_, rfl⟩
  rw [← hm₁, ← hm₂] at hm
  have hraw : Good m₁ g { f with state := .raw } := by
    rw [hm₁]
    exact good_setSpan hffits
  have hheader := setSpan_header (m := m) hffits
  rw [← hm₁, hfaddr] at hheader
  have hgood₁ : Good m₁ g f := by
    refine ⟨hffits, hraw.header, hraw.footer, ?_, ?_, ?_⟩
    · intro _
      rw [hfaddr, hheader.1, hgood.free hfree]
    · intro hused
      rw [hffree] at hused
      rcases hused with hused | hused <;> cases hused
    · intro hlive
      rw [hffree] at hlive
      cases hlive
  obtain ⟨hgood₂, hnext₂, hprev₂⟩ := hgood₁.setPrevFree (by rw [hffree]; decide)
    (show chunkGetPrevFree m b.addr < 2 ^ 64 from loadPtr_lt _ _)
  have hout₂ : ∀ x, x < f.addr ∨ f.stop ≤ x → m₂.byte x = m.byte x := by
    intro x hx
    rw [hm₂, hgood₁.setPrevFree_byte _ hx, hm₁, setSpan_byte hffits hx]
  rw [← hm₂, hfaddr] at hnext₂ hprev₂
  rw [← hm₂] at hgood₂
  -- The new block behind it does not touch it.
  obtain ⟨hgoodu, hout₃⟩ := good_initBlock m₂ g hufits (Or.inr ⟨rfl, rfl⟩)
  rw [← hustate, ← hm] at hgoodu
  rw [← hm] at hout₃
  have hsame : ∀ x, f.addr ≤ x → x < f.stop → m'.byte x = m₂.byte x := by
    intro x _ hx
    exact hout₃ x (by omega)
  have hlinks := hgood₂.links_congr hsame
  rw [hfaddr, hnext₂, hprev₂, hheader.2] at hlinks
  refine ⟨hgood₂.congr hsame, hgoodu, hlinks, fun x hx => ?_⟩
  have huge := hufits.span_ge
  have hfspan : f.span = b.span - need := by rw [hf]
  have huspan : u.span = need := by rw [hu]
  unfold Block.stop at huaddr hx
  rw [hout₃ x (by unfold Block.stop; omega), hout₂ x (by unfold Block.stop; omega)]

/-- The split in the `do_alloc` of `heapmgr1`. The free block keeps its place in its list,
because its links are moved along and its list does not change. -/
theorem Rep.splitBack (r : Rep binOf h g (pre ++ b :: suf) ls) (hfree : b.state = .free)
    {f u : Block} (hf : f = ⟨b.addr, b.span - need, .free⟩)
    (hu : u = ⟨b.addr + 16 * (b.span - need), need, .used⟩) (hneed : 2 ≤ need)
    (hspan : need + 2 ≤ b.span) (hbin : binOf f.span = binOf b.span) :
    Rep binOf (h.setMem (initBlock (chunkSetPrevFree (chunkSetSpan h.mem f.addr f.span) f.addr
        (chunkGetPrevFree h.mem b.addr)) u.addr u.span chunkUsed)) g
      (pre ++ ([f, u] ++ suf)) ls := by
  have hb : b ∈ pre ++ b :: suf := by simp
  obtain ⟨m', hm⟩ : ∃ m', m' = initBlock (chunkSetPrevFree (chunkSetSpan h.mem f.addr f.span)
    f.addr (chunkGetPrevFree h.mem b.addr)) u.addr u.span chunkUsed := ⟨_, rfl⟩
  obtain ⟨hgoodf, hgoodu, hlinks, hout⟩ :=
    good_splitBack (r.phys.good b hb) hfree hf hu hneed hspan hm
  rw [← hm]
  have hfaddr : f.addr = b.addr := by rw [hf]
  have hffree : f.state = .free := by rw [hf]
  have huaddr : u.addr = f.stop := by
    rw [hf, hu]
    rfl
  have hustop : u.stop = b.stop := by
    rw [hu]
    unfold Block.stop
    simp only
    omega
  have hold : Tiles b.addr [b] b.stop := ⟨rfl, rfl⟩
  have hnew : Tiles b.addr [f, u] b.stop := ⟨hfaddr, huaddr, hustop⟩
  have hmem : ∀ d ∈ [f, u], Good m' g d := by
    intro d hd
    rcases List.mem_cons.mp hd with rfl | hd
    · exact hgoodf
    · rw [List.mem_singleton.mp hd]
      exact hgoodu
  have hphys : Phys m' g h.lo (pre ++ ([f, u] ++ suf)) h.hi :=
    Phys.replace (show Phys h.mem g h.lo (pre ++ ([b] ++ suf)) h.hi from r.phys) hold hnew
      (List.cons_ne_nil _ _) hout hmem
  have hnode : ∀ i, ∀ c ∈ ls i, chunkGetNextFree m' c = chunkGetNextFree h.mem c ∧
      chunkGetPrevFree m' c = chunkGetPrevFree h.mem c := by
    intro i c hc
    by_cases hcb : c = b.addr
    · rw [hcb]
      exact hlinks
    · obtain ⟨d, hd, rfl, _⟩ := r.block_of_mem hc
      exact r.phys.links_ne hb hd hcb hout
  refine ⟨hphys, ?_, r.nodup, ?_⟩
  · intro i
    exact (r.linked i).congr (fun c hc => (hnode i c hc).1) fun c hc => (hnode i c hc).2
  · -- The nodes are the same addresses as before: `f` stands for `b`, and `u` is not free.
    intro i c
    constructor
    · intro hc
      by_cases hcb : c = b.addr
      · obtain ⟨d, hd, haddr, _, hdbin⟩ := r.block_of_mem hc
        rw [r.phys.addr_inj hd hb (haddr.trans hcb)] at hdbin
        exact ⟨f, by simp, hfaddr.trans hcb.symm, hffree, hbin.trans hdbin⟩
      · obtain ⟨d, hd, hrest⟩ := (r.side_iff i c).mpr ⟨hc, hcb⟩
        exact ⟨d, by rcases hd with hd | hd <;> simp [hd], hrest⟩
    · intro ⟨d, hd, haddr, hdfree, hdbin⟩
      have hcases : d = f ∨ d = u ∨ d ∈ pre ∨ d ∈ suf := by
        simp only [List.mem_append, List.mem_cons, List.not_mem_nil, or_false] at hd
        rcases hd with hd | (hd | hd) | hd <;> simp [hd]
      rcases hcases with rfl | rfl | hd
      · rw [← haddr, hfaddr]
        exact r.mem_of_free hb hfree (hbin.symm.trans hdbin)
      · rw [hu] at hdfree
        cases hdfree
      · exact ((r.side_iff i c).mp ⟨d, hd, haddr, hdfree, hdbin⟩).1

/-- The split in the `do_alloc` of `heapmgr2`: a block in no list is cut into the new block
and the rest. -/
theorem Rep.splitFront (r : Rep binOf h g (pre ++ b :: suf) ls) (hb : b.Open) {u e : Block}
    (hu : u = ⟨b.addr, need, .used⟩) (he : e = ⟨b.addr + 16 * need, b.span - need, .raw⟩)
    (hneed : 2 ≤ need) (hspan : need + 2 ≤ b.span) :
    Rep binOf (h.setMem (chunkSetPrevFree (chunkSetNextFree (chunkSetSpan
        (initBlock h.mem u.addr u.span chunkUsed) e.addr e.span) e.addr 0) e.addr 0)) g
      (pre ++ ([u, e] ++ suf)) ls := by
  have hgood := r.phys.good b (by simp)
  have huaddr : u.addr = b.addr := by rw [hu]
  have hustate : u.state = .used := by rw [hu]
  have headdr : e.addr = u.stop := by
    rw [hu, he]
    rfl
  have hestate : e.state = .raw := by rw [he]
  have hestop : e.stop = b.stop := by
    rw [he]
    unfold Block.stop
    simp only
    omega
  -- The new block takes the front, and the rest is set up behind it.
  obtain ⟨hufits, hefits⟩ := fits_parts hgood.fits hneed hspan .used .raw
  rw [← hu] at hufits
  rw [← he] at hefits
  obtain ⟨hgood₁, hout₁⟩ := good_initBlock h.mem g hufits (Or.inr ⟨rfl, rfl⟩)
  rw [← hustate] at hgood₁
  have hgood₁' : Good (initBlock h.mem u.addr u.span chunkUsed) g u := hgood₁
  have hraw : Good (chunkSetSpan (initBlock h.mem u.addr u.span chunkUsed) e.addr e.span) g
      { e with state := .raw } := good_setSpan hefits
  rw [← hestate] at hraw
  obtain ⟨hgoode, hout₂⟩ := hraw.clearLinks (by rw [hestate]; decide)
  obtain ⟨m', hm'⟩ : ∃ m', m' = chunkSetPrevFree (chunkSetNextFree (chunkSetSpan
    (initBlock h.mem u.addr u.span chunkUsed) e.addr e.span) e.addr 0) e.addr 0 := ⟨_, rfl⟩
  rw [← hm'] at hgoode hout₂ ⊢
  have houte : ∀ x, x < e.addr ∨ e.stop ≤ x →
      m'.byte x = (initBlock h.mem u.addr u.span chunkUsed).byte x := by
    intro x hx
    rw [hout₂ x hx, setSpan_byte hefits hx]
  -- The rest starts where the new block ends, so its writes leave the new block alone.
  have hgoodu : Good m' g u := hgood₁'.congr fun x _ hx => houte x (by omega)
  have hout : ∀ x, x < b.addr ∨ b.stop ≤ x → m'.byte x = h.mem.byte x := by
    intro x hx
    have huspan := hufits.span_ge
    have hespan := hefits.span_ge
    unfold Block.stop at headdr hestop hx
    rw [houte x (by unfold Block.stop; omega), hout₁ x (by unfold Block.stop; omega)]
  have hold : Tiles b.addr [b] b.stop := ⟨rfl, rfl⟩
  have hnew : Tiles b.addr [u, e] b.stop := ⟨huaddr, headdr, hestop⟩
  have hmem : ∀ d ∈ [u, e], Good m' g d := by
    intro d hd
    rcases List.mem_cons.mp hd with rfl | hd
    · exact hgoodu
    · rw [List.mem_singleton.mp hd]
      exact hgoode
  have hbusy : ∀ d ∈ [u, e], d.state ≠ .free := by
    intro d hd
    rcases List.mem_cons.mp hd with rfl | hd
    · rw [hustate]
      exact BlockState.noConfusion
    · rw [List.mem_singleton.mp hd, hestate]
      exact BlockState.noConfusion
  exact Rep.resize (show Rep binOf h g (pre ++ ([b] ++ suf)) ls from r) hold hnew
    (List.cons_ne_nil _ _) hout hmem
    (fun d hd => by rw [List.mem_singleton.mp hd]; exact hb.ne_free) hbusy

end

/-! ### The break -/

section
variable {ι : Type} [DecidableEq ι] {binOf : Int → Option ι} {h h' : Heap ι} {c : Nat}

omit [DecidableEq ι] in
/-- A result that was mapped. -/
theorem map_eq_ok {ε α β : Type} {f : α → β} {x : Except ε α} {b : β} (heq : x.map f = .ok b) :
    ∃ a, x = .ok a ∧ b = f a := by
  cases x with
  | error e => cases heq
  | ok a => exact ⟨a, rfl, (Except.ok.inj heq).symm⟩

omit [DecidableEq ι] in
/-- A computation that returns has returned at each of its parts. -/
theorem bind_eq_ok {ε α β : Type} {f : α → Except ε β} {x : Except ε α} {b : β}
    (heq : x.bind f = .ok b) : ∃ a, x = .ok a ∧ f a = .ok b := by
  cases x with
  | error e => cases heq
  | ok a => exact ⟨a, rfl, heq⟩

/-- The free lists do not matter to the break, whatever is in memory. -/
theorem brk_freelistInsert (heq : freelistInsert binOf h c = .ok h') : h'.brk = h.brk := by
  unfold freelistInsert at heq
  split at heq
  · cases heq
  · rw [← Except.ok.inj heq]
    rfl

/-- A block is taken out of its list. The break stays where it is. -/
theorem brk_freelistDetach (heq : freelistDetach binOf h c = .ok h') : h'.brk = h.brk := by
  have hunlink : ∀ h₁, unlinkNext binOf h c = .ok h₁ → h₁.brk = h.brk := by
    intro h₁ heq
    unfold unlinkNext at heq
    simp only at heq
    split at heq
    · rw [← Except.ok.inj heq]
      rfl
    · split at heq
      · cases heq
      · rw [← Except.ok.inj heq]
        rfl
  unfold freelistDetach at heq
  obtain ⟨h₁, hu, rfl⟩ := map_eq_ok heq
  exact hunlink h₁ hu

end

/-! ### The managers -/

/-- `do_alloc` carves a block out of a free one that is large enough. -/
def AllocSpec {ι : Type} (mgr : Manager ι) : Prop :=
  ∀ (h : Heap ι) (g : Mem) (pre suf : List Block) (b : Block) (ls : ι → List Nat) (need : Nat),
    Rep mgr.binOf h g (pre ++ b :: suf) ls → b.state = .free → 2 ≤ need → need ≤ b.span →
    ∃ h' ls' mid u, mgr.doAlloc h b.addr need = .ok (h', u.addr + 16) ∧ SameBounds h h' ∧
      Carved b need mid u ∧ Rep mgr.binOf h' g (pre ++ (mid ++ suf)) ls'

/-- A search looks into the lists of all spans that are large enough. -/
def Manager.Complete {ι : Type} (mgr : Manager ι) : Prop :=
  ∀ need span : Nat, 2 ≤ need → need ≤ span → ∀ i, mgr.binOf span = some i →
    ∃ bins, mgr.searchBins need = some bins ∧ i ∈ bins

/-- What the proofs need of a manager. -/
structure Manager.Sound {ι : Type} (mgr : Manager ι) : Prop where
  cover : BinsCover mgr.binOf
  alloc : AllocSpec mgr
  brk_alloc : ∀ h cur need h' p, mgr.doAlloc h cur need = .ok (h', p) → h'.brk = h.brk
  complete : mgr.Complete
  search : ∀ need : Nat, 2 ≤ need → need ≤ 2147483647 → ∃ bins, mgr.searchBins need = some bins
  boot : ∀ heads : ι → Nat, (∀ i, heads i = 0) → ∀ i, mgr.bootHeads heads i = 0

/-- The payload of a block starts behind its header. -/
theorem payload_eq {b : Block} (hfits : b.Fits) : ptrAdd b.addr chunkUnit = b.addr + 16 := by
  have hspan := hfits.span_ge
  have hstop := hfits.stop_lt
  exact ptrAdd_chunkUnit (by omega)

/-- The start of the second part of a block. -/
theorem part_eq {b : Block} (hfits : b.Fits) {k : Nat} (hk : k ≤ b.span) :
    ptrAdd b.addr ((k : Int) * chunkUnit) = b.addr + 16 * k := by
  have hstop := hfits.stop_lt
  exact ptrAdd_eq (by unfold chunkUnit; omega) (by omega)

/-- What is left of a block behind an allocation. -/
theorem remain_eq {m g : Mem} {b : Block} (hgood : Good m g b) {need : Nat}
    (hneed : need ≤ b.span) : i32 (chunkGetSpan m b.addr - need) = (b.span - need : Nat) := by
  have hsmall := hgood.fits.small
  rw [hgood.header, i32_eq (by omega) (by omega)]
  omega

namespace Heapmgr1

/-- Each block of `heapmgr1` is in its only list. -/
theorem cover : BinsCover binOf := fun _ _ _ => ⟨(), rfl⟩

/-- `do_alloc` of `heapmgr1` carves. It takes the end of the free block and leaves the rest in its
list. -/
theorem doAlloc_spec : AllocSpec manager := by
  intro h g pre suf b ls need r hfree hneed hspan
  have hgood := r.phys.good b (by simp)
  have hremain := remain_eq hgood hspan
  have halloc : manager.doAlloc = doAlloc := by rw [manager]
  rw [halloc]
  unfold doAlloc
  simp only [hremain]
  by_cases hsplit : need + 2 ≤ b.span
  · rw [if_pos (by omega)]
    have hpart : b.span - need ≤ b.span := by omega
    -- There is one list, so the free part belongs to the list of the whole block.
    have hsplit' := r.splitBack hfree rfl rfl hneed hsplit rfl
    have hfits := (hsplit'.phys.good ⟨b.addr + 16 * (b.span - need), need, .used⟩ (by simp)).fits
    rw [part_eq hgood.fits hpart, payload_eq hfits]
    exact ⟨_, ls, _, _, rfl, SameBounds.setMem _ _, Carved.back hsplit, hsplit'⟩
  · rw [if_neg (by omega)]
    obtain ⟨h', ls', heq, hsame, r'⟩ := r.detach_spec cover hfree
    have heq' : freelistDetach h b.addr = .ok h' := heq
    have hwhole : Carved b need [{ b with state := .used }] { b with state := .used } :=
      Carved.whole (by omega)
    rw [heq', payload_eq hgood.fits]
    exact ⟨h', ls', [{ b with state := .used }], { b with state := .used }, rfl, hsame, hwhole, r'⟩

/-- `do_alloc` does not move the break. -/
theorem brk_doAlloc {h h' : Heap Unit} {cur p : Nat} {need : Int}
    (heq : manager.doAlloc h cur need = .ok (h', p)) : h'.brk = h.brk := by
  have halloc : manager.doAlloc = doAlloc := by rw [manager]
  rw [halloc] at heq
  unfold doAlloc at heq
  by_cases hsplit : 2 ≤ i32 (chunkGetSpan h.mem cur - need)
  · simp only [if_pos hsplit, Except.ok.injEq, Prod.mk.injEq] at heq
    rw [← heq.1]
    exact (SameBounds.setMem _ _).brk
  · simp only [if_neg hsplit] at heq
    obtain ⟨h₁, hd, hpair⟩ := map_eq_ok heq
    rw [(Prod.mk.inj hpair).1]
    exact brk_freelistDetach hd

/-- The search of `heapmgr1` goes through its only list. So it misses no free block. -/
theorem complete : manager.Complete := fun _ _ _ _ _ _ => ⟨[()], rfl, List.mem_singleton.mpr rfl⟩

/-- What the proofs need of `heapmgr1`. It is the first of the two managers that are sound. -/
theorem sound : manager.Sound where
  cover := cover
  alloc := doAlloc_spec
  brk_alloc := fun _ _ _ _ _ heq => brk_doAlloc heq
  complete := complete
  search := fun _ _ _ => ⟨[()], rfl⟩
  boot := fun _ hheads => hheads

end Heapmgr1

namespace Heapmgr2

/-- The loop of `get_bin_index` stops before the last list. -/
theorem logBin_le (fuel : Nat) (s : Int) {k : Nat} (hk : k ≤ 31) : logBin fuel s k ≤ 31 := by
  -- The condition of the loop stops it while the index is still in range.
  induction fuel generalizing s k with
  | zero => exact hk
  | succ fuel ih =>
      rw [logBin]
      split
      · rename_i hcond
        unfold exactBins numBins exactBins logBins at hcond
        exact ih _ (by omega)
      · exact hk

/-- The index of a span is one of `s_bins`. -/
theorem getBinIndex_range {span : Int} (hspan : 2 ≤ span) :
    0 ≤ getBinIndex span ∧ getBinIndex span < numBins := by
  have hlog := logBin_le logBins (span >>> (6 : Nat)) (show 0 ≤ 31 by omega)
  unfold getBinIndex
  unfold numBins exactBins logBins at *
  split
  · omega
  · omega

/-- Every span from two units on has a bin. -/
theorem exists_binOf {span : Int} (hspan : 2 ≤ span) : ∃ b, binOf span = some b := by
  have hrange := getBinIndex_range hspan
  exact ⟨⟨(getBinIndex span).toNat, by omega⟩, by simp only [binOf, dif_pos hrange]⟩

/-- Each block of `heapmgr2` has a list. Its span is two units at least, and `get_bin_index` is in
range for it. -/
theorem cover : BinsCover binOf := fun _ hspan _ => exists_binOf (by omega)

/-- The list of a span is that of its index. -/
theorem binOf_eq_some {span : Int} {b : Fin numBins} (h : binOf span = some b) :
    getBinIndex span = b := by
  unfold binOf at h
  simp only at h
  split at h
  · rename_i hrange
    have hb := Option.some.inj h
    rw [← hb]
    simp only
    omega
  · cases h

/-- The loop of `get_bin_index` only counts up. -/
theorem le_logBin (fuel : Nat) (s : Int) (k : Nat) : k ≤ logBin fuel s k := by
  induction fuel generalizing s k with
  | zero => exact Nat.le_refl k
  | succ fuel ih =>
      rw [logBin]
      split
      · exact Nat.le_of_succ_le (ih _ (k + 1))
      · exact Nat.le_refl k

/-- Of two numbers the larger one takes the loop further. -/
theorem logBin_mono (fuel : Nat) {s s' : Int} (hs : s ≤ s') (k : Nat) :
    logBin fuel s k ≤ logBin fuel s' k := by
  induction fuel generalizing s s' k with
  | zero => exact Nat.le_refl k
  | succ fuel ih =>
      have hhalf : s >>> (1 : Nat) ≤ s' >>> (1 : Nat) := by
        rw [Int.shiftRight_eq_div_pow, Int.shiftRight_eq_div_pow]
        omega
      rw [logBin]
      split
      · rename_i hcond
        rw [logBin, if_pos ⟨by omega, hcond.2⟩]
        exact ih hhalf (k + 1)
      · exact le_logBin (fuel + 1) s' k

/-- `get_bin_index` is monotone, at the step from the exact bins to the others too. -/
theorem getBinIndex_mono {span span' : Int} (hle : span ≤ span') :
    getBinIndex span ≤ getBinIndex span' := by
  have hshift : span >>> (6 : Nat) ≤ span' >>> (6 : Nat) := by
    rw [Int.shiftRight_eq_div_pow, Int.shiftRight_eq_div_pow]
    omega
  have hlog := logBin_mono logBins hshift 0
  unfold getBinIndex exactBins
  split
  · split
    · omega
    · omega
  · rw [if_neg (by omega)]
    omega

/-- The bins from `k` on, which are those that the search goes through. -/
theorem mem_drop_finRange {n k : Nat} {i : Fin n} (hk : k ≤ i) : i ∈ (List.finRange n).drop k := by
  rw [List.mem_drop_iff_getElem]
  refine ⟨i - k, ?_, ?_⟩
  · rw [List.length_finRange]
    omega
  · rw [List.getElem_finRange]
    exact Fin.ext (by simp only [Fin.val_cast]; omega)

/-- The search starts at the list of the span that is needed, and no larger span comes before. -/
theorem complete : manager.Complete := by
  intro need span hneed hspan i hi
  have hbin := binOf_eq_some (show binOf span = some i from hi)
  have hmono := getBinIndex_mono (show (need : Int) ≤ span by omega)
  have hrange := getBinIndex_range (show (2 : Int) ≤ need by omega)
  have hpos : ¬ getSearchBin need < 0 := by
    unfold getSearchBin
    omega
  refine ⟨(List.finRange numBins).drop (getSearchBin need).toNat, ?_, ?_⟩
  · simp only [manager, searchBins, if_neg hpos]
  · -- The list has the index `i` at its own position, which is not dropped.
    refine mem_drop_finRange ?_
    unfold getSearchBin
    omega

/-- `do_alloc` of `heapmgr2` carves. The rest goes to the list of its new span. -/
theorem doAlloc_spec : AllocSpec manager := by
  intro h g pre suf b ls need r hfree hneed hspan
  have hgood := r.phys.good b (by simp)
  have hremain := remain_eq hgood hspan
  obtain ⟨h₁, ls₁, heq, hsame, r₁⟩ := r.detach_spec cover hfree
  have heq' : freelistDetach h b.addr = .ok h₁ := heq
  have halloc : manager.doAlloc = doAlloc := by rw [manager]
  rw [halloc]
  unfold doAlloc
  simp only [hremain, heq', Except.bind]
  by_cases hsplit : need + 2 ≤ b.span
  · rw [if_pos (by omega)]
    obtain ⟨u, hu⟩ : ∃ u : Block, u = ⟨b.addr, need, .used⟩ := ⟨_, rfl⟩
    obtain ⟨e, he⟩ : ∃ e : Block, e = ⟨b.addr + 16 * need, b.span - need, .raw⟩ := ⟨_, rfl⟩
    have huaddr : u.addr = b.addr := by rw [hu]
    have huspan : u.span = need := by rw [hu]
    have headdr : e.addr = b.addr + 16 * need := by rw [he]
    have hespan : e.span = b.span - need := by rw [he]
    -- The block is out of its list. It is cut, and the rest goes into the list of its own span.
    have r₂ := r₁.splitFront (Or.inl rfl) hu he hneed hsplit
    have r₂' := show Rep binOf _ g (pre ++ ([u] ++ (e :: suf))) ls₁ from r₂
    rw [← List.append_assoc] at r₂'
    have hfree₂ : e.state ≠ .free := by
      rw [he]
      exact BlockState.noConfusion
    obtain ⟨h₃, ls₃, hinsert, hsame₃, r₃⟩ := r₂'.insert_spec cover hfree₂
    have hpart : ptrAdd b.addr ((need : Int) * chunkUnit) = e.addr := by
      rw [headdr]
      exact part_eq hgood.fits hspan
    rw [huaddr, huspan, hespan] at hinsert
    have hinsert' : freelistInsert (h₁.setMem (chunkSetPrevFree (chunkSetNextFree
        (chunkSetSpan (initBlock h₁.mem b.addr need chunkUsed) e.addr (b.span - need : Nat))
        e.addr 0) e.addr 0)) e.addr = .ok h₃ := hinsert
    have hfront : Carved b need [u, { e with state := .free }] u := by
      rw [hu, he]
      exact Carved.front hsplit
    rw [hpart, hinsert', payload_eq hgood.fits, ← huaddr]
    rw [List.append_assoc] at r₃
    exact ⟨h₃, ls₃, _, u, rfl, (hsame.trans (SameBounds.setMem _ _)).trans hsame₃, hfront, r₃⟩
  · have hwhole : Carved b need [{ b with state := .used }] { b with state := .used } :=
      Carved.whole (by omega)
    rw [if_neg (by omega), payload_eq hgood.fits]
    exact ⟨h₁, ls₁, [{ b with state := .used }], { b with state := .used }, rfl, hsame, hwhole, r₁⟩

/-- `do_alloc` does not move the break. -/
theorem brk_doAlloc {h h' : Heap (Fin numBins)} {cur p : Nat} {need : Int}
    (heq : manager.doAlloc h cur need = .ok (h', p)) : h'.brk = h.brk := by
  have halloc : manager.doAlloc = doAlloc := by rw [manager]
  rw [halloc] at heq
  unfold doAlloc at heq
  cases hd : freelistDetach h cur with
  | error e =>
      simp only [hd] at heq
      cases heq
  | ok h₁ =>
      have hbrk : h₁.brk = h.brk := brk_freelistDetach hd
      simp only [hd, Except.bind] at heq
      by_cases hsplit : 2 ≤ i32 (chunkGetSpan h.mem cur - need)
      · simp only [if_pos hsplit] at heq
        obtain ⟨h₂, hinsert, hpair⟩ := map_eq_ok heq
        rw [(Prod.mk.inj hpair).1]
        exact (brk_freelistInsert hinsert).trans ((SameBounds.setMem _ _).brk.trans hbrk)
      · simp only [if_neg hsplit, Except.ok.injEq, Prod.mk.injEq] at heq
        rw [← heq.1]
        exact hbrk

/-- What the proofs need of `heapmgr2`. The search starts at the list of the span, and looks into
all the larger ones. -/
theorem sound : manager.Sound where
  cover := cover
  alloc := doAlloc_spec
  brk_alloc := fun _ _ _ _ _ heq => brk_doAlloc heq
  complete := complete
  search := by
    intro need hneed _
    have hrange := getBinIndex_range (show (2 : Int) ≤ need by omega)
    have hpos : ¬ getSearchBin need < 0 := by
      unfold getSearchBin
      omega
    refine ⟨(List.finRange numBins).drop (getSearchBin need).toNat, ?_⟩
    simp only [manager, searchBins, if_neg hpos]
  boot := fun _ _ _ => rfl

end Heapmgr2

end SysProg.Memory
