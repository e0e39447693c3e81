import Mathlib.Data.List.Chain
import SysProg.Memory.Chunk

/-!
# `SysProg.Proofs.Memory.Layout`: blocks that tile the heap

The physical heap is a list of blocks. `Tiles` says that they follow each other without a
gap, and `Good` that a block has its header and its footer in memory. `Phys` is both, for
the whole heap.

The state of a block goes beyond the status in its header: a block is `live` while its bytes
must stay those of a second memory, the ghost, and `raw` while its status does not matter.

* `Phys.replace`: a write to some adjacent blocks is checked on these blocks alone.
* The lemmas on the accessors of `chunk.c` say what each does to the block it is called on.
-/

set_option autoImplicit false

namespace SysProg.Memory

open SysProg.Lib

/-! ### Machine arithmetic -/

/-- An `int` that is in range is exact. -/
theorem i32_eq {x : Int} (hlo : -2147483648 ≤ x) (hhi : x < 2147483648) : i32 x = x := by
  unfold i32 Int.bmod
  simp only
  split
  · omega
  · omega

/-- An `int` is at most `INT_MAX`. -/
theorem i32_le (x : Int) : i32 x ≤ 2147483647 := by
  unfold i32 Int.bmod
  simp only
  split
  · omega
  · omega

/-- The sum of an address and an offset that stays in range is exact. -/
theorem ptrAdd_eq {p q : Nat} {d : Int} (h : (p : Int) + d = q) (hq : q < 2 ^ 64) :
    ptrAdd p d = q := by
  unfold ptrAdd
  rw [h]
  omega

/-- The payload is one unit behind the header. -/
theorem ptrAdd_chunkUnit {c : Nat} (hc : c + 16 < 2 ^ 64) : ptrAdd c chunkUnit = c + 16 :=
  ptrAdd_eq (by unfold chunkUnit; omega) hc

/-- The way back from the payload. -/
theorem ptrAdd_neg_chunkUnit {c : Nat} (hc : c < 2 ^ 64) : ptrAdd (c + 16) (-chunkUnit) = c :=
  ptrAdd_eq (by unfold chunkUnit; omega) hc

/-- An `int` reads back as it was stored. -/
theorem loadInt_storeInt (m : Mem) (a : Nat) {x : Int} (hlo : -2147483648 ≤ x)
    (hhi : x < 2147483648) : loadInt (storeInt m a x) a = x := by
  unfold loadInt storeInt
  have hdigits : (x % 2 ^ 32).toNat < 256 ^ 4 := by omega
  -- The stored digits are `x` modulo `2 ^ 32`, and `i32` takes them back into the range.
  rw [load_store m a hdigits]
  unfold i32 Int.bmod
  simp only
  split
  · omega
  · omega

/-- A store elsewhere does not matter to an `int`. -/
theorem loadInt_storeInt_ne {m : Mem} {a b : Nat} {x : Int} (h : a + 4 ≤ b ∨ b + 4 ≤ a) :
    loadInt (storeInt m b x) a = loadInt m a := by
  unfold loadInt storeInt
  rw [load_store_of_disjoint h]

/-- A write to a link leaves an `int` alone that does not overlap. -/
theorem loadInt_storePtr_ne {m : Mem} {a b p : Nat} (h : a + 4 ≤ b ∨ b + 8 ≤ a) :
    loadInt (storePtr m b p) a = loadInt m a := by
  unfold loadInt storePtr
  rw [load_store_of_disjoint h]

/-- A write to an `int` leaves a link alone that does not overlap. -/
theorem loadPtr_storeInt_ne {m : Mem} {a b : Nat} {x : Int} (h : a + 8 ≤ b ∨ b + 4 ≤ a) :
    loadPtr (storeInt m b x) a = loadPtr m a := by
  unfold loadPtr storeInt
  rw [load_store_of_disjoint h]

/-- A write to a link leaves the other links alone. -/
theorem loadPtr_storePtr_ne {m : Mem} {a b p : Nat} (h : a + 8 ≤ b ∨ b + 8 ≤ a) :
    loadPtr (storePtr m b p) a = loadPtr m a := by
  unfold loadPtr storePtr
  rw [load_store_of_disjoint h]

/-- A pointer reads back as it was stored. -/
theorem loadPtr_storePtr (m : Mem) (a : Nat) {p : Nat} (hp : p < 2 ^ 64) :
    loadPtr (storePtr m a p) a = p :=
  load_store m a hp

/-- A pointer in memory is an address. -/
theorem loadPtr_lt (m : Mem) (a : Nat) : loadPtr m a < 2 ^ 64 := load_lt m a 8

/-! ### Blocks -/

/-- The state of a block. -/
inductive BlockState where
  | free
  | used
  | live
  | raw
deriving DecidableEq, Repr

/-- A block: the address of its header, its span in units, and its state. -/
structure Block where
  addr : Nat
  span : Nat
  state : BlockState
deriving DecidableEq, Repr

namespace Block

/-- The end of a block. -/
def stop (b : Block) : Nat := b.addr + 16 * b.span

/-- The footer of a block, its last unit. -/
def foot (b : Block) : Nat := b.addr + 16 * (b.span - 1)

/-- The size of a block is an `int`. -/
def Small (b : Block) : Prop := 16 * b.span ≤ 2147483647

/-- A block has room for its header and its footer, and its size is an `int`. -/
structure Fits (b : Block) : Prop where
  pos : 0 < b.addr
  span_ge : 2 ≤ b.span
  small : 16 * b.span ≤ 2147483647
  stop_lt : b.addr + 16 * b.span < 2 ^ 64

/-- Whether a block fits does not depend on its state. -/
theorem Fits.withState {b : Block} (h : b.Fits) (state : BlockState) :
    Fits { b with state := state } :=
  ⟨h.pos, h.span_ge, h.small, h.stop_lt⟩

end Block

/-- The blocks follow each other from `lo` to `hi`. -/
def Tiles : Nat → List Block → Nat → Prop
  | lo, [], hi => lo = hi
  | lo, b :: bs, hi => b.addr = lo ∧ Tiles b.stop bs hi

/-- No two blocks next to each other are free. -/
def NoAdjacentFree (bs : List Block) : Prop :=
  bs.IsChain fun b d => ¬ (b.state = .free ∧ d.state = .free)

/-- The header and the footer of `b` are in memory. A live block has the bytes of the ghost
`g`. -/
structure Good (m g : Mem) (b : Block) : Prop where
  fits : b.Fits
  header : chunkGetSpan m b.addr = b.span
  footer : footerSpan m b.foot = b.span
  free : b.state = .free → chunkGetStatus m b.addr = chunkFree
  used : b.state = .used ∨ b.state = .live → chunkGetStatus m b.addr = chunkUsed
  live : b.state = .live → ∀ x, b.addr ≤ x → x < b.stop → m.byte x = g.byte x

/-- The heap from `lo` to `hi` consists of the blocks `bs`. -/
structure Phys (m g : Mem) (lo : Nat) (bs : List Block) (hi : Nat) : Prop where
  tiles : Tiles lo bs hi
  good : ∀ b ∈ bs, Good m g b
  hi_lt : hi < 2 ^ 64
  pos : 0 < lo

/-! ### Tilings -/

section
variable {lo hi : Nat} {xs ys pre suf : List Block} {b d : Block}

/-- A tiling of two lists, one behind the other. -/
theorem tiles_append : Tiles lo (xs ++ ys) hi ↔ ∃ mid, Tiles lo xs mid ∧ Tiles mid ys hi := by
  induction xs generalizing lo with
  | nil =>
      constructor
      · intro h
        exact ⟨lo, rfl, h⟩
      · intro ⟨mid, hlo, h⟩
        rw [show lo = mid from hlo]
        exact h
  | cons x xs ih =>
      rw [List.cons_append, Tiles, ih]
      constructor
      · intro ⟨hx, mid, hxs, hys⟩
        exact ⟨mid, ⟨hx, hxs⟩, hys⟩
      · intro ⟨mid, ⟨hx, hxs⟩, hys⟩
        exact ⟨hx, mid, hxs, hys⟩

/-- A tiling around one of its blocks. -/
theorem tiles_split :
    Tiles lo (pre ++ b :: suf) hi ↔ Tiles lo pre b.addr ∧ Tiles b.stop suf hi := by
  rw [tiles_append]
  constructor
  · intro ⟨mid, hpre, hb, hsuf⟩
    rw [hb]
    exact ⟨hpre, hsuf⟩
  · intro ⟨hpre, hsuf⟩
    exact ⟨b.addr, hpre, rfl, hsuf⟩

/-- A heap of small blocks is as long as their number. -/
theorem Tiles.length_le (h : Tiles lo xs hi) (hspan : ∀ b ∈ xs, 2 ≤ b.span) :
    lo + 32 * xs.length ≤ hi := by
  induction xs generalizing lo with
  | nil => exact Nat.le_of_eq h
  | cons x xs ih =>
      have htail := ih h.2 fun b hb => hspan b (List.mem_cons_of_mem _ hb)
      have hhead := h.1
      have hx := hspan x List.mem_cons_self
      unfold Block.stop at htail
      rw [List.length_cons]
      omega

/-- The end of a tiling is not in front of its start. -/
theorem Tiles.le (h : Tiles lo xs hi) : lo ≤ hi := by
  induction xs generalizing lo with
  | nil => exact Nat.le_of_eq h
  | cons x xs ih =>
      have htail := ih h.2
      have hhead := h.1
      unfold Block.stop at htail
      omega

/-- The end of a tiling is determined. -/
theorem Tiles.unique {hi' : Nat} (h : Tiles lo xs hi) (h' : Tiles lo xs hi') : hi = hi' := by
  induction xs generalizing lo with
  | nil => exact h.symm.trans h'
  | cons x xs ih => exact ih h.2 h'.2

/-- A block lies inside the heap. -/
theorem Tiles.mem_bounds (h : Tiles lo xs hi) (hb : b ∈ xs) : lo ≤ b.addr ∧ b.stop ≤ hi := by
  obtain ⟨pre, suf, rfl⟩ := List.append_of_mem hb
  obtain ⟨hpre, hsuf⟩ := tiles_split.mp h
  exact ⟨hpre.le, hsuf.le⟩

/-- The blocks before a block end before it. -/
theorem Tiles.before (h : Tiles lo (pre ++ b :: suf) hi) (hd : d ∈ pre) : d.stop ≤ b.addr :=
  ((tiles_split.mp h).1.mem_bounds hd).2

/-- The blocks behind a block start behind it. -/
theorem Tiles.behind (h : Tiles lo (pre ++ b :: suf) hi) (hd : d ∈ suf) : b.stop ≤ d.addr :=
  ((tiles_split.mp h).2.mem_bounds hd).1

end

/-! ### One block -/

section
variable {m m' g : Mem} {b : Block}

/-- Only the bytes of a block matter to it. Its header, its footer and its payload lie between its
start and its end. -/
theorem Good.congr (h : Good m g b)
    (hsame : ∀ x, b.addr ≤ x → x < b.stop → m'.byte x = m.byte x) : Good m' g b := by
  have hge := h.fits.span_ge
  -- The status, the span and the footer are `int`s inside the block.
  have hint : ∀ a, b.addr ≤ a → a + 4 ≤ b.stop → loadInt m' a = loadInt m a := by
    intro a hlo hhi
    unfold loadInt
    rw [load_congr fun x hxlo hxhi => hsame x (by omega) (by omega)]
  have hheader : chunkGetSpan m' b.addr = chunkGetSpan m b.addr :=
    hint _ (by omega) (by unfold Block.stop; omega)
  have hstatus : chunkGetStatus m' b.addr = chunkGetStatus m b.addr :=
    hint _ (by omega) (by unfold Block.stop; omega)
  have hfooter : footerSpan m' b.foot = footerSpan m b.foot :=
    hint _ (by unfold Block.foot; omega) (by unfold Block.foot Block.stop; omega)
  constructor
  · exact h.fits
  · rw [hheader, h.header]
  · rw [hfooter, h.footer]
  · intro hfree
    rw [hstatus, h.free hfree]
  · intro hused
    rw [hstatus, h.used hused]
  · intro hlive x hlo hhi
    rw [hsame x hlo hhi, h.live hlive x hlo hhi]

/-- The footer is where the span in the header puts it. -/
theorem getFooter_eq (hfits : b.Fits) (hspan : chunkGetSpan m b.addr = b.span) :
    getFooter m b.addr = b.foot := by
  have hge := hfits.span_ge
  have hsmall := hfits.small
  have hstop := hfits.stop_lt
  -- The size of the block is an `int`, so neither product wraps around.
  have hunits : i32 ((b.span : Int) - 1) = b.span - 1 := i32_eq (by omega) (by omega)
  unfold getFooter chunkUnit
  rw [hspan, hunits, i32_eq (by omega) (by omega)]
  exact ptrAdd_eq (by unfold Block.foot; omega) (by unfold Block.foot; omega)

/-- The links of a block depend on its bytes only. -/
theorem Good.links_congr (h : Good m g b)
    (hsame : ∀ x, b.addr ≤ x → x < b.stop → m'.byte x = m.byte x) :
    chunkGetNextFree m' b.addr = chunkGetNextFree m b.addr ∧
      chunkGetPrevFree m' b.addr = chunkGetPrevFree m b.addr := by
  have hge := h.fits.span_ge
  unfold Block.stop at hsame
  constructor
  · exact load_congr fun x hlo hhi => hsame x (by omega) (by omega)
  · unfold chunkGetPrevFree
    rw [getFooter_eq h.fits (h.congr hsame).header, getFooter_eq h.fits h.header]
    unfold Block.foot
    exact load_congr fun x hlo hhi => hsame x (by omega) (by omega)

/-- The next block starts where this one ends. -/
theorem Good.nextPhys (h : Good m g b) (stop : Nat) :
    chunkGetNextPhys m b.addr stop = if stop ≤ b.stop then 0 else b.stop := by
  have hsmall := h.fits.small
  have hstop := h.fits.stop_lt
  unfold chunkGetNextPhys chunkUnit
  rw [h.header, i32_eq (by omega) (by omega),
    ptrAdd_eq (show (b.addr : Int) + (b.span * (16 : Nat) : Int) = b.stop by
      unfold Block.stop; omega) (by unfold Block.stop; omega)]

/-! ### The accessors of `chunk.c` -/

/-- `chunk_set_next_free` on a block that is not live. The link is read back, and the other link
stays. -/
theorem Good.setNextFree (h : Good m g b) (hlive : b.state ≠ .live) {v : Nat}
    (hv : v < 2 ^ 64) :
    Good (chunkSetNextFree m b.addr v) g b ∧
      chunkGetNextFree (chunkSetNextFree m b.addr v) b.addr = v ∧
      chunkGetPrevFree (chunkSetNextFree m b.addr v) b.addr = chunkGetPrevFree m b.addr := by
  have hge := h.fits.span_ge
  -- The link is the second half of the header. All the `int`s of the block lie elsewhere.
  have hint : ∀ a, a + 4 ≤ b.addr + 8 ∨ b.addr + 16 ≤ a →
      loadInt (chunkSetNextFree m b.addr v) a = loadInt m a := by
    intro a ha
    exact loadInt_storePtr_ne (by omega)
  have hheader : chunkGetSpan (chunkSetNextFree m b.addr v) b.addr = b.span := by
    rw [← h.header]
    exact hint _ (by omega)
  refine ⟨⟨h.fits, hheader, ?_, ?_, ?_, fun hl => absurd hl hlive⟩, ?_, ?_⟩
  · rw [← h.footer]
    exact hint _ (by unfold Block.foot; omega)
  · intro hfree
    rw [← h.free hfree]
    exact hint _ (by omega)
  · intro hused
    rw [← h.used hused]
    exact hint _ (by omega)
  · exact loadPtr_storePtr m (b.addr + 8) hv
  · unfold chunkGetPrevFree
    rw [getFooter_eq h.fits hheader, getFooter_eq h.fits h.header]
    exact loadPtr_storePtr_ne (by unfold Block.foot; omega)

/-- It writes into the header of the block. -/
theorem chunkSetNextFree_byte (hfits : b.Fits) (v : Nat) {x : Nat}
    (hx : x < b.addr ∨ b.stop ≤ x) : (chunkSetNextFree m b.addr v).byte x = m.byte x := by
  have hge := hfits.span_ge
  unfold Block.stop at hx
  exact store_byte (by omega)

/-- `chunk_set_prev_free` on a block that is not live. The link is in the footer, which the span in
the header leads to. -/
theorem Good.setPrevFree (h : Good m g b) (hlive : b.state ≠ .live) {v : Nat}
    (hv : v < 2 ^ 64) :
    Good (chunkSetPrevFree m b.addr v) g b ∧
      chunkGetNextFree (chunkSetPrevFree m b.addr v) b.addr = chunkGetNextFree m b.addr ∧
      chunkGetPrevFree (chunkSetPrevFree m b.addr v) b.addr = v := by
  have hge := h.fits.span_ge
  have hfoot := getFooter_eq h.fits h.header
  unfold chunkSetPrevFree
  rw [hfoot]
  -- The back link is the second half of the footer, behind the `int`s of the block.
  have hint : ∀ a, a + 4 ≤ b.foot + 8 → loadInt (storePtr m (b.foot + 8) v) a = loadInt m a := by
    intro a ha
    exact loadInt_storePtr_ne (by omega)
  have hheader : chunkGetSpan (storePtr m (b.foot + 8) v) b.addr = b.span := by
    rw [← h.header]
    exact hint _ (by unfold Block.foot; omega)
  refine ⟨⟨h.fits, hheader, ?_, ?_, ?_, fun hl => absurd hl hlive⟩, ?_, ?_⟩
  · rw [← h.footer]
    exact hint _ (by omega)
  · intro hfree
    rw [← h.free hfree]
    exact hint _ (by unfold Block.foot; omega)
  · intro hused
    rw [← h.used hused]
    exact hint _ (by unfold Block.foot; omega)
  · exact loadPtr_storePtr_ne (by unfold Block.foot; omega)
  · unfold chunkGetPrevFree
    rw [getFooter_eq h.fits hheader]
    exact loadPtr_storePtr m (b.foot + 8) hv

/-- It writes into the footer of the block. -/
theorem Good.setPrevFree_byte (h : Good m g b) (v : Nat) {x : Nat}
    (hx : x < b.addr ∨ b.stop ≤ x) : (chunkSetPrevFree m b.addr v).byte x = m.byte x := by
  have hge := h.fits.span_ge
  unfold chunkSetPrevFree
  rw [getFooter_eq h.fits h.header]
  unfold Block.stop at hx
  exact store_byte (by unfold Block.foot; omega)

/-- `chunk_set_status` on a block that becomes free or used. The span and both links stay. -/
theorem Good.setStatus (h : Good m g b) {status : Int} {state : BlockState}
    (hstate : state = .free ∧ status = chunkFree ∨ state = .used ∧ status = chunkUsed) :
    Good (chunkSetStatus m b.addr status) g { b with state := state } ∧
      chunkGetNextFree (chunkSetStatus m b.addr status) b.addr = chunkGetNextFree m b.addr ∧
      chunkGetPrevFree (chunkSetStatus m b.addr status) b.addr
        = chunkGetPrevFree m b.addr := by
  have hge := h.fits.span_ge
  have hstatus : chunkGetStatus (chunkSetStatus m b.addr status) b.addr = status := by
    rcases hstate with ⟨_, rfl⟩ | ⟨_, rfl⟩
    · exact loadInt_storeInt m b.addr (by decide) (by decide)
    · exact loadInt_storeInt m b.addr (by decide) (by decide)
  have hheader : chunkGetSpan (chunkSetStatus m b.addr status) b.addr = b.span := by
    rw [← h.header]
    exact loadInt_storeInt_ne (by omega)
  -- The new status is that of the new state, and the spans and links are not touched.
  refine ⟨⟨h.fits.withState state, hheader, ?_, ?_, ?_, ?_⟩, ?_, ?_⟩
  · show footerSpan (chunkSetStatus m b.addr status) b.foot = b.span
    rw [← h.footer]
    exact loadInt_storeInt_ne (by unfold Block.foot; omega)
  · intro hfree
    rw [hstatus]
    rcases hstate with ⟨_, hs⟩ | ⟨hs, _⟩
    · exact hs
    · rw [show state = .free from hfree] at hs
      cases hs
  · intro hused
    rw [hstatus]
    rcases hstate with ⟨hs, _⟩ | ⟨_, hs⟩
    · rw [hs] at hused
      simp at hused
    · exact hs
  · intro hlive
    rcases hstate with ⟨hs, _⟩ | ⟨hs, _⟩ <;> rw [hs] at hlive <;> cases hlive
  · exact loadPtr_storeInt_ne (by omega)
  · unfold chunkGetPrevFree
    rw [getFooter_eq h.fits hheader, getFooter_eq h.fits h.header]
    exact loadPtr_storeInt_ne (by unfold Block.foot; omega)

/-- It writes into the header of the block. -/
theorem chunkSetStatus_byte (hfits : b.Fits) (status : Int) {x : Nat}
    (hx : x < b.addr ∨ b.stop ≤ x) : (chunkSetStatus m b.addr status).byte x = m.byte x := by
  have hge := hfits.span_ge
  unfold Block.stop at hx
  exact store_byte (by omega)

/-- `chunk_set_span` writes the span into the header, and then into the footer that is found with
it. -/
theorem chunkSetSpan_eq (hfits : b.Fits) : chunkSetSpan m b.addr b.span
    = storeInt (storeInt m (b.addr + 4) b.span) b.foot b.span := by
  have hge := hfits.span_ge
  have hsmall := hfits.small
  have hspan : chunkGetSpan (storeInt m (b.addr + 4) b.span) b.addr = b.span :=
    loadInt_storeInt m (b.addr + 4) (by omega) (by omega)
  rw [chunkSetSpan, getFooter_eq hfits hspan]

/-- `chunk_set_span` makes a block of any memory. The block has no status yet, so it is raw. -/
theorem good_setSpan (hfits : b.Fits) :
    Good (chunkSetSpan m b.addr b.span) g { b with state := .raw } := by
  have hge := hfits.span_ge
  have hsmall := hfits.small
  rw [chunkSetSpan_eq hfits]
  -- The write to the footer does not reach the header, because the block has at least two units.
  refine ⟨hfits.withState .raw, ?_, ?_, ?_, ?_, ?_⟩
  · have hapart : b.addr + 4 + 4 ≤ b.foot ∨ b.foot + 4 ≤ b.addr + 4 := by
      unfold Block.foot
      omega
    exact (loadInt_storeInt_ne hapart).trans (loadInt_storeInt _ _ (by omega) (by omega))
  · exact loadInt_storeInt _ _ (by omega) (by omega)
  · intro hfree
    cases hfree
  · intro hused
    rcases hused with hused | hused <;> cases hused
  · intro hlive
    cases hlive

/-- It does not change the status and the link in the header. -/
theorem setSpan_header (hfits : b.Fits) :
    chunkGetStatus (chunkSetSpan m b.addr b.span) b.addr = chunkGetStatus m b.addr ∧
      chunkGetNextFree (chunkSetSpan m b.addr b.span) b.addr = chunkGetNextFree m b.addr := by
  have hge := hfits.span_ge
  rw [chunkSetSpan_eq hfits]
  constructor
  · unfold chunkGetStatus
    rw [loadInt_storeInt_ne (by unfold Block.foot; omega), loadInt_storeInt_ne (by omega)]
  · unfold chunkGetNextFree
    rw [loadPtr_storeInt_ne (by unfold Block.foot; omega), loadPtr_storeInt_ne (by omega)]

/-- It writes into the header and the footer of the new block. -/
theorem setSpan_byte (hfits : b.Fits) {x : Nat} (hx : x < b.addr ∨ b.stop ≤ x) :
    (chunkSetSpan m b.addr b.span).byte x = m.byte x := by
  have hge := hfits.span_ge
  rw [chunkSetSpan_eq hfits]
  unfold Block.stop at hx
  unfold storeInt
  rw [store_byte (by unfold Block.foot; omega), store_byte (by omega)]

end

/-! ### The whole heap -/

section
variable {m m' g : Mem} {lo hi : Nat} {bs pre mid mid' suf : List Block} {b c d : Block}

/-- Some adjacent blocks are replaced by others on the same bytes. The blocks on either side are as
they were. -/
theorem Phys.replace {start stop : Nat} (h : Phys m g lo (pre ++ (mid ++ suf)) hi)
    (hold : Tiles start mid stop) (hnew : Tiles start mid' stop) (hmid : mid ≠ [])
    (hout : ∀ x, x < start ∨ stop ≤ x → m'.byte x = m.byte x)
    (hgood : ∀ d ∈ mid', Good m' g d) : Phys m' g lo (pre ++ (mid' ++ suf)) hi := by
  -- Without a block in the middle, its start and its stop could be anywhere.
  obtain ⟨c, mid, rfl⟩ := List.exists_cons_of_ne_nil hmid
  obtain ⟨a, hpre, htiles⟩ := tiles_append.mp h.tiles
  obtain ⟨z, hmid, hsuf⟩ := tiles_append.mp htiles
  have ha : a = start := hmid.1.symm.trans hold.1
  have hz : z = stop := hmid.2.unique hold.2
  subst ha hz
  have htiles' : Tiles lo (pre ++ (mid' ++ suf)) hi :=
    tiles_append.mpr ⟨a, hpre, tiles_append.mpr ⟨z, hnew, hsuf⟩⟩
  -- A block on either side keeps its bytes, and the new ones are good by assumption.
  refine ⟨htiles', ?_, h.hi_lt, h.pos⟩
  intro d hd
  rcases List.mem_append.mp hd with hd | hd
  · have hle := (hpre.mem_bounds hd).2
    exact (h.good d (by simp [hd])).congr fun x hlo hhi => hout x (by omega)
  · rcases List.mem_append.mp hd with hd | hd
    · exact hgood d hd
    · have hle := (hsuf.mem_bounds hd).1
      exact (h.good d (by simp [hd])).congr fun x hlo hhi => hout x (by omega)

/-- The blocks lie in the heap, so what is made of some of them fits, when its size is an `int`. -/
theorem Phys.fits (h : Phys m g lo bs hi) {b : Block} (hlo : lo ≤ b.addr) (hhi : b.stop ≤ hi)
    (hspan : 2 ≤ b.span) (hsmall : b.Small) : b.Fits := by
  have hlt := h.hi_lt
  have hpos := h.pos
  unfold Block.stop at hhi
  exact ⟨by omega, hspan, hsmall, by omega⟩

/-- Two blocks do not overlap. -/
theorem Phys.apart (h : Phys m g lo bs hi) (hb : b ∈ bs) (hd : d ∈ bs) :
    b = d ∨ b.stop ≤ d.addr ∨ d.stop ≤ b.addr := by
  obtain ⟨pre, suf, rfl⟩ := List.append_of_mem hb
  rcases List.mem_append.mp hd with hd | hd
  · exact Or.inr (Or.inr (h.tiles.before hd))
  · rcases List.mem_cons.mp hd with rfl | hd
    · exact Or.inl rfl
    · exact Or.inr (Or.inl (h.tiles.behind hd))

/-- The blocks have different addresses. -/
theorem Phys.addr_inj (h : Phys m g lo bs hi) (hb : b ∈ bs) (hd : d ∈ bs)
    (haddr : b.addr = d.addr) : b = d := by
  have hbspan := (h.good b hb).fits.span_ge
  have hdspan := (h.good d hd).fits.span_ge
  rcases h.apart hb hd with heq | hle | hle
  · exact heq
  · unfold Block.stop at hle
    omega
  · unfold Block.stop at hle
    omega

/-- The blocks on either side of a block have other addresses. -/
theorem Phys.ne_of_side (h : Phys m g lo (pre ++ b :: suf) hi) (hd : d ∈ pre ∨ d ∈ suf) :
    d.addr ≠ b.addr := by
  have hb := (h.good b (by simp)).fits.span_ge
  rcases hd with hd | hd
  · have hspan := (h.good d (by simp [hd])).fits.span_ge
    have hle := h.tiles.before hd
    unfold Block.stop at hle
    omega
  · have hle := h.tiles.behind hd
    unfold Block.stop at hle
    omega

/-- A write into one block leaves the links of the others alone. -/
theorem Phys.links_ne (h : Phys m g lo bs hi) (hb : b ∈ bs) (hd : d ∈ bs)
    (hne : d.addr ≠ b.addr) (hout : ∀ x, x < b.addr ∨ b.stop ≤ x → m'.byte x = m.byte x) :
    chunkGetNextFree m' d.addr = chunkGetNextFree m d.addr ∧
      chunkGetPrevFree m' d.addr = chunkGetPrevFree m d.addr := by
  refine (h.good d hd).links_congr fun x hlo hhi => hout x ?_
  rcases h.apart hb hd with heq | hle | hle
  · exact absurd (by rw [heq]) hne
  · omega
  · omega

/-- A write into one block that keeps its place. -/
theorem Phys.update (h : Phys m g lo (pre ++ b :: suf) hi) {b' : Block}
    (haddr : b'.addr = b.addr) (hspan : b'.span = b.span)
    (hout : ∀ x, x < b.addr ∨ b.stop ≤ x → m'.byte x = m.byte x) (hgood : Good m' g b') :
    Phys m' g lo (pre ++ b' :: suf) hi := by
  have hstop : b'.stop = b.stop := by
    unfold Block.stop
    rw [haddr, hspan]
  -- The block is replaced by one at the same place.
  have hold : Tiles b.addr [b] b.stop := ⟨rfl, rfl⟩
  have hnew : Tiles b.addr [b'] b.stop := ⟨haddr, hstop⟩
  have hmem : ∀ d ∈ [b'], Good m' g d := by
    intro d hd
    rw [List.mem_singleton.mp hd]
    exact hgood
  exact Phys.replace (show Phys m g lo (pre ++ ([b] ++ suf)) hi from h) hold hnew
    (List.cons_ne_nil _ _) hout hmem

/-- `chunk_set_next_free` on a block of the heap. No other link changes, in this block or another.
-/
theorem Phys.setNextFree (h : Phys m g lo bs hi) (hb : b ∈ bs) (hlive : b.state ≠ .live)
    {v : Nat} (hv : v < 2 ^ 64) :
    Phys (chunkSetNextFree m b.addr v) g lo bs hi ∧
      ∀ d ∈ bs, chunkGetNextFree (chunkSetNextFree m b.addr v) d.addr
          = (if d.addr = b.addr then v else chunkGetNextFree m d.addr) ∧
        chunkGetPrevFree (chunkSetNextFree m b.addr v) d.addr = chunkGetPrevFree m d.addr := by
  have hgood := h.good b hb
  obtain ⟨hgood', hnext, hprev⟩ := hgood.setNextFree hlive hv
  have hout : ∀ x, x < b.addr ∨ b.stop ≤ x → (chunkSetNextFree m b.addr v).byte x = m.byte x :=
    fun x hx => chunkSetNextFree_byte hgood.fits v hx
  constructor
  · obtain ⟨pre, suf, rfl⟩ := List.append_of_mem hb
    exact h.update rfl rfl hout hgood'
  · intro d hd
    by_cases heq : d.addr = b.addr
    · rw [if_pos heq, heq]
      exact ⟨hnext, hprev⟩
    · rw [if_neg heq]
      exact h.links_ne hb hd heq hout

/-- `chunk_set_prev_free` on a block of the heap. No other link changes, in this block or another.
-/
theorem Phys.setPrevFree (h : Phys m g lo bs hi) (hb : b ∈ bs) (hlive : b.state ≠ .live)
    {v : Nat} (hv : v < 2 ^ 64) :
    Phys (chunkSetPrevFree m b.addr v) g lo bs hi ∧
      ∀ d ∈ bs, chunkGetNextFree (chunkSetPrevFree m b.addr v) d.addr
          = chunkGetNextFree m d.addr ∧
        chunkGetPrevFree (chunkSetPrevFree m b.addr v) d.addr
          = (if d.addr = b.addr then v else chunkGetPrevFree m d.addr) := by
  have hgood := h.good b hb
  obtain ⟨hgood', hnext, hprev⟩ := hgood.setPrevFree hlive hv
  have hout : ∀ x, x < b.addr ∨ b.stop ≤ x → (chunkSetPrevFree m b.addr v).byte x = m.byte x :=
    fun x hx => hgood.setPrevFree_byte v hx
  constructor
  · obtain ⟨pre, suf, rfl⟩ := List.append_of_mem hb
    exact h.update rfl rfl hout hgood'
  · intro d hd
    by_cases heq : d.addr = b.addr
    · rw [if_pos heq, heq]
      exact ⟨hnext, hprev⟩
    · rw [if_neg heq]
      exact h.links_ne hb hd heq hout

/-- `chunk_set_status` on a block of the heap. All the links stay, and only this block has another
state. -/
theorem Phys.setStatus (h : Phys m g lo (pre ++ b :: suf) hi) {status : Int}
    {state : BlockState}
    (hstate : state = .free ∧ status = chunkFree ∨ state = .used ∧ status = chunkUsed) :
    Phys (chunkSetStatus m b.addr status) g lo (pre ++ { b with state := state } :: suf) hi ∧
      ∀ d ∈ pre ++ b :: suf,
        chunkGetNextFree (chunkSetStatus m b.addr status) d.addr = chunkGetNextFree m d.addr ∧
        chunkGetPrevFree (chunkSetStatus m b.addr status) d.addr
          = chunkGetPrevFree m d.addr := by
  have hb : b ∈ pre ++ b :: suf := by simp
  have hgood := h.good b hb
  obtain ⟨hgood', hnext, hprev⟩ := hgood.setStatus hstate
  have hout : ∀ x, x < b.addr ∨ b.stop ≤ x →
      (chunkSetStatus m b.addr status).byte x = m.byte x :=
    fun x hx => chunkSetStatus_byte hgood.fits status hx
  refine ⟨h.update rfl rfl hout hgood', ?_⟩
  intro d hd
  by_cases heq : d.addr = b.addr
  · rw [heq]
    exact ⟨hnext, hprev⟩
  · exact h.links_ne hb hd heq hout

end

end SysProg.Memory
