import SysProg.Lib.Headers
import SysProg.Memory.Heapmgrbase
import SysProg.Proofs.Memory.Layout

/-!
# `SysProg.Proofs.Memory.BaseBlocks`: the blocks of `heapmgrbase.c`

The header of `chunkbase.c` as a `HeaderLayout`, and the writes to it on the blocks of a heap.
`Blocks` says that the heap consists of some pieces, each with its span and its status in its
header. Every lemma gives the new pieces and the links of their headers.
-/

set_option autoImplicit false

namespace SysProg.Memory.Heapmgrbase

open SysProg.Lib

/-! ### The fields of a header -/

/-- The unit of a header. -/
def unitAt (c : Nat) : Nat → Prop := fun x => c ≤ x ∧ x < c + 16

/-- A write to a span stays in the unit of its header. -/
theorem chunkSetSpanUnits_within (m : Mem) (c : Nat) (v : Int) :
    Within (unitAt c) m (chunkSetSpanUnits m c v) := by
  intro x hx
  unfold unitAt at hx
  exact store_byte (by omega)

/-- A write to a link stays in the unit of its header. -/
theorem chunkSetNextFree_within (m : Mem) (c v : Nat) :
    Within (unitAt c) m (chunkSetNextFree m c v) := by
  intro x hx
  unfold unitAt at hx
  exact store_byte (by omega)

/-- A write to a status stays in the unit of its header. -/
theorem chunkSetStatus_within (m : Mem) (c : Nat) (v : Int) :
    Within (unitAt c) m (chunkSetStatus m c v) := by
  intro x hx
  unfold unitAt at hx
  exact store_byte (by omega)

/-- The header of `chunkbase.c`. A span that is positive is the same number as an `int`. -/
def headers : HeaderLayout where
  width := 16
  maxSpan := intMax
  span m c := (chunkGetSpanUnits m c).toNat
  setSpan m c v := chunkSetSpanUnits m c v
  next := chunkGetNextFree
  setNext := chunkSetNextFree
  width_pos := by decide
  span_setSpan m c v hv := by
    unfold intMax at hv
    show (loadInt (storeInt m (c + 4) v) (c + 4)).toNat = v
    rw [loadInt_storeInt m (c + 4) (by omega) (by omega)]
    omega
  next_setNext m c _ hv := loadPtr_storePtr m (c + 8) hv
  span_setNext m c v := by
    show (loadInt (storePtr m (c + 8) v) (c + 4)).toNat = _
    rw [loadInt_storePtr_ne (by omega)]
    rfl
  next_setSpan m c v := loadPtr_storeInt_ne (by omega)
  span_congr := by
    intro m m' c h
    show (loadInt m' (c + 4)).toNat = (loadInt m (c + 4)).toNat
    unfold loadInt
    rw [load_congr fun x hlo hhi => h x (by omega) (by omega)]
  next_congr h := load_congr fun x hlo hhi => h x (by omega) (by omega)
  setSpan_within m c v := chunkSetSpanUnits_within m c v
  setNext_within m c v := chunkSetNextFree_within m c v

/-- A header has one unit. -/
theorem headers_width : headers.width = 16 := rfl

/-- A span is a positive `int`, so this is the largest one. -/
theorem headers_maxSpan : headers.maxSpan = intMax := rfl

/-- The span of the library is the one of the code, as a natural number. -/
theorem headers_span (m : Mem) (c : Nat) :
    headers.span m c = (chunkGetSpanUnits m c).toNat := by
  simp only [headers]

/-- A write to a span is the one of the code. -/
theorem headers_setSpan (m : Mem) (c v : Nat) :
    headers.setSpan m c v = chunkSetSpanUnits m c v := by
  simp only [headers]

section
variable {m m' : Mem} {c d v : Nat} {x : Int}

/-- Only the bytes of a header matter to its status. -/
theorem status_congr (h : ∀ x, c ≤ x → x < c + 16 → m'.byte x = m.byte x) :
    chunkGetStatus m' c = chunkGetStatus m c := by
  unfold chunkGetStatus loadInt
  rw [load_congr fun x hlo hhi => h x (by omega) (by omega)]

/-- The status is in front of the other two fields, so a write to a span leaves it alone. -/
theorem status_setSpan (h : headers.Apart c d) :
    chunkGetStatus (chunkSetSpanUnits m c x) d = chunkGetStatus m d := by
  by_cases heq : d = c
  · rw [heq]
    exact loadInt_storeInt_ne (by omega)
  · exact status_congr (HeaderLayout.congr_of_ne h heq (chunkSetSpanUnits_within m c x))

/-- A write to a link leaves it alone too. -/
theorem status_setNext (h : headers.Apart c d) :
    chunkGetStatus (chunkSetNextFree m c v) d = chunkGetStatus m d := by
  by_cases heq : d = c
  · rw [heq]
    exact loadInt_storePtr_ne (by omega)
  · exact status_congr (HeaderLayout.congr_of_ne h heq (chunkSetNextFree_within m c v))

/-- A write to a status leaves that of the other headers alone. -/
theorem status_setStatus_ne (h : headers.Apart c d) (hne : d ≠ c) :
    chunkGetStatus (chunkSetStatus m c x) d = chunkGetStatus m d :=
  status_congr (HeaderLayout.congr_of_ne h hne (chunkSetStatus_within m c x))

/-- A write to a status leaves all spans alone. -/
theorem span_setStatus (h : headers.Apart c d) :
    headers.span (chunkSetStatus m c x) d = headers.span m d := by
  by_cases heq : d = c
  · rw [heq, headers_span, headers_span]
    unfold chunkGetSpanUnits chunkSetStatus
    rw [loadInt_storeInt_ne (by omega)]
  · exact headers.span_congr (HeaderLayout.congr_of_ne h heq (chunkSetStatus_within m c x))

/-- A write to a status leaves all links alone. -/
theorem next_setStatus (h : headers.Apart c d) :
    headers.next (chunkSetStatus m c x) d = headers.next m d := by
  by_cases heq : d = c
  · rw [heq]
    exact loadPtr_storeInt_ne (by omega)
  · exact headers.next_congr (HeaderLayout.congr_of_ne h heq (chunkSetStatus_within m c x))

end

/-! ### The blocks of a heap -/

/-- The difference of a positive number and a smaller one. The code subtracts as `int`, and the
layout does as a natural number. -/
theorem toNat_sub {x : Int} {k : Nat} (h : k < x) : ((x.toNat - k : Nat) : Int) = x - k := by
  omega

/-- The status of a piece. -/
def statusOf (free : Bool) : Int := if free then chunkFree else chunkUsed

/-- The heap from `lo` to `hi` consists of the blocks `ps`, with their headers in memory. All the
spans together are an `int`. -/
structure Blocks (m : Mem) (lo : Nat) (ps : List Piece) (hi : Nat) : Prop where
  laid : Laid headers m lo ps hi
  status : ∀ p ∈ ps, chunkGetStatus m p.start = statusOf p.free
  pos : 0 < lo
  small : hi ≤ lo + 16 * intMax
  lt : hi < 2 ^ 64

namespace Blocks

variable {m : Mem} {lo hi v : Nat} {p q : Piece} {ps pre suf : List Piece}

/-- The span of a block, as it is read. In units of 16 bytes it is the length of the block, and it
is a positive `int`. -/
theorem span_eq (h : Blocks m lo ps hi) (hp : p ∈ ps) :
    16 * chunkGetSpanUnits m p.start = p.len ∧ 1 ≤ chunkGetSpanUnits m p.start ∧
      chunkGetSpanUnits m p.start ≤ intMax := by
  have hspan := h.laid.span p hp
  rw [headers_width, headers_span] at hspan
  have hbounds := h.laid.tiled.mem_bounds hp
  have hsmall := h.small
  unfold Piece.stop at hbounds
  omega

/-- A block is at an address, in the heap. So it is not `NULL`, and its end does not wrap. -/
theorem bounds (h : Blocks m lo ps hi) (hp : p ∈ ps) :
    0 < p.start ∧ lo ≤ p.start ∧ p.start + 16 ≤ p.stop ∧ p.stop ≤ hi ∧ p.stop < 2 ^ 64 := by
  have hbounds := h.laid.tiled.mem_bounds hp
  have hwidth : 16 ≤ p.len := h.laid.width_le hp
  have hpos := h.pos
  have hlt := h.lt
  unfold Piece.stop at hbounds ⊢
  omega

/-- The block behind another one. In the source it is the address behind the span, or `NULL` from
the end of the heap on. -/
theorem chunkGetAdjacent_eq (h : Blocks m lo ps hi) (hp : p ∈ ps) (debug : Bool) :
    chunkGetAdjacent debug m p.start lo hi = .ok (if hi ≤ p.stop then 0 else p.stop) := by
  obtain ⟨hspan, -, -⟩ := h.span_eq hp
  have hbounds := h.bounds hp
  have haddr : ptrAdd p.start (chunkGetSpanUnits m p.start * chunkUnit) = p.stop := by
    refine ptrAdd_eq ?_ hbounds.2.2.2.2
    unfold chunkUnit Piece.stop
    omega
  unfold chunkGetAdjacent check
  rw [decide_eq_true hbounds.2.1, Bool.not_true, Bool.and_false, if_neg Bool.false_ne_true, haddr]
  rfl

/-- A write to a link keeps the blocks. It touches no span and no status. -/
theorem setNext (h : Blocks m lo ps hi) (hp : p ∈ ps) :
    Blocks (chunkSetNextFree m p.start v) lo ps hi :=
  ⟨h.laid.setNext fun _ hq => h.laid.apart hp hq,
    fun q hq => by rw [status_setNext (h.laid.apart hp hq), h.status q hq], h.pos, h.small, h.lt⟩

/-- A write to a status changes whether the block is free, and nothing else. -/
theorem setStatus (h : Blocks m lo (pre ++ p :: suf) hi) (b : Bool) :
    Blocks (chunkSetStatus m p.start (statusOf b)) lo (pre ++ { p with free := b } :: suf) hi := by
  have hp : p ∈ pre ++ p :: suf := List.mem_append_right _ List.mem_cons_self
  have hplen := (h.laid.tiled.mem_bounds hp).2.1
  refine ⟨?_, ?_, h.pos, h.small, h.lt⟩
  · exact (h.laid.congr fun q hq => span_setStatus (h.laid.apart hp hq)).setFree b
  · have hother : ∀ q ∈ pre ++ p :: suf, q.start ≠ p.start →
        chunkGetStatus (chunkSetStatus m p.start (statusOf b)) q.start = statusOf q.free :=
      fun q hq hne => by rw [status_setStatus_ne (h.laid.apart hp hq) hne, h.status q hq]
    intro q hq
    rcases List.mem_append.mp hq with hq | hq
    · refine hother q (List.mem_append_left _ hq) ?_
      have hle := h.laid.tiled.before hq
      have hqlen := (h.laid.tiled.mem_bounds (List.mem_append_left _ hq)).2.1
      omega
    · rcases List.mem_cons.mp hq with rfl | hq
      · refine loadInt_storeInt m p.start ?_ ?_
        · cases b <;> decide
        · cases b <;> decide
      · refine hother q (List.mem_append_right _ (List.mem_cons_of_mem _ hq)) ?_
        have hle := h.laid.tiled.behind hq
        omega

/-- Two neighbours become one, with the status of the first. The sum of the spans is an `int`, as
those of the whole heap together are. -/
theorem join (h : Blocks m lo (pre ++ p :: q :: suf) hi) :
    Blocks (chunkSetSpanUnits m p.start
        (i32 (chunkGetSpanUnits m p.start + chunkGetSpanUnits m q.start))) lo
      (pre ++ p.join q :: suf) hi := by
  have hpmem : p ∈ pre ++ p :: q :: suf := List.mem_append_right _ List.mem_cons_self
  have hqmem : q ∈ pre ++ p :: q :: suf :=
    List.mem_append_right _ (List.mem_cons_of_mem _ List.mem_cons_self)
  obtain ⟨hpspan, hppos, -⟩ := h.span_eq hpmem
  obtain ⟨hqspan, hqpos, -⟩ := h.span_eq hqmem
  have hsum : headers.span m p.start + headers.span m q.start ≤ headers.maxSpan := by
    have hbelow := (h.bounds hpmem).2.1
    have habove := (h.bounds hqmem).2.2.2.1
    have hstart := (tiled_split.mp h.laid.tiled).2.2.1
    have hsmall := h.small
    unfold Piece.stop at hstart habove
    rw [headers_span, headers_span, headers_maxSpan]
    unfold intMax at hsmall ⊢
    omega
  have hset : chunkSetSpanUnits m p.start
      (i32 (chunkGetSpanUnits m p.start + chunkGetSpanUnits m q.start))
      = headers.setSpan m p.start (headers.span m p.start + headers.span m q.start) := by
    rw [headers_span, headers_span, headers_maxSpan] at hsum
    have hexact : i32 (chunkGetSpanUnits m p.start + chunkGetSpanUnits m q.start)
        = ((chunkGetSpanUnits m p.start).toNat + (chunkGetSpanUnits m q.start).toNat : Nat) := by
      unfold intMax at hsum
      rw [i32_eq (by omega) (by omega)]
      omega
    rw [headers_span, headers_span, headers_setSpan, hexact]
  rw [hset]
  refine ⟨h.laid.join hsum, fun r hr => ?_, h.pos, h.small, h.lt⟩
  have hold : ∀ r ∈ pre ++ p :: q :: suf, chunkGetStatus (headers.setSpan m p.start
      (headers.span m p.start + headers.span m q.start)) r.start = statusOf r.free :=
    fun r hr => (status_setSpan (h.laid.apart hpmem hr)).trans (h.status r hr)
  rcases List.mem_append.mp hr with hr | hr
  · exact hold r (List.mem_append_left _ hr)
  · rcases List.mem_cons.mp hr with rfl | hr
    · exact hold p hpmem
    · exact hold r (List.mem_append_right _ (List.mem_cons_of_mem _ (List.mem_cons_of_mem _ hr)))

/-- A unit behind the header of a block is apart from all headers. There a block in use has its
data, and a new header can be written there. -/
theorem apart_inside (h : Blocks m lo ps hi) (hp : p ∈ ps) {c : Nat} (hlo : p.start + 16 ≤ c)
    (hhi : c + 16 ≤ p.stop) (hq : q ∈ ps) : headers.Apart c q.start ∧ q.start ≠ c := by
  have hwidth := h.bounds hq
  unfold HeaderLayout.Apart
  rw [headers_width]
  rcases h.laid.tiled.apart hp hq with rfl | hle | hle
  · omega
  · omega
  · omega

/-- The rest of a block, and its end as a new block in use. The rest keeps the header and stays in
the list, and the end gets its span and its status. -/
theorem cut (h : Blocks m lo (pre ++ p :: suf) hi) (hp : p.free = true) {k : Nat} (hk : 0 < k)
    (hlt : (k : Int) < chunkGetSpanUnits m p.start) :
    Blocks (chunkSetStatus (chunkSetSpanUnits (chunkSetSpanUnits m p.start
        (chunkGetSpanUnits m p.start - k)) (p.stop - 16 * k) k) (p.stop - 16 * k) chunkUsed) lo
      (pre ++ ⟨p.start, p.len - 16 * k, true⟩ :: p.tail (16 * k) :: suf) hi := by
  have hmem : p ∈ pre ++ p :: suf := List.mem_append_right _ List.mem_cons_self
  obtain ⟨hspan, hpos, hmax⟩ := h.span_eq hmem
  have hbounds := h.bounds hmem
  have hinside : p.start + 16 ≤ p.stop - 16 * k ∧ p.stop - 16 * k + 16 ≤ p.stop := by
    unfold Piece.stop at hbounds ⊢
    omega
  have happ : ∀ q ∈ pre ++ p :: suf, headers.Apart (p.stop - 16 * k) q.start ∧
      q.start ≠ p.stop - 16 * k :=
    fun q hq => h.apart_inside hmem hinside.1 hinside.2 hq
  have hlaid := h.laid.cut (k := k) (b := true) hk
    (by rw [headers_span]; omega) (by rw [headers_span, headers_maxSpan]; omega)
  rw [headers_width, headers_setSpan, headers_setSpan, headers_span, toNat_sub hlt] at hlaid
  have htail : p.tail (16 * k) ∈
      pre ++ ⟨p.start, p.len - 16 * k, true⟩ :: p.tail (16 * k) :: suf :=
    List.mem_append_right _ (List.mem_cons_of_mem _ List.mem_cons_self)
  refine ⟨hlaid.congr fun q hq => span_setStatus (hlaid.apart htail hq), ?_, h.pos, h.small, h.lt⟩
  -- The old blocks have the statuses they had.
  have hold : ∀ q ∈ pre ++ p :: suf, chunkGetStatus (chunkSetStatus (chunkSetSpanUnits
      (chunkSetSpanUnits m p.start (chunkGetSpanUnits m p.start - k)) (p.stop - 16 * k) k)
      (p.stop - 16 * k) chunkUsed) q.start = statusOf q.free := by
    intro q hq
    rw [status_setStatus_ne (happ q hq).1 (happ q hq).2, status_setSpan (happ q hq).1,
      status_setSpan (h.laid.apart hmem hq), h.status q hq]
  intro q hq
  rcases List.mem_append.mp hq with hq | hq
  · exact hold q (List.mem_append_left _ hq)
  · rcases List.mem_cons.mp hq with rfl | hq
    · exact (hold p hmem).trans (by rw [hp])
    · rcases List.mem_cons.mp hq with rfl | hq
      · exact loadInt_storeInt _ _ (by decide) (by decide)
      · exact hold q (List.mem_append_right _ (List.mem_cons_of_mem _ hq))

/-- A new block in use behind the others. This is what the heap has grown by, as long as all spans
together are an `int`. -/
theorem snoc (h : Blocks m lo ps hi) {k : Nat} (hk : 0 < k)
    (hsmall : hi + 16 * k ≤ lo + 16 * intMax) (hlt : hi + 16 * k < 2 ^ 64) :
    Blocks (chunkSetStatus (chunkSetNextFree (chunkSetSpanUnits m hi k) hi 0) hi chunkUsed) lo
      (ps ++ [⟨hi, 16 * k, false⟩]) (hi + 16 * k) := by
  have hle := h.laid.tiled.le
  have hlaid := h.laid.snoc (k := k) (b := false) hk (by rw [headers_maxSpan]; omega)
  rw [headers_width, headers_setSpan] at hlaid
  have hnew : (⟨hi, 16 * k, false⟩ : Piece) ∈ ps ++ [⟨hi, 16 * k, false⟩] :=
    List.mem_append_right _ List.mem_cons_self
  have hlaid' : Laid headers (chunkSetNextFree (chunkSetSpanUnits m hi k) hi 0) lo
      (ps ++ [⟨hi, 16 * k, false⟩]) (hi + 16 * k) :=
    hlaid.setNext fun q hq => hlaid.apart hnew hq
  refine ⟨hlaid'.congr fun q hq => span_setStatus (hlaid.apart hnew hq), ?_, h.pos, hsmall, hlt⟩
  intro q hq
  rcases List.mem_append.mp hq with hold | hold
  · have hbounds := h.bounds hold
    have happ := hlaid.apart hnew hq
    rw [status_setStatus_ne happ (by show q.start ≠ hi; omega), status_setNext happ,
      status_setSpan happ, h.status q hold]
  · rw [List.mem_singleton.mp hold]
    exact loadInt_storeInt _ _ (by decide) (by decide)

end Blocks

end SysProg.Memory.Heapmgrbase
