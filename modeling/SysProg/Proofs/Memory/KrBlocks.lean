import SysProg.Lib.Headers
import SysProg.Memory.Heapmgrkr
import SysProg.Proofs.Memory.Layout

/-!
# `SysProg.Proofs.Memory.KrBlocks`: the blocks of `heapmgrkr.c`

The header of `heapmgrkr.c` as a `HeaderLayout`, and the ring of the free blocks. `Rep` says that
the memory from the first break to the last one consists of some pieces, and that the links lead
from `base` through the free ones, in the order of their addresses, and back to `base`.
-/

set_option autoImplicit false

namespace SysProg.Memory.Heapmgrkr

open SysProg.Lib

/-! ### The fields of a header -/

/-- The unit of a header. -/
def unitAt (c : Nat) : Nat → Prop := fun x => c ≤ x ∧ x < c + 16

/-- A write to a size stays in the unit of its header. -/
theorem setSize_within (m : Mem) (c v : Nat) : Within (unitAt c) m (setSize m c v) := by
  intro x hx
  unfold unitAt at hx
  exact store_byte (by omega)

/-- A write to a link stays in the unit of its header. -/
theorem setPtr_within (m : Mem) (c v : Nat) : Within (unitAt c) m (setPtr m c v) := by
  intro x hx
  unfold unitAt at hx
  exact store_byte (by omega)

/-- The width of the layout is positive. -/
theorem width_pos : 0 < 16 := by decide

/-- The header of `heapmgrkr.c`. The size is an `unsigned`. -/
def headers : HeaderLayout where
  width := 16
  maxSpan := 4294967295
  span := getSize
  setSpan := setSize
  next := getPtr
  setNext := setPtr
  width_pos := width_pos
  span_setSpan m c v hv := load_store m (c + 8) (show v < 256 ^ 4 by omega)
  next_setNext m c v hv := loadPtr_storePtr m c hv
  span_setNext m c v := load_store_of_disjoint (by omega)
  next_setSpan m c v := load_store_of_disjoint (by omega)
  span_congr h := load_congr fun x hlo hhi => h x (by omega) (by omega)
  next_congr h := load_congr fun x hlo hhi => h x (by omega) (by omega)
  setSpan_within m c v := setSize_within m c v
  setNext_within m c v := setPtr_within m c v

/-- A header has one unit, as `sizeof(Header)` is 16. -/
theorem headers_width : headers.width = 16 := rfl

/-- A size is an `unsigned`, so this is the largest one. -/
theorem headers_maxSpan : headers.maxSpan = 4294967295 := rfl

/-- A size that is read is an `unsigned`. -/
theorem getSize_lt (m : Mem) (c : Nat) : getSize m c < 2 ^ 32 := load_lt m (c + 8) 4

/-- A link that is read is an address. -/
theorem getPtr_lt (m : Mem) (c : Nat) : getPtr m c < 2 ^ 64 := loadPtr_lt m c

/-- A write to a size leaves all links alone, its own as well. -/
theorem getPtr_setSize {m : Mem} {c d v : Nat} (h : headers.Apart c d) :
    getPtr (setSize m c v) d = getPtr m d := by
  have hsame := HeaderLayout.next_setSpan_apart (m := m) (v := v) h
  exact hsame

/-- The sum of two sizes that is a size. Then the addition of the code does not wrap. -/
theorem u32_eq {x : Nat} (hx : x ≤ 4294967295) : u32 x = x := Nat.mod_eq_of_lt (by omega)

/-! ### The blocks of a heap -/

/-- The memory that `sbrk` has given consists of the blocks `ps`, and the free ones are in the ring.
The header `base` is in front of the memory. -/
structure Rep (h : State) (ps : List Piece) : Prop where
  laid : Laid headers h.mem h.bottom ps h.brk
  ring : FreeCycle headers h.base h.mem ps
  size : getSize h.mem h.base = 0
  pos : 0 < h.base
  below : h.base + 16 ≤ h.bottom
  small : h.brk ≤ h.bottom + 16 * 4294967295
  lt : h.brk < 2 ^ 64

/-- Only the rover and bytes of `S` differ. -/
structure Edits (S : Nat → Prop) (h h' : State) : Prop where
  base : h'.base = h.base
  brk : h'.brk = h.brk
  bottom : h'.bottom = h.bottom
  limit : h'.limit = h.limit
  within : Within S h.mem h'.mem

namespace Rep

variable {h : State} {p q : Piece} {ps pre suf : List Piece} {c : Nat}

/-- A block is at an address behind `base`. So `base` is never a block, and the end of a block does
not wrap. -/
theorem bounds (r : Rep h ps) (hp : p ∈ ps) :
    h.base + 16 ≤ p.start ∧ p.start + 16 ≤ p.stop ∧ p.stop ≤ h.brk ∧ p.stop < 2 ^ 64 ∧
      h.bottom ≤ p.start := by
  have hbounds := r.laid.tiled.mem_bounds hp
  have hwidth : 16 ≤ p.len := r.laid.width_le hp
  have hbelow := r.below
  have hlt := r.lt
  unfold Piece.stop at hbounds ⊢
  omega

/-- The size of a block, as it is read. In units of 16 bytes it is the length of the block. -/
theorem size_eq (r : Rep h ps) (hp : p ∈ ps) : 16 * getSize h.mem p.start = p.len :=
  r.laid.span p hp

/-- The block behind another one. The code adds the size to a pointer to a header, and there is no
overflow. -/
theorem headerAdd_size (r : Rep h ps) (hp : p ∈ ps) :
    headerAdd p.start (getSize h.mem p.start) = p.stop := by
  have hsize := r.size_eq hp
  have hbounds := r.bounds hp
  refine ptrAdd_eq ?_ hbounds.2.2.2.1
  unfold chunkUnit Piece.stop
  omega

/-- The nodes of the ring are in the order of their addresses, with `base` as the first one. The
search of `free` depends on this. -/
theorem sorted (r : Rep h ps) : (ringNodes h.base ps).Pairwise (· < ·) := by
  have hbelow := r.below
  exact ringNodes_sorted r.laid.tiled (by omega)

/-- No node is twice in the ring. -/
theorem nodup (r : Rep h ps) : (ringNodes h.base ps).Nodup :=
  r.sorted.imp fun hlt => Nat.ne_of_lt hlt

/-- A heap has few blocks, as each has a header of its own. This bounds the loops around the ring.
-/
theorem length_le (r : Rep h ps) : 16 * (ringNodes h.base ps).length ≤ h.brk := by
  have hlen := r.laid.length_le
  rw [headers_width] at hlen
  have hsub : (frees ps).length ≤ ps.length := List.length_filter_le _ _
  have hbelow := r.below
  rw [ringNodes, List.length_cons, List.length_map]
  omega

/-- The header of a node is `base` or that of a free block. A block in use, and a unit inside a
block, are apart from it. -/
theorem node_apart (r : Rep h ps) {x : Nat} (hx : x ∈ ringNodes h.base ps) (hp : p ∈ ps)
    (hused : p.free = false) : headers.Apart p.start x ∧ x ≠ p.start := by
  have hpb := r.bounds hp
  unfold HeaderLayout.Apart
  rw [headers_width]
  rcases mem_ringNodes.mp hx with rfl | ⟨q, hq, hfree, rfl⟩
  · omega
  · have hqb := r.bounds hq
    rcases r.laid.tiled.apart hp hq with rfl | hle | hle
    · rw [hused] at hfree
      cases hfree
    · omega
    · omega

/-- The last node in front of a block: the nodes behind it are not in front of the block. This is
the place that the search of `free` stops at. -/
theorem place (r : Rep h (pre ++ p :: suf)) :
    lastStart h.base (frees pre) ∈ ringNodes h.base pre ∧
      lastStart h.base (frees pre) < p.start ∧ h.base ≤ lastStart h.base (frees pre) ∧
      ∀ y ∈ ringNodes h.base (pre ++ p :: suf), lastStart h.base (frees pre) < y → p.start ≤ y := by
  have hpbounds := r.bounds (List.mem_append_right pre List.mem_cons_self)
  obtain ⟨xs, hxs⟩ := ringNodes_concat h.base pre
  have hnodes : ringNodes h.base (pre ++ p :: suf)
      = ringNodes h.base pre ++ (frees (p :: suf)).map Piece.start := by
    rw [ringNodes, frees_append, List.map_append]
    rfl
  have hsorted := r.sorted
  rw [hnodes] at hsorted ⊢
  have hpre := (List.pairwise_append.mp hsorted).1
  have hmem : lastStart h.base (frees pre) ∈ ringNodes h.base pre := by
    rw [hxs]
    exact List.mem_append_right _ List.mem_cons_self
  have hbelow : ∀ y ∈ ringNodes h.base pre, y < p.start := by
    intro y hy
    rcases mem_ringNodes.mp hy with rfl | ⟨q, hq, -, rfl⟩
    · omega
    · have hle := r.laid.tiled.before hq
      have hqbounds := r.bounds (List.mem_append_left (p :: suf) hq)
      omega
  have hle : ∀ y ∈ ringNodes h.base pre, y ≤ lastStart h.base (frees pre) := by
    intro y hy
    rw [hxs] at hy hpre
    rcases List.mem_append.mp hy with hy | hy
    · exact Nat.le_of_lt ((List.pairwise_append.mp hpre).2.2 y hy _ List.mem_cons_self)
    · rw [List.mem_singleton.mp hy]
  refine ⟨hmem, hbelow _ hmem, hle _ List.mem_cons_self, fun y hy hlt => ?_⟩
  rcases List.mem_append.mp hy with hy | hy
  · have hyle := hle y hy
    omega
  · obtain ⟨q, hq, rfl⟩ := List.mem_map.mp hy
    rcases List.mem_cons.mp (mem_frees.mp hq).1 with rfl | hqsuf
    · exact Nat.le_refl _
    · have hbehind := r.laid.tiled.behind hqsuf
      omega

end Rep

end SysProg.Memory.Heapmgrkr
