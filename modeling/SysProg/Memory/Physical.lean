import SysProg.Lib.Coalesce
import SysProg.Lib.Run
import SysProg.Memory.HeapSpec

/-!
# `SysProg.Memory.Physical`: the physical layout

`layout` is the sequence of the blocks of a heap, with their spans and their statuses, as
`chunk_get_next_phys` finds them. The statements here are about layouts alone.

* `MallocExact` says when `heapmgr_malloc` grows the heap, and how it cuts a block.
* `mergeFree` joins the free blocks of a layout that are next to each other, and `markFree`
  frees the blocks of some pointers. `FreesConfluent` says that `heapmgr_free` does no more.
* `Client.SizesFit` is the condition on a call that the offsets in the blocks, which are `int`s,
  do not wrap around.
-/

set_option autoImplicit false

namespace SysProg.Memory

open SysProg.Lib

/-- A block as it is in memory. -/
structure PhysBlock where
  addr : Nat
  span : Int
  status : Int
deriving DecidableEq, Repr

variable {ι : Type}

/-- The blocks from `w` on. After `2 ^ 64` blocks some block has come twice. -/
def physFrom (h : Heap ι) : Nat → Nat → List PhysBlock
  | 0, _ => []
  | fuel + 1, w =>
      if w = 0 then []
      else
        ⟨w, chunkGetSpan h.mem w, chunkGetStatus h.mem w⟩ ::
          physFrom h fuel (chunkGetNextPhys h.mem w h.hi)

/-- The physical layout. A heap without a byte has no block. -/
def layout (h : Heap ι) : List PhysBlock :=
  if h.lo = h.hi then [] else physFrom h (2 ^ 64) h.lo

/-! ### `heapmgr_malloc` -/

/-- The number of units for a size. -/
def needUnits (size : UInt64) : Nat := (size.toNat + (chunkUnit - 1)) % 2 ^ 64 / chunkUnit

/-- The span for a size: its units, the header and the footer. -/
def needSpan (size : UInt64) : Int := needUnits size + 2

/-- Some free block of the heap has room for `need` units. -/
def HasFit (h : Heap ι) (need : Int) : Prop :=
  ∃ b ∈ layout h, b.status = chunkFree ∧ need ≤ b.span

/-- The heap that `heapmgr_malloc` searches. The first call sets it up. -/
def searchedHeap (mgr : Manager ι) (h : Heap ι) (env : Sbrk) : Except Stop (Heap ι) :=
  if h.booted then .ok h else heapBootstrap mgr h env.query

/-- The span of the block that `sys_grow` asks for. -/
def growSpan (needUnits : Nat) : Nat :=
  (if needUnits < sysMinAllocUnits then sysMinAllocUnits else needUnits) + 2

/-- `sbrk` grants the block that `sys_grow` asks for. -/
def Granted (h : Heap ι) (env : Sbrk) (size : UInt64) : Prop :=
  env.extend = true ∧ h.brk + chunkUnit * growSpan (needUnits size) ≤ h.limit

/-- What a call of `heapmgr_malloc` that has gone to `sys_grow` leaves behind, with the heap `h'`
and the pointer `p`. When `sbrk` grants, the break has moved over the new block and `p` is a
pointer. When `sbrk` refuses, the break is where it was and `p` is `NULL`. -/
def TriesToGrow (h : Heap ι) (env : Sbrk) (size : UInt64) (h' : Heap ι) (p : Nat) : Prop :=
  Granted h env size ∧ p ≠ 0 ∧ h'.brk = h.brk + chunkUnit * growSpan (needUnits size) ∨
    ¬ Granted h env size ∧ p = 0 ∧ h'.brk = h.brk

/-- The block is in a free list, and a search for a span it has room for looks into this list. -/
def Findable (mgr : Manager ι) (h : Heap ι) (b : PhysBlock) : Prop :=
  ∃ i l, FreeList h.mem (h.heads i) l ∧ b.addr ∈ l ∧
    ∀ need, 2 ≤ need → need ≤ b.span → ∃ bins, mgr.searchBins need = some bins ∧ i ∈ bins

/-- The blocks that a free block of `span` units is turned into for `need` units, with the new
block `u` among them. One unit at most is wasted, and a larger rest is one free block. -/
inductive Cut (mgr : Manager ι) (h : Heap ι) (need span : Int) (u : PhysBlock) :
    List PhysBlock → Prop where
  | whole (hspan : span ≤ need + 1) (hu : u.span = span) : Cut mgr h need span u [u]
  | back {rest : PhysBlock} (hspan : need + 1 < span) (hu : u.span = need)
      (hrest : rest.span = span - need) (hfree : rest.status = chunkFree)
      (hfind : Findable mgr h rest) : Cut mgr h need span u [rest, u]
  | front {rest : PhysBlock} (hspan : need + 1 < span) (hu : u.span = need)
      (hrest : rest.span = span - need) (hfree : rest.status = chunkFree)
      (hfind : Findable mgr h rest) : Cut mgr h need span u [u, rest]

/-- The pointer `p` is to the block `u` that was cut out of the free block `b` of `h₁`. The
other blocks are those of `h₁`. -/
structure Placed (mgr : Manager ι) (need : Int) (h₁ : Heap ι) (b : PhysBlock) (h' : Heap ι)
    (p : Nat) (u : PhysBlock) : Prop where
  free : b.status = chunkFree
  fits : need ≤ b.span
  cut : ∃ pre mid suf, layout h₁ = pre ++ b :: suf ∧ layout h' = pre ++ mid ++ suf ∧
    Cut mgr h' need b.span u mid
  used : u.status = chunkUsed
  span : u.span = need ∨ u.span = need + 1
  pointer : p = u.addr + chunkUnit

/-- What `heapmgr_malloc` does when it returns the heap `h'` and the pointer `p`. -/
structure MallocExact (mgr : Manager ι) [DecidableEq ι] (debug : Bool) (h : Heap ι) (env : Sbrk)
    (size : UInt64) (h' : Heap ι) (p : Nat) : Prop where
  /-- It has gone to `sys_grow` exactly when no free block is large enough. -/
  grows_iff : TriesToGrow h env size h' p ↔ ¬ HasFit h (needSpan size)
  /-- It answers `NULL` exactly when `sbrk` refuses then. -/
  null_iff : p = 0 ↔ ¬ HasFit h (needSpan size) ∧ ¬ Granted h env size
  /-- Otherwise it answers a block and does not move the break. Whether `sbrk` would have granted
  more memory makes no difference. -/
  kept : HasFit h (needSpan size) → p ≠ 0 ∧ h'.brk = h.brk ∧
    ∀ extend, heapmgrMalloc mgr debug h ⟨env.query, extend⟩ size = .ok (h', p)
  /-- The block is cut out of the one that was found, or out of the one that `sys_grow` has
  made. -/
  placed : p ≠ 0 → ∃ h₀ h₁ b u, searchedHeap mgr h env = .ok h₀ ∧
    (searchFree mgr h₀ (needSpan size) = .ok (some b.addr) ∧ h₁ = h₀ ∨
      searchFree mgr h₀ (needSpan size) = .ok none ∧
        sysGrow mgr.binOf h₀ env.extend (needUnits size) = .ok (h₁, b.addr)) ∧
    mgr.doAlloc h₁ b.addr (needSpan size) = .ok (h', p) ∧
    Placed mgr (needSpan size) h₁ b h' p u

/-! ### Joining -/

/-- Joins the free blocks that are next to each other. -/
def mergeFree (bs : List PhysBlock) : List PhysBlock :=
  coalesce (fun b => b.status = chunkFree) (fun b d => { b with span := b.span + d.span }) bs

/-- Frees the block when its pointer is one of `ps`. -/
def markFree (ps : List Nat) (b : PhysBlock) : PhysBlock :=
  if b.status = chunkUsed ∧ b.addr + chunkUnit ∈ ps then { b with status := chunkFree } else b

/-! ### Sizes -/

/-- The size of every block is an `int`. -/
def SizesFit (bs : List PhysBlock) : Prop := ∀ b ∈ bs, chunkUnit * b.span ≤ intMax

/-- `heapmgr_malloc` grows the heap: no free block has room, and `sbrk` grants a new one. -/
def Grows (h : Heap ι) (env : Sbrk) (size : UInt64) : Prop :=
  0 < size ∧ ¬ HasFit h (needSpan size) ∧ env.extend = true ∧
    h.brk + chunkUnit * growSpan (needUnits size) ≤ h.limit

/-- The new block of a `heapmgr_malloc` that grows the heap is joined with a free last block. The
sizes of all blocks are `int`s then. -/
def GrowthFits (h : Heap ι) (env : Sbrk) (size : UInt64) : Prop :=
  Grows h env size →
    SizesFit (mergeFree (layout h ++ [⟨h.brk, growSpan (needUnits size), chunkFree⟩]))

/-- The blocks of some pointers are freed and joined with their free neighbours. The sizes of all
blocks are `int`s then. -/
def FreesFit (h : Heap ι) (ps : List Nat) : Prop :=
  SizesFit (mergeFree ((layout h).map (markFree ps)))

/-- The call makes no block whose size is not an `int`. -/
def Client.SizesFit (s : Client ι) : Call → Prop
  | .malloc size env => GrowthFits s.heap env size
  | .free p => FreesFit s.heap [p]
  | .write _ _ => True

/-- No call of a run makes a block whose size is not an `int`. -/
def CallsFit [DecidableEq ι] (mgr : Manager ι) (debug : Bool) (s : Client ι)
    (calls : List Call) : Prop :=
  ∀ n s' a, StateAt (clientStep mgr debug) s calls n s' → calls[n]? = some a → s'.SizesFit a

/-! ### `heapmgr_free` -/

/-- What freeing does to the layout, for a program in the state `s`, as long as the joined blocks
have sizes that are `int`s. -/
structure FreesConfluent [DecidableEq ι] (mgr : Manager ι) (debug : Bool) (s : Client ι) :
    Prop where
  /-- Freeing some live pointers gives a layout that depends on their set only. -/
  layout_eq : ∀ ps : List Nat, ps.Nodup → (∀ p ∈ ps, p ∈ s.live.map Prod.fst) →
    FreesFit s.heap ps →
    ∃ s', run (clientStep mgr debug) s (ps.map .free) = some (s', []) ∧
      layout s'.heap = mergeFree ((layout s.heap).map (markFree ps))
  /-- So any two orders give the same layout. -/
  order : ∀ ps qs : List Nat, ps.Nodup → (∀ p ∈ ps, p ∈ s.live.map Prod.fst) → ps.Perm qs →
    FreesFit s.heap ps →
    ∃ s₁ s₂, run (clientStep mgr debug) s (ps.map .free) = some (s₁, []) ∧
      run (clientStep mgr debug) s (qs.map .free) = some (s₂, []) ∧
      layout s₁.heap = layout s₂.heap
  /-- When all live pointers are freed, one free block is left, or none in a heap without a
  byte. The size of the heap is an `int`. -/
  all : ∀ ps : List Nat, ps.Perm (s.live.map Prod.fst) → s.heap.hi ≤ s.heap.lo + intMax →
    ∃ s', run (clientStep mgr debug) s (ps.map .free) = some (s', []) ∧
      s'.heap.lo = s.heap.lo ∧ s'.heap.hi = s.heap.hi ∧
      (s.heap.lo < s.heap.hi → ∃ b, layout s'.heap = [b] ∧ b.status = chunkFree ∧
        b.addr = s.heap.lo ∧ b.addr + chunkUnit * b.span = s.heap.hi) ∧
      (s.heap.lo = s.heap.hi → layout s'.heap = [])
  /-- Freeing what `heapmgr_malloc` answers restores the layout, when it did not grow the
  heap. -/
  undo : ∀ size env h' p, needUnits size + 2 ≤ intMax →
    heapmgrMalloc mgr debug s.heap env size = .ok (h', p) → h'.brk = s.heap.brk →
    ∃ h'', heapmgrFree mgr debug h' p = .ok h'' ∧ layout h'' = layout s.heap

end SysProg.Memory
