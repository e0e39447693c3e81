import Mathlib.Logic.Function.Basic
import SysProg.Memory.Chunk

/-!
# `SysProg.Memory.Heap`: the part the two heap managers share

`heapmgr1.c` and `heapmgr2.c` keep their free blocks in one list and in many lists. Apart
from the choice of the list, from `do_alloc` and from the search, their functions are the
same, and they are here with the lists as a parameter: `ι` names the lists, and `binOf` gives
the list of a span. It answers `none` for an index outside the array of the lists.

* `Heap` is the memory with the static variables of a manager and the program break.
* `Heap.sbrk` is the system call.
* `freelistInsert`, `freelistDetach`, `sysGrow`, `checkHeapValidity`, `heapmgrMalloc` and
  `heapmgrFree` are the functions of a `Manager`.

A function that stops the program answers with the reason. The parameter `debug` tells
whether the assertions are compiled in.
-/

set_option autoImplicit false

namespace SysProg.Memory

open SysProg.Lib

/-- Why a call does not return. -/
inductive Stop where
  | assertFailed
  | diverges
  | exited
  | outOfBounds
deriving DecidableEq, Repr

/-- The answers of `sbrk` during one call: whether the break can be read before the first
allocation, and whether the heap may grow. -/
structure Sbrk where
  query : Bool
  extend : Bool
deriving DecidableEq, Repr

/-- The heap. `heads` are the heads of the free lists, `lo` and `hi` are `s_heap_lo` and
`s_heap_hi`. The program break `brk` stays between `base` and `limit`. -/
structure Heap (ι : Type) where
  mem : Mem
  heads : ι → Nat
  lo : Nat
  hi : Nat
  booted : Bool
  brk : Nat
  base : Nat
  limit : Nat

/-- `(void *)-1`. -/
def sbrkFailed : Nat := 2 ^ 64 - 1

/-- `SYS_MIN_ALLOC_UNITS`. -/
def sysMinAllocUnits : Nat := 512

namespace Heap

variable {ι : Type}

/-- The heap before the first call. -/
def init (mem : Mem) (brk limit : Nat) : Heap ι where
  mem := mem
  heads := fun _ => 0
  lo := 0
  hi := 0
  booted := false
  brk := brk
  base := brk
  limit := limit

/-- `sbrk(increment)`: the old break, or `(void *)-1` and no change. -/
def sbrk (h : Heap ι) (granted : Bool) (increment : Int) : Nat × Heap ι :=
  if granted ∧ h.base ≤ h.brk + increment ∧ h.brk + increment ≤ h.limit then
    (h.brk, { h with brk := (h.brk + increment).toNat })
  else (sbrkFailed, h)

/-- A write to the memory. -/
def setMem (h : Heap ι) (mem : Mem) : Heap ι := { h with mem := mem }

variable [DecidableEq ι]

/-- The head of a list. -/
def setHead (h : Heap ι) (b : ι) (c : Nat) : Heap ι :=
  { h with heads := Function.update h.heads b c }

end Heap

/-- The four assignments by which `sys_grow` and `do_alloc` set a new block up. -/
def initBlock (m : Mem) (c : Nat) (span status : Int) : Mem :=
  let m := chunkSetSpan m c span
  let m := chunkSetStatus m c status
  let m := chunkSetNextFree m c 0
  chunkSetPrevFree m c 0

section
variable {ι : Type} [DecidableEq ι] (binOf : Int → Option ι)

/-! ### The free lists -/

/-- `freelist_insert`. -/
def freelistInsert (h : Heap ι) (c : Nat) : Except Stop (Heap ι) :=
  match binOf (chunkGetSpan h.mem c) with
  | none => .error .outOfBounds
  | some b =>
      let head := h.heads b
      let m := chunkSetStatus h.mem c chunkFree
      let m := chunkSetNextFree m c head
      let m := chunkSetPrevFree m c 0
      let m := if head ≠ 0 then chunkSetPrevFree m head c else m
      .ok ((h.setMem m).setHead b c)

/-- The first half of `freelist_detach`: the node before `c`, or the head of the list, is
linked to the node behind. -/
def unlinkNext (h : Heap ι) (c : Nat) : Except Stop (Heap ι) :=
  let next := chunkGetNextFree h.mem c
  let prev := chunkGetPrevFree h.mem c
  if prev ≠ 0 then .ok (h.setMem (chunkSetNextFree h.mem prev next))
  else
    match binOf (chunkGetSpan h.mem c) with
    | none => .error .outOfBounds
    | some b => .ok (h.setHead b next)

/-- `freelist_detach`. -/
def freelistDetach (h : Heap ι) (c : Nat) : Except Stop (Heap ι) :=
  let next := chunkGetNextFree h.mem c
  let prev := chunkGetPrevFree h.mem c
  (unlinkNext binOf h c).map fun h =>
    let m := if next ≠ 0 then chunkSetPrevFree h.mem next prev else h.mem
    let m := chunkSetNextFree m c 0
    let m := chunkSetPrevFree m c 0
    let m := chunkSetStatus m c chunkUsed
    h.setMem m

/-! ### Merging -/

/-- The merge with the right neighbour in `heapmgr_free`. -/
def coalesceRight (h : Heap ι) (c : Nat) : Except Stop (Heap ι) :=
  let neighbor := chunkGetNextPhys h.mem c h.hi
  if neighbor ≠ 0 ∧ chunkGetStatus h.mem neighbor = chunkFree then
    (freelistDetach binOf h neighbor).map fun h =>
      h.setMem (chunkSetSpan h.mem c
        (i32 (chunkGetSpan h.mem c + chunkGetSpan h.mem neighbor)))
  else .ok h

/-- The merge with the left neighbour in `heapmgr_free`, with the block it ends in. -/
def coalesceLeft (h : Heap ι) (c : Nat) : Except Stop (Heap ι × Nat) :=
  let neighbor := chunkGetPrevPhys h.mem c h.lo
  if neighbor ≠ 0 ∧ chunkGetStatus h.mem neighbor = chunkFree then
    (freelistDetach binOf h neighbor).map fun h =>
      (h.setMem (chunkSetSpan h.mem neighbor
        (i32 (chunkGetSpan h.mem neighbor + chunkGetSpan h.mem c))), neighbor)
  else .ok (h, c)

/-- The merge of the new block in `sys_grow` with the block before it. -/
def growMerge (h : Heap ι) (c : Nat) (growSpan : Int) : Except Stop (Heap ι × Nat) :=
  let prev := chunkGetPrevPhys h.mem c h.lo
  if prev ≠ 0 ∧ chunkGetStatus h.mem prev = chunkFree then
    (freelistDetach binOf h prev).map fun h =>
      (h.setMem (chunkSetSpan h.mem prev (i32 (chunkGetSpan h.mem prev + growSpan))), prev)
  else .ok (h, c)

/-- `sys_grow`. The block is `NULL` when `sbrk` fails. -/
def sysGrow (h : Heap ι) (granted : Bool) (needUnits : Nat) : Except Stop (Heap ι × Nat) :=
  let growData := if needUnits < sysMinAllocUnits then sysMinAllocUnits else needUnits
  let growSpan := growData + 2
  -- The size is a `size_t`, and `sbrk` takes it as a signed number.
  let r := h.sbrk granted (Int.bmod (growSpan * chunkUnit) (2 ^ 64))
  if r.1 = sbrkFailed then .ok (h, 0)
  else
    let h := { r.2 with hi := r.2.brk }
    let h := h.setMem (initBlock h.mem r.1 (i32 growSpan) chunkFree)
    (growMerge binOf h r.1 (i32 growSpan)).bind fun g =>
      (freelistInsert binOf g.1 g.2).map fun h => (h, g.2)

/-! ### `check_heap_validity` -/

/-- The walk over the physical blocks, from `w` on. After `2 ^ 64` blocks some block has come
twice, and the walk does not end. -/
def checkBlocks (h : Heap ι) : Nat → Nat → Nat → Except Stop Bool
  | 0, _, _ => .error .diverges
  | fuel + 1, prevW, w =>
      if w = 0 then .ok true
      else if !chunkIsValid h.mem w h.lo h.hi then .ok false
      else if prevW ≠ 0 ∧ chunkGetStatus h.mem prevW = chunkFree ∧
          chunkGetStatus h.mem w = chunkFree then .ok false
      else checkBlocks h fuel w (chunkGetNextPhys h.mem w h.hi)

/-- The walk over one free list, from `fl` on. `heapmgr1` has one list for all spans, and its
check leaves the last comparison out. -/
def checkList (h : Heap ι) (b : ι) : Nat → Nat → Except Stop Bool
  | 0, _ => .error .diverges
  | fuel + 1, fl =>
      if fl = 0 then .ok true
      else
        let next := chunkGetNextFree h.mem fl
        let prev := chunkGetPrevFree h.mem fl
        if chunkGetStatus h.mem fl ≠ chunkFree then .ok false
        else if fl = h.heads b ∧ prev ≠ 0 then .ok false
        else if next ≠ 0 ∧ chunkGetPrevFree h.mem next ≠ fl then .ok false
        else if binOf (chunkGetSpan h.mem fl) ≠ some b then .ok false
        else checkList h b fuel next

/-- The walk over the free lists `bins`. -/
def checkLists (h : Heap ι) : List ι → Except Stop Bool
  | [] => .ok true
  | b :: bins =>
      (checkList binOf h b (2 ^ 64) (h.heads b)).bind fun ok =>
        if ok then checkLists h bins else .ok false

/-- `check_heap_validity` with the lists `bins`. -/
def checkHeapValidity (bins : List ι) (h : Heap ι) : Except Stop Bool :=
  if h.lo = 0 then .ok false
  else if h.hi = 0 then .ok false
  else if h.lo = h.hi then .ok (bins.all fun b => h.heads b = 0)
  else
    (checkBlocks h (2 ^ 64) 0 h.lo).bind fun ok =>
      if ok then checkLists binOf h bins else .ok false

end

/-! ### A manager -/

/-- What distinguishes the managers: the lists, what `heap_bootstrap` does to their heads, the
lists that `heapmgr_malloc` searches for a span, and `do_alloc`. -/
structure Manager (ι : Type) where
  binOf : Int → Option ι
  bins : List ι
  bootHeads : (ι → Nat) → ι → Nat
  searchBins : Int → Option (List ι)
  doAlloc : Heap ι → Nat → Int → Except Stop (Heap ι × Nat)

section
variable {ι : Type}

/-- The search in one list: the first block that is large enough. -/
def searchList (m : Mem) (needSpan : Int) : Nat → Nat → Except Stop (Option Nat)
  | 0, _ => .error .diverges
  | fuel + 1, cur =>
      if cur = 0 then .ok none
      else if needSpan ≤ chunkGetSpan m cur then .ok (some cur)
      else searchList m needSpan fuel (chunkGetNextFree m cur)

/-- The search in the lists `bins`, one after the other. -/
def searchLists (h : Heap ι) (needSpan : Int) : List ι → Except Stop (Option Nat)
  | [] => .ok none
  | b :: bins =>
      (searchList h.mem needSpan (2 ^ 64) (h.heads b)).bind fun found =>
        match found with
        | some cur => .ok (some cur)
        | none => searchLists h needSpan bins

variable [DecidableEq ι] (mgr : Manager ι) (debug : Bool)

/-- `assert(check_heap_validity())`. -/
def assertValid (h : Heap ι) : Except Stop Unit :=
  if debug then
    (checkHeapValidity mgr.binOf mgr.bins h).bind fun ok =>
      if ok then .ok () else .error .assertFailed
  else .ok ()

/-- `heap_bootstrap`. -/
def heapBootstrap (h : Heap ι) (granted : Bool) : Except Stop (Heap ι) :=
  let r := h.sbrk granted 0
  if r.1 = sbrkFailed then .error .exited
  else .ok { h with heads := mgr.bootHeads h.heads, lo := r.1, hi := r.1, booted := true }

/-- The search of `heapmgr_malloc`. -/
def searchFree (h : Heap ι) (needSpan : Int) : Except Stop (Option Nat) :=
  match mgr.searchBins needSpan with
  | none => .error .outOfBounds
  | some bins => searchLists h needSpan bins

/-- `heapmgr_malloc` behind the bootstrap, for a size of `needUnits` units. -/
def allocUnits (h : Heap ι) (env : Sbrk) (needUnits : Nat) : Except Stop (Heap ι × Nat) := do
  assertValid mgr debug h
  let needSpan := i32 (i32 needUnits + 2)
  match ← searchFree mgr h needSpan with
  | some cur =>
      let r ← mgr.doAlloc h cur needSpan
      assertValid mgr debug r.1
      return r
  | none =>
      let g ← sysGrow mgr.binOf h env.extend needUnits
      if g.2 = 0 then
        assertValid mgr debug g.1
        return (g.1, 0)
      else
        let r ← mgr.doAlloc g.1 g.2 needSpan
        assertValid mgr debug r.1
        return r

/-- `heapmgr_malloc`. -/
def heapmgrMalloc (h : Heap ι) (env : Sbrk) (size : UInt64) : Except Stop (Heap ι × Nat) := do
  if size = 0 then return (h, 0)
  let h ← if h.booted then pure h else heapBootstrap mgr h env.query
  allocUnits mgr debug h env ((size.toNat + (chunkUnit - 1)) % 2 ^ 64 / chunkUnit)

/-- `heapmgr_free`. -/
def heapmgrFree (h : Heap ι) (p : Nat) : Except Stop (Heap ι) := do
  if p = 0 then return h
  assertValid mgr debug h
  let c := ptrAdd p (-chunkUnit)
  if debug ∧ chunkGetStatus h.mem c ≠ chunkUsed then throw .assertFailed
  let h ← coalesceRight mgr.binOf h c
  let r ← coalesceLeft mgr.binOf h c
  let h ← freelistInsert mgr.binOf r.1 r.2
  assertValid mgr debug h
  return h

end

end SysProg.Memory
