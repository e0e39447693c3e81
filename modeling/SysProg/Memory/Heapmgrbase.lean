import SysProg.Memory.Allocator

/-!
# `SysProg.Memory.Heapmgrbase`: one list in the order of the addresses

The model of `heapmgrbase.c` with `chunkbase.c`. A block has a header of one unit and no footer:
`status` at offset 0, `span` at 4 and `next` at 8. The span counts the header. The first two
and the link are where `chunk.c` has them, so the accessors of these are those of
`SysProg.Memory.Chunk`.

The free blocks are in one list, from the lowest address to the highest, which is linked in one
direction. `heapmgr_malloc` takes the end of the first block that fits, and `heapmgr_free` walks
to the place of the block in the list.

The parameter `debug` tells whether the assertions are compiled in.
-/

set_option autoImplicit false

namespace SysProg.Memory.Heapmgrbase

open SysProg.Lib

/-- `SYS_MIN_ALLOC_UNITS`, without the unit of the header. -/
def sysMinAllocUnits : Nat := 1024

/-- `assert(p)`. -/
def check (debug p : Bool) : Except Stop Unit :=
  if debug && !p then .error .assertFailed else .ok ()

/-! ### `chunkbase.c` -/

/-- `chunk_get_span_units`. -/
def chunkGetSpanUnits (m : Mem) (c : Nat) : Int := loadInt m (c + 4)

/-- `chunk_set_span_units`. -/
def chunkSetSpanUnits (m : Mem) (c : Nat) (spanU : Int) : Mem := storeInt m (c + 4) spanU

/-- `chunk_get_adjacent`. The address is that of the unit `c[c->span]`. -/
def chunkGetAdjacent (debug : Bool) (m : Mem) (c start stop : Nat) : Except Stop Nat := do
  check debug (start ≤ c)
  let n := ptrAdd c (chunkGetSpanUnits m c * chunkUnit)
  return if stop ≤ n then 0 else n

/-- `chunk_is_valid`. It exists in debug builds only. -/
def chunkIsValid (m : Mem) (c start stop : Nat) : Except Stop Bool := do
  check true (c ≠ 0)
  check true (start ≠ 0)
  check true (stop ≠ 0)
  return decide (start ≤ c) && decide (c < stop) && decide (0 < chunkGetSpanUnits m c)

/-! ### `check_heap_validity` -/

/-- The head of the free list, `s_free_head`. -/
def freeHead (h : Heap Unit) : Nat := h.heads ()

/-- The walk over the physical blocks, from `w` on. After `2 ^ 64` blocks some block has come
twice, and the walk does not end. -/
def checkBlocks (h : Heap Unit) : Nat → Nat → Except Stop Bool
  | 0, _ => .error .diverges
  | fuel + 1, w =>
      if w ≠ 0 ∧ w < h.hi then
        (chunkIsValid h.mem w h.lo h.hi).bind fun valid =>
          if valid then
            (chunkGetAdjacent true h.mem w h.lo h.hi).bind fun n => checkBlocks h fuel n
          else .ok false
      else .ok true

/-- The walk over the free list, from `w` on. -/
def checkFrees (h : Heap Unit) : Nat → Nat → Except Stop Bool
  | 0, _ => .error .diverges
  | fuel + 1, w =>
      if w = 0 then .ok true
      else if chunkGetStatus h.mem w ≠ chunkFree then .ok false
      else
        (chunkIsValid h.mem w h.lo h.hi).bind fun valid =>
          if valid then
            (chunkGetAdjacent true h.mem w h.lo h.hi).bind fun n =>
              if n ≠ 0 ∧ n = chunkGetNextFree h.mem w then .ok false
              else checkFrees h fuel (chunkGetNextFree h.mem w)
          else .ok false

/-- `check_heap_validity`. -/
def checkHeapValidity (h : Heap Unit) : Except Stop Bool :=
  if h.lo = 0 then .ok false
  else if h.hi = 0 then .ok false
  else if h.lo = h.hi then .ok (decide (freeHead h = 0))
  else
    (checkBlocks h (2 ^ 64) h.lo).bind fun ok =>
      if ok then checkFrees h (2 ^ 64) (freeHead h) else .ok false

/-- `assert(check_heap_validity())`. -/
def assertValid (debug : Bool) (h : Heap Unit) : Except Stop Unit :=
  if debug then (checkHeapValidity h).bind fun ok => check true ok else .ok ()

section
variable (debug : Bool)

/-! ### The free list -/

/-- `heap_bootstrap`. -/
def heapBootstrap (h : Heap Unit) (granted : Bool) : Except Stop (Heap Unit) :=
  let r := h.sbrk granted 0
  if r.1 = sbrkFailed then .error .exited
  else .ok { h with lo := r.1, hi := r.1 }

/-- `coalesce_two`. It returns `a`. -/
def coalesceTwo (h : Heap Unit) (a b : Nat) : Except Stop (Heap Unit × Nat) := do
  check debug (a < b)
  let n ← if debug then chunkGetAdjacent debug h.mem a h.lo h.hi else pure b
  check debug (n = b)
  check debug (chunkGetStatus h.mem a = chunkFree)
  check debug (chunkGetStatus h.mem b = chunkFree)
  let m := chunkSetSpanUnits h.mem a
    (i32 (chunkGetSpanUnits h.mem a + chunkGetSpanUnits h.mem b))
  let m := chunkSetNextFree m a (chunkGetNextFree m b)
  return (h.setMem m, a)

/-- `split_for_alloc`. -/
def splitForAlloc (h : Heap Unit) (c needUnits : Nat) : Except Stop (Heap Unit × Nat) := do
  let oldSpan := chunkGetSpanUnits h.mem c
  let allocSpan := i32 (1 + needUnits)
  let remainSpan := i32 (oldSpan - allocSpan)
  check debug (h.lo ≤ c && c ≤ h.hi)
  check debug (chunkGetStatus h.mem c = chunkFree)
  check debug (0 < remainSpan)
  let m := chunkSetSpanUnits h.mem c remainSpan
  let alloc ← chunkGetAdjacent debug m c h.lo h.hi
  let m := chunkSetSpanUnits m alloc allocSpan
  let m := chunkSetStatus m alloc chunkUsed
  let m := chunkSetNextFree m alloc (chunkGetNextFree m c)
  return (h.setMem m, alloc)

/-- `freelist_push_front`. -/
def freelistPushFront (h : Heap Unit) (c : Nat) : Except Stop (Heap Unit) := do
  check debug (1 ≤ chunkGetSpanUnits h.mem c)
  let h := h.setMem (chunkSetStatus h.mem c chunkFree)
  if freeHead h = 0 then
    let h := h.setHead () c
    return h.setMem (chunkSetNextFree h.mem c 0)
  else
    check debug (c < freeHead h)
    let h := h.setMem (chunkSetNextFree h.mem c (freeHead h))
    let n ← chunkGetAdjacent debug h.mem c h.lo h.hi
    if n = freeHead h then
      let r ← coalesceTwo debug h c (freeHead h)
      return r.1.setHead () c
    else return h.setHead () c

/-- `freelist_insert_after`. -/
def freelistInsertAfter (h : Heap Unit) (e c : Nat) : Except Stop (Heap Unit × Nat) := do
  check debug (e < c)
  check debug (chunkGetStatus h.mem e = chunkFree)
  check debug (chunkGetStatus h.mem c ≠ chunkFree)
  let m := chunkSetNextFree h.mem c (chunkGetNextFree h.mem e)
  let m := chunkSetNextFree m e c
  let m := chunkSetStatus m c chunkFree
  let h := h.setMem m
  let lower ← chunkGetAdjacent debug h.mem e h.lo h.hi
  let r ← if lower = c then coalesceTwo debug h e c else pure (h, c)
  let n ← chunkGetAdjacent debug r.1.mem r.2 r.1.lo r.1.hi
  if n ≠ 0 ∧ chunkGetStatus r.1.mem n = chunkFree then coalesceTwo debug r.1 r.2 n else return r

/-- `freelist_detach`. The head has `NULL` in front of it. -/
def freelistDetach (h : Heap Unit) (prev c : Nat) : Except Stop (Heap Unit) := do
  check debug (chunkGetStatus h.mem c = chunkFree)
  let h := if prev = 0 then h.setHead () (chunkGetNextFree h.mem c)
    else h.setMem (chunkSetNextFree h.mem prev (chunkGetNextFree h.mem c))
  let m := chunkSetNextFree h.mem c 0
  return h.setMem (chunkSetStatus m c chunkUsed)

/-- The three assignments by which `sys_grow_and_link` sets a new block up. -/
def initNew (m : Mem) (c : Nat) (span : Int) : Mem :=
  let m := chunkSetSpanUnits m c span
  let m := chunkSetNextFree m c 0
  chunkSetStatus m c chunkUsed

/-- The second half of `sys_grow_and_link`: the memory from `c` on becomes a block and joins the
list. -/
def linkNew (h : Heap Unit) (c : Nat) (growSpan : Int) (prev : Nat) :
    Except Stop (Heap Unit × Nat) :=
  let h := h.setMem (initNew h.mem c growSpan)
  let linked := if freeHead h = 0 then (freelistPushFront debug h c).map fun h => (h, c)
    else freelistInsertAfter debug h prev c
  linked.bind fun g => (assertValid debug g.1).map fun _ => g

/-- `sys_grow_and_link`. The block is `NULL` when `sbrk` fails. -/
def sysGrowAndLink (h : Heap Unit) (granted : Bool) (prev needUnits : Nat) :
    Except Stop (Heap Unit × Nat) :=
  let growData := if needUnits < sysMinAllocUnits then sysMinAllocUnits else needUnits
  let growSpan := 1 + growData
  -- The size is a `size_t`, and `sbrk` takes it as a signed number.
  let r := h.sbrk granted (Int.bmod (growSpan * chunkUnit) (2 ^ 64))
  if r.1 = sbrkFailed then .ok (h, 0)
  else linkNew debug { r.2 with hi := r.2.brk } r.1 (i32 growSpan) prev

/-! ### `heapmgr_malloc` and `heapmgr_free` -/

/-- `bytes_to_payload_units`. -/
def bytesToPayloadUnits (bytes : Nat) : Nat := (bytes + (chunkUnit - 1)) % 2 ^ 64 / chunkUnit

/-- `header_from_payload`. -/
def headerFromPayload (p : Nat) : Nat := ptrAdd p (-chunkUnit)

/-- The payload units of a block, as a `size_t`. -/
def payloadUnits (m : Mem) (c : Nat) : Nat := ((chunkGetSpanUnits m c - 1) % 2 ^ 64).toNat

/-- The scan of `heapmgr_malloc`, at `cur` with the two nodes in front of it. It ends at the
first block that fits, or behind the last one. -/
def scan (m : Mem) (needUnits : Nat) : Nat → Nat → Nat → Nat → Except Stop (Nat × Nat × Nat)
  | 0, _, _, _ => .error .diverges
  | fuel + 1, prevprev, prev, cur =>
      if cur = 0 then .ok (prevprev, prev, 0)
      else if needUnits ≤ payloadUnits m cur then .ok (prevprev, prev, cur)
      else scan m needUnits fuel prev cur (chunkGetNextFree m cur)

/-- A block is split when it is larger than needed, and else detached. Both branches of
`heapmgr_malloc` end so. -/
def take (h : Heap Unit) (prev cur needUnits : Nat) : Except Stop (Heap Unit × Nat) := do
  let r ← if needUnits < payloadUnits h.mem cur then splitForAlloc debug h cur needUnits
    else (freelistDetach debug h prev cur).map fun h => (h, cur)
  assertValid debug r.1
  return (r.1, ptrAdd r.2 chunkUnit)

/-- The part of `heapmgr_malloc` behind the initialization: the scan, and the new memory when no
block fits. -/
def allocate (h : Heap Unit) (granted : Bool) (needUnits : Nat) :
    Except Stop (Heap Unit × Nat) := do
  let found ← scan h.mem needUnits (2 ^ 64) 0 0 (freeHead h)
  if found.2.2 ≠ 0 then take debug h found.2.1 found.2.2 needUnits
  else
    let g ← sysGrowAndLink debug h granted found.2.1 needUnits
    if g.2 = 0 then
      assertValid debug g.1
      return (g.1, 0)
    else
      -- The new block may have been merged with the last one.
      let prev := if g.2 = found.2.1 then found.1 else found.2.1
      take debug g.1 prev g.2 needUnits

/-- `heapmgr_malloc`. -/
def heapmgrMalloc (h : Heap Unit) (env : Sbrk) (size : UInt64) : Except Stop (Heap Unit × Nat) := do
  if size = 0 then return (h, 0)
  let h ← if h.booted then pure h
    else (heapBootstrap h env.query).map fun h => { h with booted := true }
  assertValid debug h
  allocate debug h env.extend (bytesToPayloadUnits size.toNat)

/-- The search of `heapmgr_free` for the last node in front of `c`. -/
def insertionPoint (m : Mem) (c : Nat) : Nat → Nat → Nat → Except Stop Nat
  | 0, _, _ => .error .diverges
  | fuel + 1, prev, it =>
      if it = 0 then .ok prev
      else if c < it then .ok prev
      else insertionPoint m c fuel it (chunkGetNextFree m it)

/-- `heapmgr_free`. -/
def heapmgrFree (h : Heap Unit) (p : Nat) : Except Stop (Heap Unit) := do
  if p = 0 then return h
  assertValid debug h
  let c := headerFromPayload p
  check debug (chunkGetStatus h.mem c ≠ chunkFree)
  let prev ← insertionPoint h.mem c (2 ^ 64) 0 (freeHead h)
  let h ← if prev = 0 then freelistPushFront debug h c
    else (freelistInsertAfter debug h prev c).map Prod.fst
  assertValid debug h
  return h

/-- The manager as a program sees it. The largest size is the one whose span is an `int`. -/
def allocator : Allocator (Heap Unit) where
  malloc := heapmgrMalloc debug
  free := heapmgrFree debug
  write := fun h x v => h.setMem ⟨Function.update h.mem.byte x v⟩
  maxSize := chunkUnit * (intMax - 1)
  freesNull := true

end

end SysProg.Memory.Heapmgrbase
