import SysProg.Memory.Addresses
import SysProg.Memory.Heapmgr1
import SysProg.Memory.Heapmgr2

/-!
# `SysProg.Memory.Lookups`: the addresses that a call computes

Inside a call the headers change, and `get_footer`, `chunk_get_next_phys` and `chunk_get_prev_phys`
are called in between. A `Lookup` is one such call, with the memory at its moment.

The functions here list the lookups of the functions of `SysProg.Memory.Heap`, one for one and in
the same order. `chunk_get_prev_free`, `chunk_set_prev_free` and `chunk_set_span` look up a footer,
and `chunk_is_valid` does so for a span that is large enough. Behind a function that stops the
program there is no lookup.

* `Lookup.Exact` says that the address is the one without overflow.
* `mallocLookups` and `freeLookups` are the lookups of the two calls, with the assertions of a debug
  build.
-/

set_option autoImplicit false

namespace SysProg.Memory

open SysProg.Lib

/-- A call of `get_footer`, `chunk_get_next_phys` or `chunk_get_prev_phys`. -/
inductive Lookup where
  | footer (m : Mem) (c : Nat)
  | next (m : Mem) (c stop : Nat)
  | prev (m : Mem) (c start : Nat)

namespace Lookup

/-- The address is exact, or `NULL` at the end and at the start of the heap. -/
def Exact : Lookup → Prop
  | .footer m c => (getFooter m c : Int) = c + (chunkGetSpan m c - 1) * chunkUnit
  | .next m c stop =>
      let exact := c + chunkGetSpan m c * chunkUnit
      (chunkGetNextPhys m c stop : Int) = if (stop : Int) ≤ exact then 0 else exact
  | .prev m c start =>
      (chunkGetPrevPhys m c start : Int)
        = if c ≤ start then 0 else c - footerSpan m (c - chunkUnit) * chunkUnit

/-- The span that is multiplied is that of a part of the block. -/
def InPart (b : PhysBlock) : Lookup → Prop
  | .footer m c | .next m c _ => ∃ k : Nat, chunkGetSpan m c = k ∧ Memory.InPart b c k
  | .prev m c start => start < c → ∃ d k : Nat,
      c = d + k * chunkUnit ∧ footerSpan m (c - chunkUnit) = k ∧ Memory.InPart b d k

end Lookup

/-- The lookups behind a function, when it does not stop the program. -/
def behind {α : Type} (x : Except Stop α) (lookups : α → List Lookup) : List Lookup :=
  match x with
  | .error _ => []
  | .ok a => lookups a

/-- `chunk_set_span`. -/
def setSpanLookups (m : Mem) (c : Nat) (span : Int) : List Lookup :=
  [.footer (storeInt m (c + 4) span) c]

/-- The four assignments to a new block. -/
def initLookups (m : Mem) (c : Nat) (span status : Int) : List Lookup :=
  setSpanLookups m c span ++
    [.footer (chunkSetNextFree (chunkSetStatus (chunkSetSpan m c span) c status) c 0) c]

section
variable {ι : Type} [DecidableEq ι] (binOf : Int → Option ι)

/-- `freelist_insert`. -/
def insertLookups (h : Heap ι) (c : Nat) : List Lookup :=
  match binOf (chunkGetSpan h.mem c) with
  | none => []
  | some b =>
      let head := h.heads b
      let m := chunkSetNextFree (chunkSetStatus h.mem c chunkFree) c head
      .footer m c :: if head ≠ 0 then [.footer (chunkSetPrevFree m c 0) head] else []

/-- `freelist_detach`. -/
def detachLookups (h : Heap ι) (c : Nat) : List Lookup :=
  let next := chunkGetNextFree h.mem c
  let prev := chunkGetPrevFree h.mem c
  .footer h.mem c :: behind (unlinkNext binOf h c) fun h =>
    let m := if next ≠ 0 then chunkSetPrevFree h.mem next prev else h.mem
    (if next ≠ 0 then [.footer h.mem next] else []) ++ [.footer (chunkSetNextFree m c 0) c]

/-- The merge with the right neighbour. -/
def rightLookups (h : Heap ι) (c : Nat) : List Lookup :=
  let neighbor := chunkGetNextPhys h.mem c h.hi
  .next h.mem c h.hi ::
    if neighbor ≠ 0 ∧ chunkGetStatus h.mem neighbor = chunkFree then
      detachLookups binOf h neighbor ++ behind (freelistDetach binOf h neighbor) fun h =>
        setSpanLookups h.mem c (i32 (chunkGetSpan h.mem c + chunkGetSpan h.mem neighbor))
    else []

/-- The merges with the left neighbour, in `heapmgr_free` and in `sys_grow`. They differ in where
the span of the block is read. -/
def leftLookups (h : Heap ι) (c : Nat) (span : Mem → Int) : List Lookup :=
  let neighbor := chunkGetPrevPhys h.mem c h.lo
  .prev h.mem c h.lo ::
    if neighbor ≠ 0 ∧ chunkGetStatus h.mem neighbor = chunkFree then
      detachLookups binOf h neighbor ++ behind (freelistDetach binOf h neighbor) fun h =>
        setSpanLookups h.mem neighbor (i32 (chunkGetSpan h.mem neighbor + span h.mem))
    else []

/-- `sys_grow`. -/
def growLookups (h : Heap ι) (granted : Bool) (needUnits : Nat) : List Lookup :=
  let span := growSpan needUnits
  let r := h.sbrk granted (Int.bmod (span * chunkUnit) (2 ^ 64))
  if r.1 = sbrkFailed then []
  else
    let h := { r.2 with hi := r.2.brk }
    let h' := h.setMem (initBlock h.mem r.1 (i32 span) chunkFree)
    initLookups h.mem r.1 (i32 span) chunkFree ++
      (leftLookups binOf h' r.1 (fun _ => i32 span) ++
        behind (growMerge binOf h' r.1 (i32 span)) fun g => insertLookups binOf g.1 g.2)

/-! ### `check_heap_validity` -/

/-- `chunk_is_valid`. -/
def validLookups (m : Mem) (c start stop : Nat) : List Lookup :=
  if c = 0 ∨ c < start ∨ stop ≤ c ∨ chunkGetSpan m c < 2 then [] else [.footer m c]

/-- The walk over the physical blocks. -/
def checkBlocksLookups (h : Heap ι) : Nat → Nat → Nat → List Lookup
  | 0, _, _ => []
  | fuel + 1, prevW, w =>
      if w = 0 then []
      else validLookups h.mem w h.lo h.hi ++
        if !chunkIsValid h.mem w h.lo h.hi then []
        else if prevW ≠ 0 ∧ chunkGetStatus h.mem prevW = chunkFree ∧
            chunkGetStatus h.mem w = chunkFree then []
        else .next h.mem w h.hi :: checkBlocksLookups h fuel w (chunkGetNextPhys h.mem w h.hi)

/-- The walk over one free list. -/
def checkListLookups (h : Heap ι) (b : ι) : Nat → Nat → List Lookup
  | 0, _ => []
  | fuel + 1, fl =>
      if fl = 0 then []
      else
        let next := chunkGetNextFree h.mem fl
        let prev := chunkGetPrevFree h.mem fl
        .footer h.mem fl ::
          if chunkGetStatus h.mem fl ≠ chunkFree then []
          else if fl = h.heads b ∧ prev ≠ 0 then []
          else (if next ≠ 0 then [.footer h.mem next] else []) ++
            if next ≠ 0 ∧ chunkGetPrevFree h.mem next ≠ fl then []
            else if binOf (chunkGetSpan h.mem fl) ≠ some b then []
            else checkListLookups h b fuel next

/-- The walk over the free lists. -/
def checkListsLookups (h : Heap ι) : List ι → List Lookup
  | [] => []
  | b :: bins =>
      checkListLookups binOf h b (2 ^ 64) (h.heads b) ++
        behind (checkList binOf h b (2 ^ 64) (h.heads b)) fun ok =>
          if ok then checkListsLookups h bins else []

/-- `check_heap_validity`. -/
def checkLookups (bins : List ι) (h : Heap ι) : List Lookup :=
  if h.lo = 0 ∨ h.hi = 0 ∨ h.lo = h.hi then []
  else checkBlocksLookups h (2 ^ 64) 0 h.lo ++
    behind (checkBlocks h (2 ^ 64) 0 h.lo) fun ok =>
      if ok then checkListsLookups binOf h bins else []

end

/-! ### `do_alloc` -/

/-- The `do_alloc` of `heapmgr1`. -/
def Heapmgr1.allocLookups (h : Heap Unit) (cur : Nat) (needSpan : Int) : List Lookup :=
  let remainSpan := i32 (chunkGetSpan h.mem cur - needSpan)
  if 2 ≤ remainSpan then
    let m := chunkSetSpan h.mem cur remainSpan
    .footer h.mem cur :: (setSpanLookups h.mem cur remainSpan ++ (.footer m cur ::
      initLookups (chunkSetPrevFree m cur (chunkGetPrevFree h.mem cur))
        (ptrAdd cur (remainSpan * chunkUnit)) needSpan chunkUsed))
  else detachLookups Heapmgr1.binOf h cur

/-- The `do_alloc` of `heapmgr2`. -/
def Heapmgr2.allocLookups (h : Heap (Fin Heapmgr2.numBins)) (cur : Nat) (needSpan : Int) :
    List Lookup :=
  let remainSpan := i32 (chunkGetSpan h.mem cur - needSpan)
  detachLookups Heapmgr2.binOf h cur ++ behind (Heapmgr2.freelistDetach h cur) fun h =>
    if 2 ≤ remainSpan then
      let m := initBlock h.mem cur needSpan chunkUsed
      let rem := ptrAdd cur (needSpan * chunkUnit)
      let m' := chunkSetNextFree (chunkSetSpan m rem remainSpan) rem 0
      initLookups h.mem cur needSpan chunkUsed ++ (setSpanLookups m rem remainSpan ++
        (.footer m' rem :: insertLookups Heapmgr2.binOf (h.setMem (chunkSetPrevFree m' rem 0)) rem))
    else []

/-! ### The two calls -/

section
variable {ι : Type} [DecidableEq ι] (mgr : Manager ι) (alloc : Heap ι → Nat → Int → List Lookup)
  (debug : Bool)

/-- `assert(check_heap_validity())`. -/
def assertLookups (h : Heap ι) : List Lookup :=
  if debug then checkLookups mgr.binOf mgr.bins h else []

/-- A `do_alloc` and the assertion behind it. -/
def carveLookups (h : Heap ι) (cur : Nat) (needSpan : Int) : List Lookup :=
  alloc h cur needSpan ++ behind (mgr.doAlloc h cur needSpan) fun r => assertLookups mgr debug r.1

/-- `heapmgr_malloc` behind the bootstrap. `alloc` are the lookups of `do_alloc`. -/
def allocUnitsLookups (h : Heap ι) (env : Sbrk) (needUnits : Nat) : List Lookup :=
  let needSpan := i32 (i32 needUnits + 2)
  assertLookups mgr debug h ++ behind (assertValid mgr debug h) fun _ =>
    behind (searchFree mgr h needSpan) fun
      | some cur => carveLookups mgr alloc debug h cur needSpan
      | none =>
          growLookups mgr.binOf h env.extend needUnits ++
            behind (sysGrow mgr.binOf h env.extend needUnits) fun g =>
              if g.2 = 0 then assertLookups mgr debug g.1
              else carveLookups mgr alloc debug g.1 g.2 needSpan

/-- `heapmgr_malloc`. -/
def mallocLookups (h : Heap ι) (env : Sbrk) (size : UInt64) : List Lookup :=
  if size = 0 then []
  else behind (searchedHeap mgr h env) fun h =>
    allocUnitsLookups mgr alloc debug h env (needUnits size)

/-- `heapmgr_free`. -/
def freeLookups (h : Heap ι) (p : Nat) : List Lookup :=
  if p = 0 then []
  else assertLookups mgr debug h ++ behind (assertValid mgr debug h) fun _ =>
    let c := ptrAdd p (-chunkUnit)
    if debug ∧ chunkGetStatus h.mem c ≠ chunkUsed then []
    else rightLookups mgr.binOf h c ++ behind (coalesceRight mgr.binOf h c) fun h =>
      leftLookups mgr.binOf h c (fun m => chunkGetSpan m c) ++
        behind (coalesceLeft mgr.binOf h c) fun r =>
          insertLookups mgr.binOf r.1 r.2 ++ behind (freelistInsert mgr.binOf r.1 r.2) fun h =>
            assertLookups mgr debug h

/-- The lookups of a call. -/
def Client.lookups (s : Client ι) : Call → List Lookup
  | .malloc size env => mallocLookups mgr alloc debug s.heap env size
  | .free p => freeLookups mgr debug s.heap p
  | .write _ _ => []

end

end SysProg.Memory
