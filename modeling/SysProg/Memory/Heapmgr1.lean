import SysProg.Memory.Heap

/-!
# `SysProg.Memory.Heapmgr1`: one free list

The model of `heapmgr1.c`. The free blocks are in one list, and the search takes the first
block that fits. `do_alloc` cuts the new block from the end of a free one, which keeps its
place in the list.
-/

set_option autoImplicit false

namespace SysProg.Memory.Heapmgr1

open SysProg.Lib

/-- There is one list for all spans, `s_free_head`. -/
def binOf (_ : Int) : Option Unit := some ()

/-- `freelist_insert_head`. -/
def freelistInsertHead (h : Heap Unit) (c : Nat) : Except Stop (Heap Unit) :=
  SysProg.Memory.freelistInsert binOf h c

/-- `freelist_detach`. -/
def freelistDetach (h : Heap Unit) (c : Nat) : Except Stop (Heap Unit) :=
  SysProg.Memory.freelistDetach binOf h c

/-- `do_alloc`. -/
def doAlloc (h : Heap Unit) (cur : Nat) (needSpan : Int) : Except Stop (Heap Unit × Nat) :=
  let remainSpan := i32 (chunkGetSpan h.mem cur - needSpan)
  if 2 ≤ remainSpan then
    -- The footer moves, and the link in it moves along.
    let savedPrev := chunkGetPrevFree h.mem cur
    let m := chunkSetSpan h.mem cur remainSpan
    let m := chunkSetPrevFree m cur savedPrev
    let alloc := ptrAdd cur (remainSpan * chunkUnit)
    let m := initBlock m alloc needSpan chunkUsed
    .ok (h.setMem m, ptrAdd alloc chunkUnit)
  else (freelistDetach h cur).map fun h => (h, ptrAdd cur chunkUnit)

/-- The manager. Its `heap_bootstrap` leaves `s_free_head` as it is. -/
def manager : Manager Unit where
  binOf := binOf
  bins := [()]
  bootHeads := id
  searchBins := fun _ => some [()]
  doAlloc := doAlloc

/-- `sys_grow`. -/
def sysGrow (h : Heap Unit) (granted : Bool) (needUnits : Nat) :
    Except Stop (Heap Unit × Nat) :=
  SysProg.Memory.sysGrow binOf h granted needUnits

/-- `check_heap_validity`. -/
def checkHeapValidity (h : Heap Unit) : Except Stop Bool :=
  SysProg.Memory.checkHeapValidity binOf [()] h

/-- `heapmgr_malloc`. -/
def heapmgrMalloc (debug : Bool) (h : Heap Unit) (env : Sbrk) (size : UInt64) :
    Except Stop (Heap Unit × Nat) :=
  SysProg.Memory.heapmgrMalloc manager debug h env size

/-- `heapmgr_free`. -/
def heapmgrFree (debug : Bool) (h : Heap Unit) (p : Nat) : Except Stop (Heap Unit) :=
  SysProg.Memory.heapmgrFree manager debug h p

end SysProg.Memory.Heapmgr1
