import Mathlib.Data.List.FinRange
import SysProg.Memory.Heap

/-!
# `SysProg.Memory.Heapmgr2`: segregated free lists

The model of `heapmgr2.c`. A free block is in the list of its span: the spans below 66 have a
list each, and the larger ones share lists by powers of two. The search goes through the
lists from that of the span it needs. `do_alloc` takes the whole block out of its list and
puts the rest of it back into another.
-/

set_option autoImplicit false

namespace SysProg.Memory.Heapmgr2

open SysProg.Lib

/-- `EXACT_BINS`. -/
def exactBins : Nat := 64

/-- `LOG_BINS`. -/
def logBins : Nat := 32

/-- `NUM_BINS`. -/
def numBins : Nat := exactBins + logBins

/-- The loop of `get_bin_index`, with at most `fuel` iterations. It stops by itself after
`LOG_BINS - 1` of them. -/
def logBin : Nat → Int → Nat → Nat
  | 0, _, k => k
  | fuel + 1, s, k =>
      if 1 < s ∧ exactBins + k < numBins - 1 then logBin fuel (s >>> (1 : Nat)) (k + 1) else k

/-- `get_bin_index`. -/
def getBinIndex (span : Int) : Int :=
  if span < 2 + exactBins then span - 2
  else exactBins + logBin logBins (span >>> (6 : Nat)) 0

/-- `get_search_bin`. -/
def getSearchBin (needSpan : Int) : Int := getBinIndex needSpan

/-- The list of a span, when its index is one of `s_bins`. -/
def binOf (span : Int) : Option (Fin numBins) :=
  let b := getBinIndex span
  if h : 0 ≤ b ∧ b < numBins then some ⟨b.toNat, by omega⟩ else none

/-- The lists from that of a span on. -/
def searchBins (needSpan : Int) : Option (List (Fin numBins)) :=
  let b := getSearchBin needSpan
  if b < 0 then none else some ((List.finRange numBins).drop b.toNat)

/-- `freelist_insert`. -/
def freelistInsert (h : Heap (Fin numBins)) (c : Nat) : Except Stop (Heap (Fin numBins)) :=
  SysProg.Memory.freelistInsert binOf h c

/-- `freelist_detach`. -/
def freelistDetach (h : Heap (Fin numBins)) (c : Nat) : Except Stop (Heap (Fin numBins)) :=
  SysProg.Memory.freelistDetach binOf h c

/-- `do_alloc`. -/
def doAlloc (h : Heap (Fin numBins)) (cur : Nat) (needSpan : Int) :
    Except Stop (Heap (Fin numBins) × Nat) :=
  let remainSpan := i32 (chunkGetSpan h.mem cur - needSpan)
  (freelistDetach h cur).bind fun h =>
    if 2 ≤ remainSpan then
      let m := initBlock h.mem cur needSpan chunkUsed
      let rem := ptrAdd cur (needSpan * chunkUnit)
      let m := chunkSetSpan m rem remainSpan
      let m := chunkSetNextFree m rem 0
      let m := chunkSetPrevFree m rem 0
      (freelistInsert (h.setMem m) rem).map fun h => (h, ptrAdd cur chunkUnit)
    else .ok (h, ptrAdd cur chunkUnit)

/-- The manager. Its `heap_bootstrap` empties the lists. -/
def manager : Manager (Fin numBins) where
  binOf := binOf
  bins := List.finRange numBins
  bootHeads := fun _ _ => 0
  searchBins := searchBins
  doAlloc := doAlloc

/-- `sys_grow`. -/
def sysGrow (h : Heap (Fin numBins)) (granted : Bool) (needUnits : Nat) :
    Except Stop (Heap (Fin numBins) × Nat) :=
  SysProg.Memory.sysGrow binOf h granted needUnits

/-- `check_heap_validity`. -/
def checkHeapValidity (h : Heap (Fin numBins)) : Except Stop Bool :=
  SysProg.Memory.checkHeapValidity binOf (List.finRange numBins) h

/-- `heapmgr_malloc`. -/
def heapmgrMalloc (debug : Bool) (h : Heap (Fin numBins)) (env : Sbrk) (size : UInt64) :
    Except Stop (Heap (Fin numBins) × Nat) :=
  SysProg.Memory.heapmgrMalloc manager debug h env size

/-- `heapmgr_free`. -/
def heapmgrFree (debug : Bool) (h : Heap (Fin numBins)) (p : Nat) :
    Except Stop (Heap (Fin numBins)) :=
  SysProg.Memory.heapmgrFree manager debug h p

end SysProg.Memory.Heapmgr2
