import SysProg.Lib.DoublyLinked
import SysProg.Memory.Heapmgr2

/-!
# `SysProg.Memory.HeapImage`: `check_heap_validity` with exact arithmetic

The heap checker of `heapmgr2.c` over any words in memory. A `HeapImage` holds the words that the
checker may read: those of a header at each address, and those of a footer. The address of a footer
and that of the next block are not reduced to an `int` or a pointer here.

* `HeapImage.checkHeapValidity` is the checker.
* `HeapImage.Checked` is what its answer `TRUE` means.
* `Heap.image` is the image of a heap in memory.
-/

set_option autoImplicit false

namespace SysProg.Memory.Heapmgr2

open SysProg.Lib

/-- The words of a heap, over a finite space of addresses. -/
structure HeapImage where
  lo : Nat
  hi : Nat
  heads : Fin numBins → Nat
  status : Nat → Int
  span : Nat → Int
  nextFree : Nat → Nat
  footerSpan : Int → Int
  footerPrev : Int → Nat
  size : Nat
  lo_lt : lo < hi
  aligned : chunkUnit ∣ hi - lo
  hi_le : hi ≤ size
  heads_lt : ∀ b, heads b < size
  nextFree_lt : ∀ c, nextFree c < size

namespace HeapImage

variable (I : HeapImage)

/-- `get_footer`. -/
def getFooter (c : Nat) : Int := c + (I.span c - 1) * chunkUnit

/-- `chunk_get_prev_free`. -/
def prevFree (c : Nat) : Nat := I.footerPrev (I.getFooter c)

/-- `chunk_get_next_phys`, up to the end of the heap. -/
def nextPhys (c : Nat) : Nat :=
  let n := (c : Int) + I.span c * chunkUnit
  if I.hi ≤ n then 0 else n.toNat

/-- `chunk_is_valid`, with the bounds of the heap. -/
def isValid (c : Nat) : Bool :=
  if c = 0 then false
  else if c < I.lo then false
  else if I.hi ≤ c then false
  else if I.span c < 2 then false
  else if I.hi ≤ I.getFooter c then false
  else decide (I.footerSpan (I.getFooter c) = I.span c)

/-- The walk over the physical blocks, with at most `fuel` iterations. -/
def checkBlocks : Nat → Nat → Nat → Except Stop Bool
  | 0, _, _ => .error .diverges
  | fuel + 1, prevW, w =>
      if w = 0 then .ok true
      else if !I.isValid w then .ok false
      else if prevW ≠ 0 ∧ I.status prevW = chunkFree ∧ I.status w = chunkFree then .ok false
      else checkBlocks fuel w (I.nextPhys w)

/-- The walk over one free list, with at most `fuel` iterations. -/
def checkList (b : Fin numBins) : Nat → Nat → Except Stop Bool
  | 0, _ => .error .diverges
  | fuel + 1, fl =>
      if fl = 0 then .ok true
      else
        let next := I.nextFree fl
        let prev := I.prevFree fl
        if I.status fl ≠ chunkFree then .ok false
        else if fl = I.heads b ∧ prev ≠ 0 then .ok false
        else if next ≠ 0 ∧ I.prevFree next ≠ fl then .ok false
        else if getBinIndex (I.span fl) ≠ b.val then .ok false
        else checkList b fuel next

/-- The walk over the free lists `bins`. -/
def checkLists (fuel : Nat) : List (Fin numBins) → Except Stop Bool
  | [] => .ok true
  | b :: bins =>
      (I.checkList b fuel (I.heads b)).bind fun ok =>
        if ok then checkLists fuel bins else .ok false

/-- `check_heap_validity`, with at most `fuel` iterations of each loop over addresses. -/
def checkHeapValidity (fuel : Nat) : Except Stop Bool :=
  if I.lo = 0 then .ok false
  else if I.hi = 0 then .ok false
  else if I.lo = I.hi then .ok ((List.finRange numBins).all fun b => I.heads b = 0)
  else
    (I.checkBlocks fuel 0 I.lo).bind fun ok =>
      if ok then I.checkLists fuel (List.finRange numBins) else .ok false

/-! ### The meaning of the answer -/

/-- Stepping from `a` by the spans visits the blocks `cs` and ends exactly at the end of the
heap. -/
def Walk : Nat → List Nat → Prop
  | a, [] => a = I.hi
  | a, c :: cs => c = a ∧ Walk (c + chunkUnit * (I.span c).toNat) cs

/-- What `TRUE` means, for the blocks `cs` and the nodes `ls` of the free lists. -/
structure Checked (cs : List Nat) (ls : Fin numBins → List Nat) : Prop where
  walk : I.Walk I.lo cs
  span : ∀ c ∈ cs, 2 ≤ I.span c
  footer : ∀ c ∈ cs, I.footerSpan (I.getFooter c) = I.span c
  apart : cs.IsChain fun c d => ¬ (I.status c = chunkFree ∧ I.status d = chunkFree)
  linked : ∀ b, Linked I.nextFree I.prevFree 0 0 (I.heads b) (ls b)
  distinct : ((List.finRange numBins).flatMap ls).Nodup
  free : ∀ b, ∀ c ∈ ls b, I.status c = chunkFree
  bin : ∀ b, ∀ c ∈ ls b, getBinIndex (I.span c) = b.val

/-- The nodes that are reached from the head of a list. -/
inductive Reaches (b : Fin numBins) : Nat → Prop where
  | head (hne : I.heads b ≠ 0) : Reaches b (I.heads b)
  | next {c : Nat} (hc : Reaches b c) (hne : I.nextFree c ≠ 0) : Reaches b (I.nextFree c)

/-- The links of a list never lead to `NULL`, so they run in a cycle. -/
def Endless (b : Fin numBins) : Prop :=
  I.heads b ≠ 0 ∧ ∀ c, I.Reaches b c → I.nextFree c ≠ 0

/-- The answer of the checker, and what it means. -/
structure Answers (ok : Bool) : Prop where
  terminates : ∀ fuel, I.size ≤ fuel → I.checkHeapValidity fuel = .ok ok
  sound : ok = true → ∃ cs ls, I.Checked cs ls
  endless : ∀ b, I.Endless b → ok = false
  shared : ∀ b b' c, b ≠ b' → I.Reaches b c → I.Reaches b' c → ok = false

end HeapImage

/-- The words of a heap in memory. -/
def image (h : Heap (Fin numBins)) (lo_lt : h.lo < h.hi) (aligned : chunkUnit ∣ h.hi - h.lo)
    (hi_le : h.hi ≤ 2 ^ 64) (heads_lt : ∀ b, h.heads b < 2 ^ 64) : HeapImage where
  lo := h.lo
  hi := h.hi
  heads := h.heads
  status := chunkGetStatus h.mem
  span := chunkGetSpan h.mem
  nextFree := chunkGetNextFree h.mem
  footerSpan := fun f => SysProg.Memory.footerSpan h.mem (f % 2 ^ 64).toNat
  footerPrev := fun f => loadPtr h.mem ((f % 2 ^ 64).toNat + 8)
  size := 2 ^ 64
  lo_lt := lo_lt
  aligned := aligned
  hi_le := hi_le
  heads_lt := heads_lt
  nextFree_lt := fun c => load_lt h.mem (c + 8) 8

/-- The addresses that the checker may come to. -/
inductive Visited (h : Heap (Fin numBins)) : Nat → Prop where
  | lo : Visited h h.lo
  | nextPhys {c : Nat} (hc : Visited h c) : Visited h (chunkGetNextPhys h.mem c h.hi)
  | head (b : Fin numBins) : Visited h (h.heads b)
  | nextFree {c : Nat} (hc : Visited h c) : Visited h (chunkGetNextFree h.mem c)

/-- The offsets in the block at `c` are `int`s, and its end is an address. -/
structure OffsetsFit (m : Mem) (c : Nat) : Prop where
  ge : -(intMax : Int) ≤ (chunkGetSpan m c - 1) * chunkUnit
  le : chunkGetSpan m c * chunkUnit ≤ intMax
  stop : (c : Int) + chunkGetSpan m c * chunkUnit < 2 ^ 64

end SysProg.Memory.Heapmgr2
