import SysProg.Lib.DoublyLinked
import SysProg.Memory.Client

/-!
# `SysProg.Memory.HeapSpec`: what a sound heap is

The statements about a heap between two calls, on the bytes of the memory alone. A block is
the address of its header here.

* `Walk` is the way through the heap by the spans in the headers.
* `WellFormed` is the physical heap, `FreeList` a free list, and `UsedAreLive` relates the used
  blocks to the allocations of the program.
* `LiveIntact` is what the program may rely on for its data.
-/

set_option autoImplicit false

namespace SysProg.Memory

open SysProg.Lib

variable {ι : Type}

/-- Stepping from `a` by the spans in the headers visits the blocks `cs` and ends at `hi`. -/
def Walk (m : Mem) : Nat → List Nat → Nat → Prop
  | a, [], hi => a = hi
  | a, c :: cs, hi => c = a ∧ Walk m (c + chunkUnit * (chunkGetSpan m c).toNat) cs hi

/-- The blocks `cs` tile the heap. Each has a span of at least two units, the same one in its
footer, and one of the two statuses. No two free ones are next to each other. -/
structure WellFormed (h : Heap ι) (cs : List Nat) : Prop where
  walk : Walk h.mem h.lo cs h.hi
  span : ∀ c ∈ cs, 2 ≤ chunkGetSpan h.mem c
  footer : ∀ c ∈ cs, footerSpan h.mem (getFooter h.mem c) = chunkGetSpan h.mem c
  status : ∀ c ∈ cs,
    chunkGetStatus h.mem c = chunkFree ∨ chunkGetStatus h.mem c = chunkUsed
  apart : cs.IsChain fun c d =>
    ¬ (chunkGetStatus h.mem c = chunkFree ∧ chunkGetStatus h.mem d = chunkFree)

/-- The nodes `l` from `head` on. The link back from each is its predecessor, and `NULL` at the
head. -/
structure FreeList (m : Mem) (head : Nat) (l : List Nat) : Prop where
  linked : Linked (chunkGetNextFree m) (chunkGetPrevFree m) 0 0 head l
  nodup : l.Nodup

/-- The used blocks are the allocations of the program, and each of these is one block. -/
structure UsedAreLive (h : Heap ι) (cs : List Nat) (live : List (Nat × Nat)) : Prop where
  nodup : (live.map Prod.fst).Nodup
  mem_iff : ∀ p, p ∈ live.map Prod.fst ↔
    ∃ c ∈ cs, chunkGetStatus h.mem c = chunkUsed ∧ p = c + chunkUnit

/-- Two ranges of bytes, given by their starts and lengths, do not overlap. -/
def Apart (a n b k : Nat) : Prop := a + n ≤ b ∨ b + k ≤ a

/-- The bytes of the allocations of `s` that `s'` still has are the same. -/
def Client.Keeps (s s' : Client ι) : Prop :=
  ∀ r ∈ s.live, r ∈ s'.live → ∀ x, r.1 ≤ x → x < r.1 + r.2 →
    s'.heap.mem.byte x = s.heap.mem.byte x

/-- The data of the program is safe: its allocations do not overlap, they lie in the heap and
apart from all headers and footers, and no call of the manager changes them. -/
structure LiveIntact [DecidableEq ι] (mgr : Manager ι) (debug : Bool) (s : Client ι) : Prop where
  disjoint : s.live.Pairwise fun r q => Apart r.1 r.2 q.1 q.2
  inside : ∀ r ∈ s.live, s.heap.lo ≤ r.1 ∧ r.1 + r.2 ≤ s.heap.hi
  units : ∃ cs, Walk s.heap.mem s.heap.lo cs s.heap.hi ∧ ∀ c ∈ cs, ∀ r ∈ s.live,
    Apart r.1 r.2 c chunkUnit ∧ Apart r.1 r.2 (getFooter s.heap.mem c) chunkUnit
  frame : ∀ a s' out, (∀ x v, a ≠ .write x v) → clientStep mgr debug s a = some (s', out) →
    s.Keeps s'

/-- The only call that does not return is the first `heapmgr_malloc`, when `sbrk` refuses to
tell the break. -/
def Client.Exits (s : Client ι) (a : Call) : Prop :=
  s.heap.booted = false ∧ ∃ size env, a = .malloc size env ∧ env.query = false

/-- The next call returns, whichever legal call it is, or the program exits. -/
def Client.Continues [DecidableEq ι] (mgr : Manager ι) (debug : Bool) (s : Client ι) : Prop :=
  ∀ a, s.Legal a → (∃ r, clientStep mgr debug s a = some r) ∨
    clientCall mgr debug s a = .error .exited ∧ s.Exits a

end SysProg.Memory
