import SysProg.Memory.Physical

/-!
# `SysProg.Memory.Addresses`: the address arithmetic of `chunk.c`

`get_footer`, `chunk_get_next_phys` and `chunk_get_prev_phys` multiply a span by `CHUNK_UNIT` in
`int`. The statements here compare what they compute with the exact address.

* `ExactAddresses` is about the blocks that are in memory between two calls.
* `Client.Handles` are the blocks that a call works on. All headers and footers that it looks up on
  its way are those of parts of these blocks. `SysProg.Proofs.Memory.Lookups` proves it.
* `PartsExact` is about every part of a block, in any memory.
-/

set_option autoImplicit false

namespace SysProg.Memory

open SysProg.Lib

variable {ι : Type}

/-- The exact address of the footer of a block, and that of the block behind it. -/
def PhysBlock.exactFooter (b : PhysBlock) : Int := b.addr + (b.span - 1) * chunkUnit
def PhysBlock.exactNext (b : PhysBlock) : Int := b.addr + b.span * chunkUnit

/-- The addresses of the blocks in memory are exact. `NULL` stands for the end of the heap. -/
structure ExactAddresses (h : Heap ι) : Prop where
  footer : ∀ b ∈ layout h, (getFooter h.mem b.addr : Int) = b.exactFooter
  next : ∀ b ∈ layout h, (chunkGetNextPhys h.mem b.addr h.hi : Int) = b.exactNext ∨
    chunkGetNextPhys h.mem b.addr h.hi = 0 ∧ b.exactNext = h.hi
  prev : ∀ b ∈ layout h,
    (chunkGetPrevPhys h.mem b.addr h.lo : Int)
        = b.addr - footerSpan h.mem (b.addr - chunkUnit) * chunkUnit ∨
      chunkGetPrevPhys h.mem b.addr h.lo = 0 ∧ b.addr = h.lo

/-- The header at `c` of a span `k` is inside the block, up to its end. -/
structure InPart (b : PhysBlock) (c k : Nat) : Prop where
  pos : 1 ≤ k
  le : b.addr ≤ c
  stop : (c : Int) + k * chunkUnit ≤ b.exactNext

/-- The addresses of each part of a block are exact, whatever else is in memory. -/
structure PartsExact (b : PhysBlock) : Prop where
  footer : ∀ m c k, InPart b c k → chunkGetSpan m c = k → getFooter m c = c + (k - 1) * chunkUnit
  next : ∀ m c k stop, InPart b c k → chunkGetSpan m c = k →
    chunkGetNextPhys m c stop = if stop ≤ c + k * chunkUnit then 0 else c + k * chunkUnit
  prev : ∀ m c k start, InPart b c k → footerSpan m (c + (k - 1) * chunkUnit) = k →
    chunkGetPrevPhys m (c + k * chunkUnit) start = if c + k * chunkUnit ≤ start then 0 else c

/-- The blocks that a call works on: those of the heap, and those that it joins them to. -/
def Client.Handles (s : Client ι) (b : PhysBlock) : Call → Prop
  | .malloc size env => b ∈ layout s.heap ∨ Grows s.heap env size ∧
      b ∈ mergeFree (layout s.heap ++ [⟨s.heap.brk, growSpan (needUnits size), chunkFree⟩])
  | .free p => b ∈ layout s.heap ∨ b ∈ mergeFree ((layout s.heap).map (markFree [p]))
  | .write _ _ => b ∈ layout s.heap

end SysProg.Memory
