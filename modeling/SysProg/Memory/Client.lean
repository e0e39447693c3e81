import SysProg.Memory.Heap

/-!
# `SysProg.Memory.Client`: a program that uses a heap manager

`Client` is the heap with the allocations that the program holds. Its steps are the calls of a
manager and the writes of the program to its own allocations.

* `Client.Legal` is the contract of the calls: the size is in range, a pointer that is freed
  was allocated and not freed since, and a write stays inside an allocation.
* `clientCall` is what a call does, and `clientStep` allows the legal calls.
-/

set_option autoImplicit false

namespace SysProg.Memory

open SysProg.Lib

/-- The calls of a program. A call of `heapmgr_malloc` comes with the answers of `sbrk`. -/
inductive Call where
  | malloc (size : UInt64) (env : Sbrk)
  | free (p : Nat)
  | write (x : Nat) (v : UInt8)
deriving DecidableEq, Repr

/-- The heap and the allocations of the program: pointers and their sizes. -/
structure Client (ι : Type) where
  heap : Heap ι
  live : List (Nat × Nat)

/-- The largest size whose span is an `int`. -/
def maxSize : Nat := chunkUnit * (intMax - 2)

/-- The break of the program before the first call, and the end of the memory it may have. Both
are addresses, and neither is `NULL` or `(void *)-1`. -/
structure AddressRange (brk limit : Nat) : Prop where
  pos : 0 < brk
  le : brk ≤ limit
  lt : limit < sbrkFailed

/-- The break of the program before the first call, and the end of the memory it may have. A
heap in these bounds has offsets that are `int`s. -/
structure BreakRange (brk limit : Nat) : Prop where
  pos : 0 < brk
  le : brk ≤ limit
  small : limit ≤ brk + intMax
  lt : limit < sbrkFailed

section
variable {ι : Type}

/-- The program before its first call. -/
def Client.start (mem : Mem) (brk limit : Nat) : Client ι where
  heap := Heap.init mem brk limit
  live := []

/-- The contract of the calls. -/
def Client.Legal (s : Client ι) : Call → Prop
  | .malloc size _ => size.toNat ≤ maxSize
  | .free p => p = 0 ∨ ∃ r ∈ s.live, r.1 = p
  | .write x _ => ∃ r ∈ s.live, r.1 ≤ x ∧ x < r.1 + r.2

instance (s : Client ι) (a : Call) : Decidable (s.Legal a) :=
  match a with
  | .malloc size _ => inferInstanceAs (Decidable (size.toNat ≤ maxSize))
  | .free p => inferInstanceAs (Decidable (p = 0 ∨ ∃ r ∈ s.live, r.1 = p))
  | .write x _ => inferInstanceAs (Decidable (∃ r ∈ s.live, r.1 ≤ x ∧ x < r.1 + r.2))

variable [DecidableEq ι] (mgr : Manager ι) (debug : Bool)

/-- A call, with the pointers that it returns. -/
def clientCall (s : Client ι) : Call → Except Stop (Client ι × List Nat)
  | .malloc size env =>
      (heapmgrMalloc mgr debug s.heap env size).map fun r =>
        ({ heap := r.1, live := if r.2 = 0 then s.live else (r.2, size.toNat) :: s.live }, [r.2])
  | .free p =>
      (heapmgrFree mgr debug s.heap p).map fun h =>
        ({ heap := h, live := s.live.filter fun r => r.1 ≠ p }, [])
  | .write x v =>
      .ok ({ s with heap := s.heap.setMem ⟨Function.update s.heap.mem.byte x v⟩ }, [])

/-- The steps of a program that keeps the contract. A call that does not return ends the run. -/
def clientStep (s : Client ι) (a : Call) : Option (Client ι × List Nat) :=
  if s.Legal a then (clientCall mgr debug s a).toOption else none

end

end SysProg.Memory
