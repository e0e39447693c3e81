import SysProg.Memory.Physical

/-!
# `SysProg.Memory.Sizes`: requests of any size

`heapmgr_malloc` takes a `size_t`. It adds to it, which may wrap around, and converts the number of
units to an `int`. `truncatedSpan` is the span that it searches for then, and `growBytes` is what
it asks `sbrk` for.

* `anySizeStep` is a step of a program that may ask for any size.
* `Untruncated` says that `heapmgr_malloc` serves a request, or answers `NULL` and changes nothing.
* `InRange` is the condition under which it does: the size is not too large, or the truncated
  request is `Refused`.
-/

set_option autoImplicit false

namespace SysProg.Memory

open SysProg.Lib

variable {ι : Type}

/-! ### Programs -/

/-- The contract of the calls without the bound on the size. -/
def Client.Owns (s : Client ι) : Call → Prop
  | .malloc _ _ => True
  | .free p => s.Legal (.free p)
  | .write x v => s.Legal (.write x v)

instance (s : Client ι) (a : Call) : Decidable (s.Owns a) :=
  match a with
  | .malloc _ _ => .isTrue trivial
  | .free p => inferInstanceAs (Decidable (s.Legal (.free p)))
  | .write x v => inferInstanceAs (Decidable (s.Legal (.write x v)))

/-- The steps of a program that may ask for any size. -/
def anySizeStep [DecidableEq ι] (mgr : Manager ι) (debug : Bool) (s : Client ι) (a : Call) :
    Option (Client ι × List Nat) :=
  if s.Owns a then (clientCall mgr debug s a).toOption else none

/-! ### Requests -/

/-- The span that `heapmgr_malloc` searches for, an `int`. -/
def truncatedSpan (size : UInt64) : Int := i32 (i32 (needUnits size) + 2)

/-- The number of bytes that `sys_grow` asks `sbrk` for. -/
def growBytes (size : UInt64) : Int :=
  Int.bmod ((growSpan (needUnits size) : Int) * chunkUnit) (2 ^ 64)

/-- The heap with its blocks, its free lists and its break is as it was. -/
structure SameStructure (h h' : Heap ι) : Prop where
  mem : h'.mem = h.mem
  heads : h'.heads = h.heads
  layout : layout h' = layout h
  brk : h'.brk = h.brk

/-- The pointer is to a used block of the heap with a payload of `size` bytes. -/
def HasRoom (h : Heap ι) (p : Nat) (size : UInt64) : Prop :=
  ∃ b ∈ layout h, b.status = chunkUsed ∧ p = b.addr + chunkUnit ∧
    size.toNat ≤ (b.span - 2) * chunkUnit

/-- `heapmgr_malloc` answers `NULL` and leaves the heap as it is, or it answers a block with room
for `size` bytes. Only the first call may exit. -/
def Untruncated [DecidableEq ι] (mgr : Manager ι) (debug : Bool) (s : Client ι) (env : Sbrk)
    (size : UInt64) : Prop :=
  (∃ h' p, heapmgrMalloc mgr debug s.heap env size = .ok (h', p) ∧
      (p = 0 ∧ SameStructure s.heap h' ∨ p ≠ 0 ∧ HasRoom h' p size)) ∨
    heapmgrMalloc mgr debug s.heap env size = .error .exited ∧ s.Exits (.malloc size env)

/-- The truncated request is refused: its span has lists to be searched in, no free block has this
span, and `sbrk` does not grant the bytes. -/
structure Refused (mgr : Manager ι) (h : Heap ι) (env : Sbrk) (size : UInt64) : Prop where
  bins : (mgr.searchBins (truncatedSpan size)).isSome
  noFit : ¬ HasFit h (truncatedSpan size)
  sbrk : (h.sbrk env.extend (growBytes size)).1 = sbrkFailed

/-- The span of the request is an `int`, and the heap does not grow by too much. Or the span is
truncated, and the truncated request is refused. -/
def InRange (mgr : Manager ι) (h : Heap ι) (env : Sbrk) (size : UInt64) : Prop :=
  size.toNat ≤ maxSize ∧ GrowthFits h env size ∨ maxSize < size.toNat ∧ Refused mgr h env size

/-- What a state says about the requests that may come next. Those in range are not truncated. One
beyond the largest size is not truncated only if it is refused, when the memory ends early enough
for no pointer to wrap around. -/
structure Client.KeepsSizes [DecidableEq ι] (mgr : Manager ι) (debug : Bool) (s : Client ι) :
    Prop where
  inRange : ∀ (size : UInt64) env, SysProg.Memory.InRange mgr s.heap env size →
    Untruncated mgr debug s env size
  large : s.heap.limit + 2 ^ 36 ≤ 2 ^ 64 → ∀ (size : UInt64) env, maxSize < size.toNat →
    (Untruncated mgr debug s env size ↔
      Refused mgr s.heap env size ∨
        heapmgrMalloc mgr debug s.heap env size = .error .exited ∧ s.Exits (.malloc size env))

/-- The condition on a call. -/
def Client.InRange (mgr : Manager ι) (s : Client ι) : Call → Prop
  | .malloc size env => SysProg.Memory.InRange mgr s.heap env size
  | .free p => s.SizesFit (.free p)
  | .write x v => s.SizesFit (.write x v)

end SysProg.Memory
