import SysProg.Memory.Addresses

/-!
# `SysProg.Memory.DoubleFree`: the entry of `heapmgr_free`

A debug build checks two assertions before `heapmgr_free` writes anything. `freeEntry` are these,
and `freeRest` is what comes behind them.

A history is a run that frees a pointer and does not return it again. `FreedEarlier` is every
such run. In `FreedApart` no call after that makes the freed block a part of the block on its
left. `Absorbs` names the calls that do: a call that frees a block beside a free left neighbour,
and a call that frees the left neighbour of a free block.
-/

set_option autoImplicit false

namespace SysProg.Memory

open SysProg.Lib

section
variable {ι : Type} [DecidableEq ι] (mgr : Manager ι)

/-- The assertions at the entry of `heapmgr_free`, in a debug build. -/
def freeEntry (h : Heap ι) (p : Nat) : Except Stop Unit := do
  assertValid mgr true h
  if chunkGetStatus h.mem (ptrAdd p (-chunkUnit)) ≠ chunkUsed then throw .assertFailed

/-- What `heapmgr_free` does behind these assertions. -/
def freeRest (h : Heap ι) (p : Nat) : Except Stop (Heap ι) := do
  let h ← coalesceRight mgr.binOf h (ptrAdd p (-chunkUnit))
  let r ← coalesceLeft mgr.binOf h (ptrAdd p (-chunkUnit))
  let h ← freelistInsert mgr.binOf r.1 r.2
  assertValid mgr true h
  return h

/-- An assertion at the entry fails. -/
def CaughtAtEntry (h : Heap ι) (p : Nat) : Prop := freeEntry mgr h p = .error .assertFailed

end

section
variable {ι : Type}

/-- The call makes the block in front of `p` a part of the block on its left. It frees `p` itself
while the block on the left is free, or it frees the block on the left. -/
def Absorbs (h : Heap ι) (p : Nat) : Call → Prop
  | .free q => ∃ b ∈ layout h, b.exactNext + chunkUnit = p ∧
      (q = p ∧ b.status = chunkFree ∨ q = b.addr + chunkUnit)
  | _ => False

instance (h : Heap ι) (p : Nat) : (a : Call) → Decidable (Absorbs h p a)
  | .malloc _ _ => inferInstanceAs (Decidable False)
  | .free q => inferInstanceAs (Decidable (∃ b ∈ layout h, b.exactNext + chunkUnit = p ∧
      (q = p ∧ b.status = chunkFree ∨ q = b.addr + chunkUnit)))
  | .write _ _ => inferInstanceAs (Decidable False)

variable [DecidableEq ι]

/-- A program that keeps the contract frees `p`, and goes on with calls that do not return `p`. No
call makes a block of more than `INT_MAX` bytes. The call that frees `p` and the later ones are as
`P` says, in the states in which they are made. -/
inductive FreedWith (mgr : Manager ι) (s₀ : Client ι) (p : Nat) (P : Client ι → Call → Prop) :
    Client ι → Prop where
  | free {calls : List Call} {s s' : Client ι} {out out' : List Nat}
      (hrun : run (clientStep mgr true) s₀ calls = some (s, out))
      (hcalls : CallsFit mgr true s₀ calls) (hP : P s (.free p)) (hfit : s.SizesFit (.free p))
      (hstep : clientStep mgr true s (.free p) = some (s', out')) : FreedWith mgr s₀ p P s'
  | call {s s' : Client ι} {a : Call} {out : List Nat} (hs : FreedWith mgr s₀ p P s) (hP : P s a)
      (hfit : s.SizesFit a) (hstep : clientStep mgr true s a = some (s', out)) (hout : p ∉ out) :
      FreedWith mgr s₀ p P s'

/-- `p` is freed, whatever the other calls are. -/
def FreedEarlier (mgr : Manager ι) (s₀ s : Client ι) (p : Nat) : Prop :=
  FreedWith mgr s₀ p (fun _ _ => True) s

/-- `p` is freed, and neither that call nor a later one makes its block a part of the block on
the left. -/
def FreedApart (mgr : Manager ι) (s₀ s : Client ι) (p : Nat) : Prop :=
  FreedWith mgr s₀ p (fun s a => ¬ Absorbs s.heap p a) s

end

end SysProg.Memory
