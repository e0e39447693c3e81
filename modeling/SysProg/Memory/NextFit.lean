import SysProg.Memory.LiveBlocks

/-!
# `SysProg.Memory.NextFit`: what `heapmgrkr.c` is for

A heap manager without a memory. Its state is an arena with a rover, the address where the last
search or the last release ended. A request takes the end of the first free piece behind the rover
that has room, and goes on at the lowest address behind the last piece. When there is none the
arena grows. `base` is the address of the rover in front of all pieces.
-/

set_option autoImplicit false

namespace SysProg.Memory

open SysProg.Lib

/-- An arena with a rover, and the end of the memory it may have. -/
@[ext] structure NextFit where
  arena : Arena
  rover : Nat
  base : Nat
  limit : Nat

namespace NextFit

/-- The state before the first call. -/
def init (base brk limit : Nat) : NextFit where
  arena := Arena.empty brk
  rover := base
  base := base
  limit := limit

/-- The last free piece in front of `x`, or `base`. -/
def before (s : NextFit) (x : Nat) : Nat := ((s.arena.lastFreeBelow x).map Piece.start).getD s.base

/-- By how much the arena grows for a block of `n` addresses. -/
def grow (n : Nat) : Nat := max n (chunkUnit * 1024)

/-- The heap grows by something, whatever the request is. The new piece is not empty. -/
theorem grow_pos (n : Nat) : 0 < grow n := lt_of_lt_of_le (by decide) (le_max_right _ _)

/-- The arena with `grow n` more addresses. The rover is in front of them. -/
def extend (s : NextFit) (n : Nat) : NextFit :=
  { s with arena := s.arena.extend (grow n) (grow_pos n), rover := s.before s.arena.hi }

/-- Takes the end of the piece `p`. The rover is in front of the piece, and the pointer is behind
the header. -/
def take (s : NextFit) (p : Piece) (n : Nat) (hn : 0 < n) : NextFit × Nat :=
  ({ s with arena := s.arena.carve p.start n hn, rover := s.before p.start },
    p.stop - n + chunkUnit)

/-- A block of `n` addresses. -/
def alloc (s : NextFit) (granted : Bool) (n : Nat) (hn : 0 < n) : NextFit × Nat :=
  match s.arena.nextFit s.rover n with
  | some p => s.take p n hn
  | none =>
      if granted ∧ s.arena.hi + grow n ≤ s.limit then
        match (s.extend n).arena.nextFit (s.extend n).rover n with
        | some p => (s.extend n).take p n hn
        | none => (s.extend n, 0)
      else (s, 0)

/-- A request. -/
def malloc (s : NextFit) (env : Sbrk) (size : UInt64) : Except Stop (NextFit × Nat) :=
  .ok (s.alloc env.extend (blockLen size.toNat) (blockLen_toNat_pos size))

/-- A block is given back. The rover is in front of it. -/
def free (s : NextFit) (p : Nat) : Except Stop NextFit :=
  .ok { s with arena := s.arena.release (p - chunkUnit), rover := s.before (p - chunkUnit) }

/-- The manager as a program sees it. -/
def allocator : Allocator NextFit where
  malloc := malloc
  free := free
  write := fun s _ _ => s
  maxSize := intMax / chunkUnit * chunkUnit - chunkUnit
  freesNull := false

/-- The blocks in use stay those of the allocations. A new one is the end of a free piece, and where
the rover is does not matter. -/
theorem alloc_blocks {s : NextFit} {granted : Bool} {size : Nat} {live : List (Nat × Nat)}
    (h : LiveBlocks s.arena live) :
    LiveBlocks (s.alloc granted (blockLen size) (blockLen_pos size)).1.arena
      (if (s.alloc granted (blockLen size) (blockLen_pos size)).2 = 0 then live
        else ((s.alloc granted (blockLen size) (blockLen_pos size)).2, size) :: live) := by
  have htake : ∀ {s : NextFit} {p : Piece} {r : Nat}, LiveBlocks s.arena live →
      s.arena.nextFit r (blockLen size) = some p →
      LiveBlocks (s.take p (blockLen size) (blockLen_pos size)).1.arena
        (if (s.take p (blockLen size) (blockLen_pos size)).2 = 0 then live
          else ((s.take p (blockLen size) (blockLen_pos size)).2, size) :: live) := by
    intro s p r hs hfit
    obtain ⟨hmem, hfree, hlen⟩ := Arena.mem_of_nextFit hfit
    have hne : (s.take p (blockLen size) (blockLen_pos size)).2 ≠ 0 := Nat.succ_ne_zero _
    rw [if_neg hne]
    exact hs.carve hmem hfree hlen
  unfold alloc
  split
  · rename_i p hfit
    exact htake h hfit
  · split
    · have hext : LiveBlocks (s.extend (blockLen size)).arena live := h.extend (grow_pos _)
      split
      · rename_i p hfit
        exact htake hext hfit
      · exact hext
    · exact h

/-- A step moves neither the start of the arena nor the end of the memory. -/
theorem userStep_bounds {s s' : User NextFit} {a : Call} {out : List Nat}
    (hstep : userStep allocator s a = some (s', out)) :
    s'.heap.arena.lo = s.heap.arena.lo ∧ s'.heap.base = s.heap.base ∧
      s'.heap.limit = s.heap.limit := by
  have halloc : ∀ (s : NextFit) granted n hn, (s.alloc granted n hn).1.arena.lo = s.arena.lo ∧
      (s.alloc granted n hn).1.base = s.base ∧ (s.alloc granted n hn).1.limit = s.limit := by
    intro s granted n hn
    unfold alloc
    split
    · exact ⟨rfl, rfl, rfl⟩
    · split
      · split
        · exact ⟨rfl, rfl, rfl⟩
        · exact ⟨rfl, rfl, rfl⟩
      · exact ⟨rfl, rfl, rfl⟩
  unfold userStep at hstep
  split at hstep
  · cases a with
    | malloc size env =>
        cases hstep
        exact halloc _ _ _ _
    | free p =>
        cases hstep
        exact ⟨rfl, rfl, rfl⟩
    | write x v =>
        cases hstep
        exact ⟨rfl, rfl, rfl⟩
  · cases hstep

end NextFit

end SysProg.Memory
