import SysProg.Memory.LiveBlocks

/-!
# `SysProg.Memory.FirstFit`: what `heapmgrbase.c` is for

A heap manager without a memory. Its state is an arena, and a block is a piece of it. A request
takes the end of the free piece with the lowest address that has room. When there is none the
arena grows, and the request is tried again. A block that is given back is merged with its free
neighbours.

`FirstFit.grow` has the sizes of `heapmgrbase.c`.
-/

set_option autoImplicit false

namespace SysProg.Memory

open SysProg.Lib

/-- An arena, and the end of the memory it may have. -/
@[ext] structure FirstFit where
  arena : Arena
  booted : Bool
  limit : Nat

namespace FirstFit

/-- The state before the first call. -/
def init (brk limit : Nat) : FirstFit where
  arena := Arena.empty brk
  booted := false
  limit := limit

/-- By how much the arena grows for a block of `n` addresses. -/
def grow (n : Nat) : Nat := max n (chunkUnit * (1 + 1024))

/-- The heap grows by something, whatever the request is. The new piece is not empty. -/
theorem grow_pos (n : Nat) : 0 < grow n := lt_of_lt_of_le (by decide) (le_max_right _ _)

/-- The arena with `grow n` more addresses. -/
def extend (s : FirstFit) (n : Nat) : FirstFit :=
  { s with arena := s.arena.extend (grow n) (grow_pos n) }

/-- Takes the end of the piece `p`. The pointer is behind the header. -/
def take (s : FirstFit) (p : Piece) (n : Nat) (hn : 0 < n) : FirstFit × Nat :=
  ({ s with arena := s.arena.carve p.start n hn }, p.stop - n + chunkUnit)

/-- A block of `n` addresses. -/
def alloc (s : FirstFit) (granted : Bool) (n : Nat) (hn : 0 < n) : FirstFit × Nat :=
  match s.arena.firstFit n with
  | some p => s.take p n hn
  | none =>
      if granted ∧ s.arena.hi + grow n ≤ s.limit then
        match (s.extend n).arena.firstFit n with
        | some p => (s.extend n).take p n hn
        | none => (s.extend n, 0)
      else (s, 0)

/-- Taking a piece that has room makes it an allocation. -/
theorem take_blocks {s : FirstFit} {p : Piece} {size : Nat} {live : List (Nat × Nat)}
    (h : LiveBlocks s.arena live) (hp : p ∈ s.arena.pieces) (hfree : p.free = true)
    (hn : blockLen size ≤ p.len) :
    LiveBlocks (s.take p (blockLen size) (blockLen_pos size)).1.arena
      (if (s.take p (blockLen size) (blockLen_pos size)).2 = 0 then live
        else ((s.take p (blockLen size) (blockLen_pos size)).2, size) :: live) := by
  have hne : (s.take p (blockLen size) (blockLen_pos size)).2 ≠ 0 := Nat.succ_ne_zero _
  rw [if_neg hne]
  exact h.carve hp hfree hn

/-- The blocks in use stay those of the allocations. A new one is the end of a free piece, and the
memory grows by a free piece only. -/
theorem alloc_blocks {s : FirstFit} {granted : Bool} {size : Nat} {live : List (Nat × Nat)}
    (h : LiveBlocks s.arena live) :
    LiveBlocks (s.alloc granted (blockLen size) (blockLen_pos size)).1.arena
      (if (s.alloc granted (blockLen size) (blockLen_pos size)).2 = 0 then live
        else ((s.alloc granted (blockLen size) (blockLen_pos size)).2, size) :: live) := by
  have htake : ∀ {s : FirstFit} {p : Piece}, LiveBlocks s.arena live →
      s.arena.firstFit (blockLen size) = some p →
      LiveBlocks (s.take p (blockLen size) (blockLen_pos size)).1.arena
        (if (s.take p (blockLen size) (blockLen_pos size)).2 = 0 then live
          else ((s.take p (blockLen size) (blockLen_pos size)).2, size) :: live) := by
    intro s p hs hfit
    obtain ⟨⟨hfree, hlen⟩, pre, suf, hps, -⟩ := Arena.firstFit_eq_some.mp hfit
    refine take_blocks hs ?_ hfree hlen
    rw [hps]
    exact List.mem_append_right _ List.mem_cons_self
  unfold alloc
  split
  · rename_i p hfit
    exact htake h hfit
  · split
    · have hext : LiveBlocks (s.extend (blockLen size)).arena live := h.extend (grow_pos _)
      split
      · rename_i p hfit
        exact htake hext hfit
      · exact hext
    · exact h

/-- A request. The first one has to learn where the memory starts. -/
def malloc (s : FirstFit) (env : Sbrk) (size : UInt64) : Except Stop (FirstFit × Nat) :=
  if size = 0 then .ok (s, 0)
  else if s.booted = false ∧ env.query = false then .error .exited
  else
    .ok ({ s with booted := true }.alloc env.extend (blockLen size.toNat) (blockLen_toNat_pos size))

/-- A block is given back. -/
def free (s : FirstFit) (p : Nat) : Except Stop FirstFit :=
  if p = 0 then .ok s else .ok { s with arena := s.arena.release (p - chunkUnit) }

/-- The manager as a program sees it. -/
def allocator : Allocator FirstFit where
  malloc := malloc
  free := free
  write := fun s _ _ => s
  maxSize := chunkUnit * (intMax - 1)
  freesNull := true

/-- A step moves neither the start of the arena nor the end of the memory. -/
theorem userStep_bounds {s s' : User FirstFit} {a : Call} {out : List Nat}
    (hstep : userStep allocator s a = some (s', out)) :
    s'.heap.arena.lo = s.heap.arena.lo ∧ s'.heap.limit = s.heap.limit := by
  have halloc : ∀ (s : FirstFit) granted n hn, (s.alloc granted n hn).1.arena.lo = s.arena.lo ∧
      (s.alloc granted n hn).1.limit = s.limit := by
    intro s granted n hn
    unfold alloc
    split
    · exact ⟨rfl, rfl⟩
    · split
      · split
        · exact ⟨rfl, rfl⟩
        · exact ⟨rfl, rfl⟩
      · exact ⟨rfl, rfl⟩
  unfold userStep at hstep
  split at hstep
  · cases a with
    | malloc size env =>
        have hmalloc : userCall allocator s (.malloc size env)
            = (malloc s.heap env size).map _ := rfl
        rw [hmalloc] at hstep
        unfold malloc at hstep
        split at hstep
        · cases hstep
          exact ⟨rfl, rfl⟩
        · split at hstep
          · cases hstep
          · cases hstep
            exact halloc _ _ _ _
    | free p =>
        have hfree : userCall allocator s (.free p) = (free s.heap p).map _ := rfl
        rw [hfree] at hstep
        unfold free at hstep
        split at hstep
        · cases hstep
          exact ⟨rfl, rfl⟩
        · cases hstep
          exact ⟨rfl, rfl⟩
    | write x v =>
        cases hstep
        exact ⟨rfl, rfl⟩
  · cases hstep

end FirstFit

end SysProg.Memory
