import SysProg.Lib.Headers
import SysProg.Lib.Simulation
import SysProg.Memory.LiveBlocks

/-!
# `SysProg.Proofs.Memory.Implements`: a manager in memory and one on an arena

`Implements A B arena mem Sim` says that the manager `A`, with its blocks in a memory, does what
the manager `B` does on an arena. There is one field for each call. A program cannot tell the two
apart then (`Implements.lockstep`), and its data is safe (`Implements.data`).
-/

set_option autoImplicit false

namespace SysProg.Memory

open SysProg.Lib

variable {σ τ : Type}

/-- Every call of `A` returns what the call of `B` does, and leaves the blocks in use alone. -/
structure Implements (A : Allocator σ) (B : Allocator τ) (arena : τ → Arena) (mem : σ → Mem)
    (Sim : τ → σ → Prop) : Prop where
  maxSize : A.maxSize = B.maxSize
  freesNull : A.freesNull = B.freesNull
  malloc : ∀ {t s} (env : Sbrk) {size : UInt64}, Sim t s → size.toNat ≤ A.maxSize →
    (B.malloc t env size = .error .exited ∧ A.malloc s env size = .error .exited) ∨
    ∃ t' s' p, B.malloc t env size = .ok (t', p) ∧ A.malloc s env size = .ok (s', p) ∧ Sim t' s' ∧
      Within (fun x => ¬ InUse (arena t).pieces x) (mem s) (mem s') ∧
      ∀ {live}, LiveBlocks (arena t) live →
        LiveBlocks (arena t') (if p = 0 then live else (p, size.toNat) :: live)
  free : ∀ {t s live r}, Sim t s → LiveBlocks (arena t) live → r ∈ live →
    ∃ t' s', B.free t r.1 = .ok t' ∧ A.free s r.1 = .ok s' ∧ Sim t' s' ∧
      Within (fun x => ¬ InUse (arena t').pieces x) (mem s) (mem s') ∧
      arena t' = (arena t).release (r.1 - chunkUnit)
  free_null : ∀ {t s}, A.freesNull = true → Sim t s → B.free t 0 = .ok t ∧ A.free s 0 = .ok s
  write : ∀ {t s live r x} (v : UInt8), Sim t s → LiveBlocks (arena t) live → r ∈ live →
    r.1 ≤ x → x < r.1 + r.2 → Sim (B.write t x v) (A.write s x v)
  arena_write : ∀ t x v, arena (B.write t x v) = arena t
  mem_write : ∀ s x v, mem (A.write s x v) = ⟨Function.update (mem s).byte x v⟩

/-- The two programs have the same allocations, and these are the blocks in use. -/
structure SameUser (arena : τ → Arena) (Sim : τ → σ → Prop) (s : User σ) (t : User τ) : Prop where
  sim : Sim t.heap s.heap
  live : s.live = t.live
  blocks : LiveBlocks (arena t.heap) t.live

namespace SameUser

variable {arena : τ → Arena} {Sim : τ → σ → Prop} {s : User σ} {t : User τ}

/-- The blocks of the allocations are apart. -/
theorem disjoint (same : SameUser arena Sim s t) :
    s.live.Pairwise fun r q => (blockOf r).stop ≤ (blockOf q).start ∨
      (blockOf q).stop ≤ (blockOf r).start := by
  rw [same.live]
  exact same.blocks.disjoint

/-- The allocations lie in the arena. -/
theorem inside (same : SameUser arena Sim s t) {lo hi : Nat} (hlo : (arena t.heap).lo = lo)
    (hhi : (arena t.heap).hi = hi) :
    ∀ r ∈ s.live, lo + chunkUnit ≤ r.1 ∧ r.1 + r.2 ≤ hi := by
  intro r hr
  rw [same.live] at hr
  have hbounds := (arena t.heap).tiled.mem_bounds (same.blocks.mem hr)
  have hheader := same.blocks.header r hr
  have hlen := le_blockLen r.2
  have hstop : (blockOf r).stop = r.1 - chunkUnit + blockLen r.2 := rfl
  have hstart : (blockOf r).start = r.1 - chunkUnit := rfl
  omega

/-- The same allocations in an arena of the same bounds are the same arena. -/
theorem arena_eq {s' : User σ} {t' : User τ} (same : SameUser arena Sim s t)
    (same' : SameUser arena Sim s' t') (hlo : (arena t.heap).lo = (arena t'.heap).lo)
    (hhi : (arena t.heap).hi = (arena t'.heap).hi) (hlive : s.live.Perm s'.live) :
    arena t.heap = arena t'.heap := by
  have hperm : t.live.Perm t'.live := by
    rw [← same.live, ← same'.live]
    exact hlive
  exact Arena.eq_of_used hlo hhi
    ((same.blocks.used.trans (hperm.map blockOf)).trans same'.blocks.used.symm)

end SameUser

namespace Implements

variable {A : Allocator σ} {B : Allocator τ} {arena : τ → Arena} {mem : σ → Mem}
  {Sim : τ → σ → Prop} {s : User σ} {t : User τ}

/-- The same calls are legal. -/
theorem legal_iff (impl : Implements A B arena mem Sim) (same : SameUser arena Sim s t) (a : Call) :
    s.Legal A a ↔ t.Legal B a := by
  cases a with
  | malloc size env =>
      show size.toNat ≤ A.maxSize ↔ size.toNat ≤ B.maxSize
      rw [impl.maxSize]
  | free p =>
      show (p = 0 ∧ A.freesNull = true ∨ _) ↔ (p = 0 ∧ B.freesNull = true ∨ _)
      rw [impl.freesNull, same.live]
  | write x v =>
      show (∃ r ∈ s.live, _) ↔ ∃ r ∈ t.live, _
      rw [same.live]

/-- A legal call does the same to both programs. It changes no byte of an allocation that the
program had before and has behind it, except by a write. -/
theorem call (impl : Implements A B arena mem Sim) (same : SameUser arena Sim s t) {a : Call}
    (hlegal : s.Legal A a) :
    (userCall B t a = .error .exited ∧ userCall A s a = .error .exited) ∨
    ∃ t' s' out, userCall B t a = .ok (t', out) ∧ userCall A s a = .ok (s', out) ∧
      SameUser arena Sim s' t' ∧
      ((∀ x v, a ≠ .write x v) → ∀ r ∈ s.live, r ∈ s'.live → ∀ x, r.1 ≤ x → x < r.1 + r.2 →
        (mem s'.heap).byte x = (mem s.heap).byte x) := by
  cases a with
  | malloc size env =>
      rcases impl.malloc env same.sim hlegal with ⟨hB, hA⟩ | ⟨t', s', p, hB, hA, hsim, hw, hlive⟩
      · refine Or.inl ⟨?_, ?_⟩
        · rw [userCall, hB]
          rfl
        · rw [userCall, hA]
          rfl
      · refine Or.inr ⟨_, _, [p], by rw [userCall, hB]; rfl, by rw [userCall, hA]; rfl, ?_, ?_⟩
        · refine ⟨hsim, ?_, hlive same.blocks⟩
          show (if p = 0 then s.live else (p, size.toNat) :: s.live) = _
          rw [same.live]
        · intro _ r hr _ x hlo hhi
          rw [same.live] at hr
          exact hw x fun hnot => hnot (same.blocks.inUse hr hlo hhi)
  | free p =>
      rcases hlegal with ⟨rfl, hnull⟩ | ⟨r, hr, rfl⟩
      · obtain ⟨hB, hA⟩ := impl.free_null hnull same.sim
        -- No allocation is at `NULL`.
        have hall : ∀ q ∈ s.live, decide (q.1 ≠ 0) = true := by
          intro q hq
          rw [same.live] at hq
          have hheader := same.blocks.header q hq
          unfold chunkUnit at hheader
          exact decide_eq_true (by omega)
        have hfilter : (s.live.filter fun q => q.1 ≠ 0) = s.live := List.filter_eq_self.mpr hall
        refine Or.inr ⟨_, _, [], by rw [userCall, hB]; rfl, by rw [userCall, hA]; rfl, ?_, ?_⟩
        · refine ⟨same.sim, ?_, ?_⟩
          · show (s.live.filter fun q => q.1 ≠ 0) = t.live.filter fun q => q.1 ≠ 0
            rw [same.live]
          · show LiveBlocks (arena t.heap) (t.live.filter fun q => q.1 ≠ 0)
            rw [← same.live, hfilter, same.live]
            exact same.blocks
        · exact fun _ _ _ _ _ _ _ => rfl
      · rw [same.live] at hr
        obtain ⟨t', s', hB, hA, hsim, hw, harena⟩ := impl.free same.sim same.blocks hr
        have hblocks := same.blocks.release hr
        rw [← harena] at hblocks
        refine Or.inr ⟨_, _, [], by rw [userCall, hB]; rfl, by rw [userCall, hA]; rfl, ?_, ?_⟩
        · refine ⟨hsim, ?_, hblocks⟩
          show (s.live.filter fun q => q.1 ≠ r.1) = t.live.filter fun q => q.1 ≠ r.1
          rw [same.live]
        · intro _ q _ hq x hlo hhi
          have hq' : q ∈ t.live.filter fun q => q.1 ≠ r.1 := by
            rw [← same.live]
            exact hq
          exact hw x fun hnot => hnot (hblocks.inUse hq' hlo hhi)
  | write x v =>
      obtain ⟨r, hr, hlo, hhi⟩ := hlegal
      rw [same.live] at hr
      refine Or.inr ⟨_, _, [], rfl, rfl,
        ⟨impl.write v same.sim same.blocks hr hlo hhi, same.live, ?_⟩,
        fun hno => absurd rfl (hno x v)⟩
      show LiveBlocks (arena (B.write t.heap x v)) t.live
      rw [impl.arena_write]
      exact same.blocks

/-- The two programs run in lockstep. -/
theorem lockstep (impl : Implements A B arena mem Sim) :
    Lockstep (SameUser arena Sim) (userStep A) (userStep B) := by
  intro s t a same
  unfold userStep
  by_cases hlegal : s.Legal A a
  · rw [if_pos hlegal, if_pos ((impl.legal_iff same a).mp hlegal)]
    rcases impl.call same hlegal with ⟨hB, hA⟩ | ⟨t', s', out, hB, hA, hsame, -⟩
    · exact Or.inl ⟨by rw [hA]; rfl, by rw [hB]; rfl⟩
    · exact Or.inr ⟨s', t', out, by rw [hA]; rfl, by rw [hB]; rfl, hsame⟩
  · rw [if_neg hlegal, if_neg (mt (impl.legal_iff same a).mpr hlegal)]
    exact Or.inl ⟨rfl, rfl⟩

/-- The next call returns, unless the other manager exits at it. -/
theorem continues (impl : Implements A B arena mem Sim) (same : SameUser arena Sim s t)
    {exits : Call → Prop} (hexits : ∀ a, userCall B t a = .error .exited → exits a) :
    s.Continues A exits := by
  intro a hlegal
  rcases impl.call same hlegal with ⟨hB, hA⟩ | ⟨t', s', out, -, hA, -⟩
  · exact Or.inr ⟨hA, hexits a hB⟩
  · exact Or.inl ⟨(s', out), hA⟩

/-- A byte of an allocation keeps its value as long as the allocation is not freed and the byte
is not written. -/
theorem keeps (impl : Implements A B arena mem Sim) (same : SameUser arena Sim s t) {r : Nat × Nat}
    (hr : r ∈ s.live) {x : Nat} (hlo : r.1 ≤ x) (hhi : x < r.1 + r.2) {calls : List Call}
    (hcalls : ∀ a ∈ calls, a ≠ .free r.1 ∧ ∀ v, a ≠ .write x v) {s' : User σ} {out : List Nat}
    (hrun : run (userStep A) s calls = some (s', out)) :
    r ∈ s'.live ∧ (mem s'.heap).byte x = (mem s.heap).byte x := by
  induction calls generalizing s t out with
  | nil =>
      rw [run_nil, Option.some.injEq, Prod.mk.injEq] at hrun
      rw [← hrun.1]
      exact ⟨hr, rfl⟩
  | cons a calls ih =>
      obtain ⟨s₁, _, _, hfirst, hrest, -⟩ := run_append_eq_some
        (show run (userStep A) s ([a] ++ calls) = _ from hrun)
      rw [run_singleton, userStep] at hfirst
      split at hfirst
      · rename_i hlegal
        rcases impl.call same hlegal with ⟨-, hA⟩ | ⟨t₁, s₂, es, -, hA, same₁, hkeep⟩
        · rw [hA] at hfirst
          cases hfirst
        · rw [hA, Except.toOption, Option.some.injEq, Prod.mk.injEq] at hfirst
          obtain ⟨rfl, rfl⟩ := hfirst
          obtain ⟨hfree, hwrite⟩ := hcalls a List.mem_cons_self
          have hr₁ : r ∈ s₂.live := mem_live_userCall A hA hr hfree
          have hbyte : (mem s₂.heap).byte x = (mem s.heap).byte x := by
            cases a with
            | write y v =>
                rw [userCall, Except.ok.injEq, Prod.mk.injEq] at hA
                rw [← hA.1]
                show (mem (A.write s.heap y v)).byte x = _
                rw [impl.mem_write]
                exact Function.update_of_ne (fun heq => hwrite v (by rw [heq])) _ _
            | malloc size env => exact hkeep (fun _ _ hno => by cases hno) r hr hr₁ x hlo hhi
            | free p => exact hkeep (fun _ _ hno => by cases hno) r hr hr₁ x hlo hhi
          obtain ⟨hend, hlast⟩ := ih same₁ hr₁
            (fun b hb => hcalls b (List.mem_cons_of_mem _ hb)) hrest
          exact ⟨hend, hlast.trans hbyte⟩
      · cases hfirst

/-- A byte that is written to an allocation is read back. No call in between frees the allocation or
writes to the byte. -/
theorem reads_back (impl : Implements A B arena mem Sim) (same : SameUser arena Sim s t)
    {r : Nat × Nat} (hr : r ∈ s.live) {x : Nat} (hlo : r.1 ≤ x) (hhi : x < r.1 + r.2) {v : UInt8}
    {calls : List Call} (hcalls : ∀ a ∈ calls, a ≠ .free r.1 ∧ ∀ v, a ≠ .write x v) {s' : User σ}
    {out : List Nat} (hrun : run (userStep A) s (.write x v :: calls) = some (s', out)) :
    r ∈ s'.live ∧ (mem s'.heap).byte x = v := by
  obtain ⟨s₁, _, _, hwrite, hrest, -⟩ := run_append_eq_some
    (show run (userStep A) s ([Call.write x v] ++ calls) = _ from hrun)
  rw [run_singleton] at hwrite
  have hlegal : s.Legal A (.write x v) := ⟨r, hr, hlo, hhi⟩
  rcases impl.lockstep s t (.write x v) same with ⟨hnone, -⟩ | ⟨s₂, t₂, es, hs₂, -, same₂⟩
  · rw [hnone] at hwrite
    cases hwrite
  · rw [hs₂, Option.some.injEq, Prod.mk.injEq] at hwrite
    obtain ⟨rfl, -⟩ := hwrite
    unfold userStep at hs₂
    rw [if_pos hlegal] at hs₂
    cases hs₂
    obtain ⟨hend, hbyte⟩ := impl.keeps same₂ hr hlo hhi hcalls hrest
    refine ⟨hend, hbyte.trans ?_⟩
    show (mem (A.write s.heap x v)).byte x = v
    rw [impl.mem_write]
    exact Function.update_self _ _ _

/-- Two programs whose second managers are in the same state, with the same allocations, get the
same answers to all further calls. -/
theorem same_answers {A' : Allocator σ} (impl : Implements A B arena mem Sim)
    (impl' : Implements A' B arena mem Sim) {s' : User σ} {t' : User τ}
    (same : SameUser arena Sim s t) (same' : SameUser arena Sim s' t') (hheap : t.heap = t'.heap)
    (hlive : s.live.Perm s'.live) (calls : List Call) :
    (run (userStep A) s calls).map Prod.snd = (run (userStep A') s' calls).map Prod.snd := by
  have hperm : t.live.Perm t'.live := by
    rw [← same.live, ← same'.live]
    exact hlive
  have hout : ∀ {ρ ρ' : Type} {o : Option (ρ × List Nat)} {o' : Option (ρ' × List Nat)},
      o.map (fun r => ((), r.2)) = o'.map (fun r => ((), r.2)) →
      o.map Prod.snd = o'.map Prod.snd := by
    intro ρ ρ' o o' heq
    have hsnd := congrArg (Option.map Prod.snd) heq
    rw [Option.map_map, Option.map_map] at hsnd
    exact hsnd
  have hfirst := impl.lockstep.map_run same (f := fun _ => ()) (g := fun _ => ())
    (fun _ _ _ => rfl) calls
  have hmiddle := (lockstep_perm B).map_run ⟨hheap, hperm⟩ (f := fun _ => ()) (g := fun _ => ())
    (fun _ _ _ => rfl) calls
  have hlast := impl'.lockstep.map_run same' (f := fun _ => ()) (g := fun _ => ())
    (fun _ _ _ => rfl) calls
  exact hout (hfirst.trans (hmiddle.trans hlast.symm))

end Implements

end SysProg.Memory
