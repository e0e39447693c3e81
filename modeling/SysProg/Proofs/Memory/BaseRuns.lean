import SysProg.Proofs.Memory.BaseRefines

/-!
# `SysProg.Proofs.Memory.BaseRuns`: programs that use `heapmgrbase.c`

What holds in every run of a program that keeps the contract, in a debug build or not, and
whatever is in the memory at the start.
-/

set_option autoImplicit false

namespace SysProg.Memory

open SysProg.Lib

/-- The program before its first call has the two managers in the same state. -/
theorem Heapmgrbase.sameUser_start {brk limit : Nat} (hrange : UnitRange brk limit) (mem : Mem) :
    SameUser FirstFit.arena Heapmgrbase.Sim (User.start (Heap.init mem brk limit))
      (User.start (FirstFit.init brk limit)) where
  sim :=
    { booted := rfl
      limit := rfl
      lo := rfl
      hi := rfl
      pos := hrange.pos
      le := hrange.le
      lt := hrange.lt
      small := hrange.small
      fresh := fun _ => ⟨rfl, rfl⟩
      rep := fun hbooted => by cases hbooted }
  live := rfl
  blocks := LiveBlocks.empty brk

/-- A state that a program reaches, and the state of `FirstFit` there. -/
theorem Heapmgrbase.sameUser_run {debug : Bool} {mem : Mem} {brk limit : Nat}
    (hrange : UnitRange brk limit) {calls : List Call} {s : User (Heap Unit)} {out : List Nat}
    (hrun : run (userStep (Heapmgrbase.allocator debug)) (User.start (Heap.init mem brk limit))
      calls = some (s, out)) :
    ∃ t, SameUser FirstFit.arena Heapmgrbase.Sim s t ∧ t.heap.arena.lo = brk ∧
      t.heap.limit = limit := by
  obtain ⟨t, hrun', same⟩ := (Heapmgrbase.implements_firstFit debug).lockstep.run_some
    (Heapmgrbase.sameUser_start hrange mem) hrun
  refine ⟨t, same, ?_⟩
  refine run_invariant (I := fun t : User FirstFit => t.heap.arena.lo = brk ∧ t.heap.limit = limit)
    ⟨rfl, rfl⟩ (fun t a t' es hI hstep => ?_) hrun'
  obtain ⟨hlo, hlimit⟩ := FirstFit.userStep_bounds hstep
  exact ⟨hlo.trans hI.1, hlimit.trans hI.2⟩

/-- A program cannot tell `heapmgrbase.c` from a first-fit manager without a memory. The pointers
and the break are the same after every sequence of calls, whatever the memory holds. -/
theorem heapmgrbase_firstFit {debug : Bool} {mem : Mem} {brk limit : Nat}
    (hrange : UnitRange brk limit) (calls : List Call) :
    (run (userStep (Heapmgrbase.allocator debug)) (User.start (Heap.init mem brk limit)) calls).map
        (fun r => ((r.1.live, r.1.heap.brk), r.2))
      = (run (userStep FirstFit.allocator) (User.start (FirstFit.init brk limit)) calls).map
        fun r => ((r.1.live, r.1.heap.arena.hi), r.2) := by
  refine (Heapmgrbase.implements_firstFit debug).lockstep.map_run
    (Heapmgrbase.sameUser_start hrange mem) (f := fun s => (s.live, s.heap.brk))
    (g := fun t => (t.live, t.heap.arena.hi)) (fun s t same => ?_) calls
  rw [same.live, same.sim.hi]

/-- Two allocations, of which one is freed, split, and freed again, and one call of `sbrk`. -/
theorem heapmgrbase_firstFit_split :
    (run (userStep (Heapmgrbase.allocator true)) (User.start (Heap.init ⟨fun _ => 0⟩ 4096 1000000))
        [.malloc 100 ⟨true, true⟩, .malloc 200 ⟨true, true⟩, .free 20384,
          .malloc 64 ⟨true, true⟩]).map
        (fun r => ((r.1.live, r.1.heap.brk), r.2))
      = (run (userStep FirstFit.allocator) (User.start (FirstFit.init 4096 1000000))
        [.malloc 100 ⟨true, true⟩, .malloc 200 ⟨true, true⟩, .free 20384,
          .malloc 64 ⟨true, true⟩]).map
        fun r => ((r.1.live, r.1.heap.arena.hi), r.2) :=
  heapmgrbase_firstFit ⟨by decide, by decide, by decide, by decide⟩ _

/-- In every run, the heap of `heapmgrbase.c` is well formed after each call. The spans in the
headers lead through it, the list from `s_free_head` has the free blocks from the lowest address to
the highest, no two free blocks are neighbours, and the blocks in use are those of the allocations.
The next call returns, unless it is the first and `sbrk` does not tell the break. -/
theorem heapmgrbase_invariant {debug : Bool} {mem : Mem} {brk limit : Nat}
    (hrange : UnitRange brk limit) {calls : List Call} {s : User (Heap Unit)} {out : List Nat}
    (hrun : run (userStep (Heapmgrbase.allocator debug)) (User.start (Heap.init mem brk limit))
      calls = some (s, out)) :
    (s.heap.booted = true → ∃ ps, Heapmgrbase.Blocks s.heap.mem s.heap.lo ps s.heap.hi ∧
      FreeChain Heapmgrbase.headers 0 s.heap.mem (Heapmgrbase.freeHead s.heap) ps ∧ Merged ps ∧
      (used ps).Perm (s.live.map blockOf)) ∧
    (s.heap.booted = false → s.live = []) ∧
    s.Continues (Heapmgrbase.allocator debug) fun a =>
      s.heap.booted = false ∧ ∃ size env, a = .malloc size env ∧ env.query = false := by
  obtain ⟨t, same, -⟩ := Heapmgrbase.sameUser_run hrange hrun
  refine ⟨fun hbooted => ?_, fun hbooted => ?_, ?_⟩
  · obtain ⟨r, -, -⟩ := same.sim.rep hbooted
    refine ⟨t.heap.arena.pieces, r.blocks, r.chain, t.heap.arena.merged, ?_⟩
    rw [same.live]
    exact same.blocks.used
  · have hused := same.blocks.used
    rw [(same.sim.fresh hbooted).1] at hused
    rw [same.live]
    exact List.map_eq_nil_iff.mp hused.symm.eq_nil
  · refine (Heapmgrbase.implements_firstFit debug).continues same fun a hexit => ?_
    rw [same.sim.booted]
    cases a with
    | malloc size env =>
        have hmalloc : userCall FirstFit.allocator t (.malloc size env)
            = (FirstFit.malloc t.heap env size).map _ := rfl
        rw [hmalloc] at hexit
        unfold FirstFit.malloc at hexit
        split at hexit
        · cases hexit
        · split at hexit
          · rename_i hboth
            exact ⟨hboth.1, size, env, rfl, hboth.2⟩
          · cases hexit
    | free p =>
        have hfree : userCall FirstFit.allocator t (.free p)
            = (FirstFit.free t.heap p).map _ := rfl
        rw [hfree] at hexit
        unfold FirstFit.free at hexit
        split at hexit
        · cases hexit
        · cases hexit
    | write x v => cases hexit

/-- The heap has grown, a block was merged on both sides, and `NULL` was freed. -/
theorem heapmgrbase_invariant_merge :
    ∃ s : User (Heap Unit),
      run (userStep (Heapmgrbase.allocator true)) (User.start (Heap.init ⟨fun _ => 0⟩ 4096 1000000))
        [.malloc 100 ⟨true, true⟩, .malloc 200 ⟨true, true⟩, .write 20400 5, .free 20160,
          .malloc 64 ⟨true, true⟩, .malloc 100000 ⟨true, true⟩, .free 20384, .free 0]
        = some (s, [20384, 20160, 20304, 20512]) ∧
      s.live = [(20512, 100000), (20304, 64)] ∧
      (s.heap.booted = true → ∃ ps, Heapmgrbase.Blocks s.heap.mem s.heap.lo ps s.heap.hi ∧
        FreeChain Heapmgrbase.headers 0 s.heap.mem (Heapmgrbase.freeHead s.heap) ps ∧ Merged ps ∧
        (used ps).Perm (s.live.map blockOf)) := by
  have hmap : (run (userStep (Heapmgrbase.allocator true))
      (User.start (Heap.init ⟨fun _ => 0⟩ 4096 1000000))
      [.malloc 100 ⟨true, true⟩, .malloc 200 ⟨true, true⟩, .write 20400 5, .free 20160,
        .malloc 64 ⟨true, true⟩, .malloc 100000 ⟨true, true⟩, .free 20384, .free 0]).map
      (fun r => (r.1.live, r.2))
      = some ([(20512, 100000), (20304, 64)], [20384, 20160, 20304, 20512]) := by decide +kernel
  obtain ⟨⟨s, out⟩, hrun, heq⟩ := Option.map_eq_some_iff.mp hmap
  obtain ⟨hlive, hout⟩ := Prod.mk.inj heq
  simp only at hout
  rw [hout] at hrun
  exact ⟨s, hrun, hlive,
    (heapmgrbase_invariant ⟨by decide, by decide, by decide, by decide⟩ hrun).1⟩

/-- The data of a program that uses `heapmgrbase.c` is safe. In every run, its allocations are
apart, headers included, and they lie in the memory that `sbrk` has given. A byte that is written
to an allocation is read back as long as the allocation is not freed and the byte is not written
again, whatever the program does else. -/
theorem heapmgrbase_data {debug : Bool} {mem : Mem} {brk limit : Nat}
    (hrange : UnitRange brk limit) {calls : List Call} {s : User (Heap Unit)} {out : List Nat}
    (hrun : run (userStep (Heapmgrbase.allocator debug)) (User.start (Heap.init mem brk limit))
      calls = some (s, out)) :
    (s.live.Pairwise fun r q => (blockOf r).stop ≤ (blockOf q).start ∨
      (blockOf q).stop ≤ (blockOf r).start) ∧
    (∀ r ∈ s.live, brk + chunkUnit ≤ r.1 ∧ r.1 + r.2 ≤ s.heap.brk) ∧
    ∀ r ∈ s.live, ∀ x, r.1 ≤ x → x < r.1 + r.2 → ∀ (v : UInt8) (more : List Call)
      (s' : User (Heap Unit)) (out' : List Nat),
      (∀ a ∈ more, a ≠ .free r.1 ∧ ∀ w, a ≠ .write x w) →
      run (userStep (Heapmgrbase.allocator debug)) s (.write x v :: more) = some (s', out') →
        r ∈ s'.live ∧ s'.heap.mem.byte x = v := by
  obtain ⟨t, same, hlo, -⟩ := Heapmgrbase.sameUser_run hrange hrun
  refine ⟨same.disjoint, same.inside hlo same.sim.hi, ?_⟩
  intro r hr x hxlo hxhi v more s' out' hmore hrun'
  exact (Heapmgrbase.implements_firstFit debug).reads_back same hr hxlo hxhi hmore hrun'

/-- A byte of the first of two allocations, behind a free and a call that splits a block. -/
theorem heapmgrbase_data_two :
    ∃ s s' : User (Heap Unit),
      run (userStep (Heapmgrbase.allocator true)) (User.start (Heap.init ⟨fun _ => 0⟩ 4096 1000000))
        [.malloc 100 ⟨true, true⟩, .malloc 200 ⟨true, true⟩] = some (s, [20384, 20160]) ∧
      run (userStep (Heapmgrbase.allocator true)) s
        [.write 20400 5, .free 20160, .malloc 64 ⟨true, true⟩] = some (s', [20304]) ∧
      (20384, 100) ∈ s'.live ∧ s'.heap.mem.byte 20400 = 5 := by
  have hmap : (run (userStep (Heapmgrbase.allocator true))
      (User.start (Heap.init ⟨fun _ => 0⟩ 4096 1000000))
      [.malloc 100 ⟨true, true⟩, .malloc 200 ⟨true, true⟩]).map (fun r =>
        ((r.1.live, r.2), (run (userStep (Heapmgrbase.allocator true)) r.1
          [.write 20400 5, .free 20160, .malloc 64 ⟨true, true⟩]).map Prod.snd))
      = some (([(20160, 200), (20384, 100)], [20384, 20160]), some [20304]) := by decide +kernel
  obtain ⟨⟨s, out⟩, hrun, heq⟩ := Option.map_eq_some_iff.mp hmap
  obtain ⟨hfirst, hmore⟩ := Prod.mk.inj heq
  obtain ⟨hlive, hout⟩ := Prod.mk.inj hfirst
  obtain ⟨⟨s', out'⟩, hrun', hout'⟩ := Option.map_eq_some_iff.mp hmore
  simp only at hlive hout hout' hrun'
  rw [hout] at hrun
  rw [hout'] at hrun'
  have hdata := (heapmgrbase_data ⟨by decide, by decide, by decide, by decide⟩ hrun).2.2
    (20384, 100) (by rw [hlive]; decide) 20400 (by decide) (by decide) 5
    [.free 20160, .malloc 64 ⟨true, true⟩] s' [20304] (fun a ha => by
      rcases List.mem_cons.mp ha with rfl | ha
      · exact ⟨by decide, fun w hw => by cases hw⟩
      · rw [List.mem_singleton.mp ha]
        exact ⟨by decide, fun w hw => by cases hw⟩) hrun'
  exact ⟨s, s', hrun, hrun', hdata⟩

/-- The history of a heap of `heapmgrbase.c` does not matter. Two programs that hold the same
allocations, in memory of the same bounds, get the same answers to all further calls, however they
came to their allocations. -/
theorem heapmgrbase_history {debug debug' : Bool} {mem mem' : Mem} {brk limit : Nat}
    (hrange : UnitRange brk limit) {calls calls' : List Call} {s s' : User (Heap Unit)}
    {out out' : List Nat}
    (hrun : run (userStep (Heapmgrbase.allocator debug)) (User.start (Heap.init mem brk limit))
      calls = some (s, out))
    (hrun' : run (userStep (Heapmgrbase.allocator debug')) (User.start (Heap.init mem' brk limit))
      calls' = some (s', out'))
    (hbooted : s.heap.booted = s'.heap.booted) (hbrk : s.heap.brk = s'.heap.brk)
    (hlive : s.live.Perm s'.live) (more : List Call) :
    (run (userStep (Heapmgrbase.allocator debug)) s more).map Prod.snd
      = (run (userStep (Heapmgrbase.allocator debug')) s' more).map Prod.snd := by
  obtain ⟨t, same, hlo, hlimit⟩ := Heapmgrbase.sameUser_run hrange hrun
  obtain ⟨t', same', hlo', hlimit'⟩ := Heapmgrbase.sameUser_run hrange hrun'
  -- The blocks in use determine the arena.
  have harena : t.heap.arena = t'.heap.arena :=
    same.arena_eq same' (hlo.trans hlo'.symm)
      (by rw [same.sim.hi, same'.sim.hi, hbrk]) hlive
  have hheap : t.heap = t'.heap := by
    refine FirstFit.ext harena ?_ (hlimit.trans hlimit'.symm)
    rw [← same.sim.booted, ← same'.sim.booted, hbooted]
  exact (Heapmgrbase.implements_firstFit debug).same_answers
    (Heapmgrbase.implements_firstFit debug') same same' hheap hlive more

/-- One allocation, made alone or before another one that is freed, in memories that differ. -/
theorem heapmgrbase_history_one :
    ∃ s s' : User (Heap Unit),
      run (userStep (Heapmgrbase.allocator true)) (User.start (Heap.init ⟨fun _ => 0⟩ 4096 1000000))
        [.malloc 100 ⟨true, true⟩] = some (s, [20384]) ∧
      run (userStep (Heapmgrbase.allocator false))
        (User.start (Heap.init ⟨fun _ => 7⟩ 4096 1000000))
        [.malloc 100 ⟨true, true⟩, .malloc 200 ⟨true, true⟩, .free 20160]
        = some (s', [20384, 20160]) ∧
      (run (userStep (Heapmgrbase.allocator true)) s [.malloc 64 ⟨true, true⟩, .free 20384]).map
          Prod.snd
        = (run (userStep (Heapmgrbase.allocator false)) s'
          [.malloc 64 ⟨true, true⟩, .free 20384]).map Prod.snd := by
  have hmap : (run (userStep (Heapmgrbase.allocator true))
      (User.start (Heap.init ⟨fun _ => 0⟩ 4096 1000000)) [.malloc 100 ⟨true, true⟩]).map
      (fun r => ((r.1.live, r.1.heap.booted, r.1.heap.brk), r.2))
      = some (([(20384, 100)], true, 20496), [20384]) := by decide +kernel
  have hmap' : (run (userStep (Heapmgrbase.allocator false))
      (User.start (Heap.init ⟨fun _ => 7⟩ 4096 1000000))
      [.malloc 100 ⟨true, true⟩, .malloc 200 ⟨true, true⟩, .free 20160]).map
      (fun r => ((r.1.live, r.1.heap.booted, r.1.heap.brk), r.2))
      = some (([(20384, 100)], true, 20496), [20384, 20160]) := by decide +kernel
  obtain ⟨⟨s, out⟩, hrun, heq⟩ := Option.map_eq_some_iff.mp hmap
  obtain ⟨⟨s', out'⟩, hrun', heq'⟩ := Option.map_eq_some_iff.mp hmap'
  simp only [Prod.mk.injEq] at heq heq'
  obtain ⟨⟨hlive, hbooted, hbrk⟩, rfl⟩ := heq
  obtain ⟨⟨hlive', hbooted', hbrk'⟩, rfl⟩ := heq'
  exact ⟨s, s', hrun, hrun', heapmgrbase_history ⟨by decide, by decide, by decide, by decide⟩ hrun
    hrun' (hbooted.trans hbooted'.symm) (hbrk.trans hbrk'.symm) (by rw [hlive, hlive']) _⟩

end SysProg.Memory
