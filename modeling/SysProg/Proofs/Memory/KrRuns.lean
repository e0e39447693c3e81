import SysProg.Proofs.Memory.KrRefines

/-!
# `SysProg.Proofs.Memory.KrRuns`: programs that use `heapmgrkr.c`

What holds in every run of a program that keeps the contract, whatever is in the memory at the
start.
-/

set_option autoImplicit false

namespace SysProg.Memory

open SysProg.Lib Heapmgrkr

/-- The program before its first call has the two managers in the same state. The memory has any
contents then. -/
theorem Heapmgrkr.sameUser_start {base brk limit : Nat} (hrange : HeaderRange base brk limit)
    (mem : Mem) :
    SameUser NextFit.arena Heapmgrkr.Sim (User.start (State.init mem base brk limit))
      (User.start (NextFit.init base brk limit)) where
  sim :=
    { base := rfl
      limit := rfl
      lo := rfl
      hi := rfl
      pos := hrange.pos
      below := hrange.below
      le := hrange.le
      lt := hrange.lt
      small := hrange.small
      fresh := fun _ => ⟨rfl, rfl⟩
      rep := fun hfreep => absurd rfl hfreep }
  live := rfl
  blocks := LiveBlocks.empty brk

/-- A state that a program reaches, and the state of `NextFit` there. -/
theorem Heapmgrkr.sameUser_run {mem : Mem} {base brk limit : Nat}
    (hrange : HeaderRange base brk limit) {calls : List Call} {s : User State} {out : List Nat}
    (hrun : run (userStep Heapmgrkr.allocator) (User.start (State.init mem base brk limit)) calls
      = some (s, out)) :
    ∃ t, SameUser NextFit.arena Heapmgrkr.Sim s t ∧ t.heap.arena.lo = brk ∧ t.heap.base = base ∧
      t.heap.limit = limit := by
  obtain ⟨t, hrun', same⟩ := implements_nextFit.lockstep.run_some
    (Heapmgrkr.sameUser_start hrange mem) hrun
  refine ⟨t, same, ?_⟩
  refine run_invariant (I := fun t : User NextFit =>
    t.heap.arena.lo = brk ∧ t.heap.base = base ∧ t.heap.limit = limit) ⟨rfl, rfl, rfl⟩
    (fun t a t' es hI hstep => ?_) hrun'
  obtain ⟨hlo, hbase, hlimit⟩ := NextFit.userStep_bounds hstep
  exact ⟨hlo.trans hI.1, hbase.trans hI.2.1, hlimit.trans hI.2.2⟩

/-- A program cannot tell `heapmgrkr.c` from a next-fit manager without a memory. The pointers and
the break are the same after every sequence of calls, whatever the memory holds. -/
theorem heapmgrkr_nextFit {mem : Mem} {base brk limit : Nat} (hrange : HeaderRange base brk limit)
    (calls : List Call) :
    (run (userStep Heapmgrkr.allocator) (User.start (State.init mem base brk limit)) calls).map
        (fun r => ((r.1.live, r.1.heap.brk), r.2))
      = (run (userStep NextFit.allocator) (User.start (NextFit.init base brk limit)) calls).map
        fun r => ((r.1.live, r.1.heap.arena.hi), r.2) := by
  refine implements_nextFit.lockstep.map_run (Heapmgrkr.sameUser_start hrange mem)
    (f := fun s => (s.live, s.heap.brk)) (g := fun t => (t.live, t.heap.arena.hi))
    (fun s t same => ?_) calls
  rw [same.live, same.sim.hi]

/-- Two allocations, of which one is freed. The next search starts behind the rover. -/
theorem heapmgrkr_nextFit_rover :
    (run (userStep Heapmgrkr.allocator) (User.start (State.init ⟨fun _ => 0⟩ 1024 4096 1000000))
        [.malloc 100 ⟨true, true⟩, .malloc 200 ⟨true, true⟩, .free 20368,
          .malloc 64 ⟨true, true⟩]).map
        (fun r => ((r.1.live, r.1.heap.brk), r.2))
      = (run (userStep NextFit.allocator) (User.start (NextFit.init 1024 4096 1000000))
        [.malloc 100 ⟨true, true⟩, .malloc 200 ⟨true, true⟩, .free 20368,
          .malloc 64 ⟨true, true⟩]).map
        fun r => ((r.1.live, r.1.heap.arena.hi), r.2) :=
  heapmgrkr_nextFit ⟨by decide, by decide, by decide, by decide, by decide⟩ _

/-- In every run, the heap of `heapmgrkr.c` is well formed after each call. The sizes in the headers
lead through it, the links lead from `base` through the free blocks in the order of their
addresses and back, `freep` is in this ring, no two free blocks are neighbours, and the other
blocks are the allocations. Every legal call returns. -/
theorem heapmgrkr_invariant {mem : Mem} {base brk limit : Nat}
    (hrange : HeaderRange base brk limit) {calls : List Call} {s : User State} {out : List Nat}
    (hrun : run (userStep Heapmgrkr.allocator) (User.start (State.init mem base brk limit)) calls
      = some (s, out)) :
    (s.heap.freep ≠ 0 → ∃ ps, Laid headers s.heap.mem brk ps s.heap.brk ∧
      FreeCycle headers base s.heap.mem ps ∧ s.heap.freep ∈ ringNodes base ps ∧ Merged ps ∧
      (used ps).Perm (s.live.map blockOf)) ∧
    (s.heap.freep = 0 → s.live = []) ∧
    ∀ a, s.Legal Heapmgrkr.allocator a → ∃ r, userCall Heapmgrkr.allocator s a = .ok r := by
  obtain ⟨t, same, hlo, hbase, -⟩ := Heapmgrkr.sameUser_run hrange hrun
  have hbase' : s.heap.base = base := same.sim.base.trans hbase
  refine ⟨fun hfreep => ?_, fun hfreep => ?_, fun a hlegal => ?_⟩
  · obtain ⟨r, -, hnode⟩ := same.sim.rep hfreep
    have hlaid := r.laid
    have hring := r.ring
    rw [← same.sim.lo, hlo] at hlaid
    rw [hbase'] at hring hnode
    refine ⟨t.heap.arena.pieces, hlaid, hring, hnode, t.heap.arena.merged, ?_⟩
    rw [same.live]
    exact same.blocks.used
  · have hused := same.blocks.used
    rw [(same.sim.fresh hfreep).1] at hused
    rw [same.live]
    exact List.map_eq_nil_iff.mp hused.symm.eq_nil
  · have hcontinues : s.Continues Heapmgrkr.allocator fun _ => False := by
      refine implements_nextFit.continues same fun a hexit => ?_
      cases a with
      | malloc size env => cases hexit
      | free p => cases hexit
      | write x v => cases hexit
    exact (hcontinues a hlegal).resolve_right And.right

/-- A block was merged on both sides, and a block of no byte was allocated. -/
theorem heapmgrkr_invariant_merge :
    ∃ s : User State,
      run (userStep Heapmgrkr.allocator) (User.start (State.init ⟨fun _ => 0⟩ 1024 4096 1000000))
        [.malloc 100 ⟨true, true⟩, .malloc 200 ⟨true, true⟩, .free 20144, .malloc 64 ⟨true, true⟩,
          .malloc 100000 ⟨true, true⟩, .free 20368, .malloc 0 ⟨true, true⟩]
        = some (s, [20368, 20144, 20288, 20496, 20480]) ∧
      ∃ ps, Laid headers s.heap.mem 4096 ps s.heap.brk ∧ FreeCycle headers 1024 s.heap.mem ps ∧
        s.heap.freep ∈ ringNodes 1024 ps ∧ Merged ps ∧ (used ps).Perm (s.live.map blockOf) := by
  have hmap : (run (userStep Heapmgrkr.allocator)
      (User.start (State.init ⟨fun _ => 0⟩ 1024 4096 1000000))
      [.malloc 100 ⟨true, true⟩, .malloc 200 ⟨true, true⟩, .free 20144, .malloc 64 ⟨true, true⟩,
        .malloc 100000 ⟨true, true⟩, .free 20368, .malloc 0 ⟨true, true⟩]).map
      (fun r => (r.1.heap.freep, r.2)) = some (4096, [20368, 20144, 20288, 20496, 20480]) := by
    decide +kernel
  obtain ⟨⟨s, out⟩, hrun, heq⟩ := Option.map_eq_some_iff.mp hmap
  obtain ⟨hfreep, hout⟩ := Prod.mk.inj heq
  simp only at hout hfreep
  rw [hout] at hrun
  exact ⟨s, hrun, (heapmgrkr_invariant ⟨by decide, by decide, by decide, by decide, by decide⟩
    hrun).1 (by rw [hfreep]; decide)⟩

/-- The data of a program that uses `heapmgrkr.c` is safe. In every run, its allocations are apart,
headers included, and they lie in the memory that `sbrk` has given. A byte that is written to an
allocation is read back as long as the allocation is not freed and the byte is not written again,
whatever the program does else. -/
theorem heapmgrkr_data {mem : Mem} {base brk limit : Nat} (hrange : HeaderRange base brk limit)
    {calls : List Call} {s : User State} {out : List Nat}
    (hrun : run (userStep Heapmgrkr.allocator) (User.start (State.init mem base brk limit)) calls
      = some (s, out)) :
    (s.live.Pairwise fun r q => (blockOf r).stop ≤ (blockOf q).start ∨
      (blockOf q).stop ≤ (blockOf r).start) ∧
    (∀ r ∈ s.live, brk + chunkUnit ≤ r.1 ∧ r.1 + r.2 ≤ s.heap.brk) ∧
    ∀ r ∈ s.live, ∀ x, r.1 ≤ x → x < r.1 + r.2 → ∀ (v : UInt8) (more : List Call)
      (s' : User State) (out' : List Nat),
      (∀ a ∈ more, a ≠ .free r.1 ∧ ∀ w, a ≠ .write x w) →
      run (userStep Heapmgrkr.allocator) s (.write x v :: more) = some (s', out') →
        r ∈ s'.live ∧ s'.heap.mem.byte x = v := by
  obtain ⟨t, same, hlo, -⟩ := Heapmgrkr.sameUser_run hrange hrun
  refine ⟨same.disjoint, same.inside hlo same.sim.hi, ?_⟩
  intro r hr x hxlo hxhi v more s' out' hmore hrun'
  exact implements_nextFit.reads_back same hr hxlo hxhi hmore hrun'

/-- A byte of the first of two allocations, behind a free and a call that splits a block. -/
theorem heapmgrkr_data_two :
    ∃ s s' : User State,
      run (userStep Heapmgrkr.allocator) (User.start (State.init ⟨fun _ => 0⟩ 1024 4096 1000000))
        [.malloc 100 ⟨true, true⟩, .malloc 200 ⟨true, true⟩] = some (s, [20368, 20144]) ∧
      run (userStep Heapmgrkr.allocator) s
        [.write 20400 5, .free 20144, .malloc 64 ⟨true, true⟩] = some (s', [20288]) ∧
      (20368, 100) ∈ s'.live ∧ s'.heap.mem.byte 20400 = 5 := by
  have hmap : (run (userStep Heapmgrkr.allocator)
      (User.start (State.init ⟨fun _ => 0⟩ 1024 4096 1000000))
      [.malloc 100 ⟨true, true⟩, .malloc 200 ⟨true, true⟩]).map (fun r =>
        ((r.1.live, r.2), (run (userStep Heapmgrkr.allocator) r.1
          [.write 20400 5, .free 20144, .malloc 64 ⟨true, true⟩]).map Prod.snd))
      = some (([(20144, 200), (20368, 100)], [20368, 20144]), some [20288]) := by decide +kernel
  obtain ⟨⟨s, out⟩, hrun, heq⟩ := Option.map_eq_some_iff.mp hmap
  obtain ⟨hfirst, hmore⟩ := Prod.mk.inj heq
  obtain ⟨hlive, hout⟩ := Prod.mk.inj hfirst
  obtain ⟨⟨s', out'⟩, hrun', hout'⟩ := Option.map_eq_some_iff.mp hmore
  simp only at hlive hout hout' hrun'
  rw [hout] at hrun
  rw [hout'] at hrun'
  have hdata := (heapmgrkr_data ⟨by decide, by decide, by decide, by decide, by decide⟩ hrun).2.2
    (20368, 100) (by rw [hlive]; decide) 20400 (by decide) (by decide) 5
    [.free 20144, .malloc 64 ⟨true, true⟩] s' [20288] (fun a ha => by
      rcases List.mem_cons.mp ha with rfl | ha
      · exact ⟨by decide, fun w hw => by cases hw⟩
      · rw [List.mem_singleton.mp ha]
        exact ⟨by decide, fun w hw => by cases hw⟩) hrun'
  exact ⟨s, s', hrun, hrun', hdata⟩

/-- The rover is all that is left of the history of a heap of `heapmgrkr.c`. Two programs that hold
the same allocations in memory of the same bounds, with the same `freep`, get the same answers to
all further calls, however they came to their allocations. -/
theorem heapmgrkr_history {mem mem' : Mem} {base brk limit : Nat}
    (hrange : HeaderRange base brk limit) {calls calls' : List Call} {s s' : User State}
    {out out' : List Nat}
    (hrun : run (userStep Heapmgrkr.allocator) (User.start (State.init mem base brk limit)) calls
      = some (s, out))
    (hrun' : run (userStep Heapmgrkr.allocator) (User.start (State.init mem' base brk limit)) calls'
      = some (s', out'))
    (hfreep : s.heap.freep = s'.heap.freep) (hbrk : s.heap.brk = s'.heap.brk)
    (hlive : s.live.Perm s'.live) (more : List Call) :
    (run (userStep Heapmgrkr.allocator) s more).map Prod.snd
      = (run (userStep Heapmgrkr.allocator) s' more).map Prod.snd := by
  obtain ⟨t, same, hlo, hbase, hlimit⟩ := Heapmgrkr.sameUser_run hrange hrun
  obtain ⟨t', same', hlo', hbase', hlimit'⟩ := Heapmgrkr.sameUser_run hrange hrun'
  -- The blocks in use determine the arena.
  have harena : t.heap.arena = t'.heap.arena :=
    same.arena_eq same' (hlo.trans hlo'.symm)
      (by rw [same.sim.hi, same'.sim.hi, hbrk]) hlive
  have hrover : t.heap.rover = t'.heap.rover := by
    by_cases hzero : s.heap.freep = 0
    · rw [(same.sim.fresh hzero).2, (same'.sim.fresh (hfreep.symm.trans hzero)).2, hbase, hbase']
    · rw [← (same.sim.rep hzero).2.1,
        ← (same'.sim.rep fun hzero' => hzero (hfreep.trans hzero')).2.1, hfreep]
  have hheap : t.heap = t'.heap :=
    NextFit.ext harena hrover (hbase.trans hbase'.symm) (hlimit.trans hlimit'.symm)
  exact implements_nextFit.same_answers implements_nextFit same same' hheap hlive more

/-- Two allocations, made alone or around another one that is freed, in memories that differ. -/
theorem heapmgrkr_history_two :
    ∃ s s' : User State,
      run (userStep Heapmgrkr.allocator) (User.start (State.init ⟨fun _ => 0⟩ 1024 4096 1000000))
        [.malloc 100 ⟨true, true⟩, .malloc 64 ⟨true, true⟩] = some (s, [20368, 20288]) ∧
      run (userStep Heapmgrkr.allocator) (User.start (State.init ⟨fun _ => 7⟩ 1024 4096 1000000))
        [.malloc 100 ⟨true, true⟩, .malloc 300 ⟨true, true⟩, .free 20048, .malloc 64 ⟨true, true⟩]
        = some (s', [20368, 20048, 20288]) ∧
      (run (userStep Heapmgrkr.allocator) s [.free 20368, .malloc 200 ⟨true, true⟩]).map Prod.snd
        = (run (userStep Heapmgrkr.allocator) s' [.free 20368, .malloc 200 ⟨true, true⟩]).map
          Prod.snd := by
  have hmap : (run (userStep Heapmgrkr.allocator)
      (User.start (State.init ⟨fun _ => 0⟩ 1024 4096 1000000))
      [.malloc 100 ⟨true, true⟩, .malloc 64 ⟨true, true⟩]).map
      (fun r => ((r.1.live, r.1.heap.freep, r.1.heap.brk), r.2))
      = some (([(20288, 64), (20368, 100)], 1024, 20480), [20368, 20288]) := by decide +kernel
  have hmap' : (run (userStep Heapmgrkr.allocator)
      (User.start (State.init ⟨fun _ => 7⟩ 1024 4096 1000000))
      [.malloc 100 ⟨true, true⟩, .malloc 300 ⟨true, true⟩, .free 20048,
        .malloc 64 ⟨true, true⟩]).map
      (fun r => ((r.1.live, r.1.heap.freep, r.1.heap.brk), r.2))
      = some (([(20288, 64), (20368, 100)], 1024, 20480), [20368, 20048, 20288]) := by
    decide +kernel
  obtain ⟨⟨s, out⟩, hrun, heq⟩ := Option.map_eq_some_iff.mp hmap
  obtain ⟨⟨s', out'⟩, hrun', heq'⟩ := Option.map_eq_some_iff.mp hmap'
  simp only [Prod.mk.injEq] at heq heq'
  obtain ⟨⟨hlive, hfreep, hbrk⟩, rfl⟩ := heq
  obtain ⟨⟨hlive', hfreep', hbrk'⟩, rfl⟩ := heq'
  exact ⟨s, s', hrun, hrun', heapmgrkr_history
    ⟨by decide, by decide, by decide, by decide, by decide⟩ hrun hrun'
      (hfreep.trans hfreep'.symm) (hbrk.trans hbrk'.symm) (by rw [hlive, hlive']) _⟩

end SysProg.Memory
