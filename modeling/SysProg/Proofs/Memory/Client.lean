import SysProg.Lib.Run
import SysProg.Memory.HeapSpec
import SysProg.Proofs.Memory.Malloc

/-!
# `SysProg.Proofs.Memory.Client`: runs of a program

* `Serves` relates the allocations of the program to the blocks it holds, and
  `Client.Inv` is the invariant of its runs.
* `Client.Inv.call` is the step lemma: a legal call returns with the invariant and keeps the
  other allocations, unless `sbrk` refuses the first query. `Client.inv_run` is the run lemma.
* A run may make no block whose size is not an `int`. In a heap that is small as a whole none
  does (`Client.inv_run_of_breakRange`).
-/

set_option autoImplicit false

namespace SysProg.Memory

open SysProg.Lib

/-! ### Allocations and blocks -/

/-- The allocations `live` are the payloads of the blocks `ds`. -/
structure Serves (live : List (Nat × Nat)) (ds : List Block) : Prop where
  nodup : (live.map Prod.fst).Nodup
  block : ∀ r ∈ live, ∃ d ∈ ds, r.1 = d.addr + 16 ∧ 0 < r.2 ∧ r.2 + 32 ≤ 16 * d.span
  owner : ∀ d ∈ ds, ∃ r ∈ live, r.1 = d.addr + 16

namespace Serves

variable {live : List (Nat × Nat)} {ds ds' : List Block} {u : Block} {n : Nat}

/-- A new block serves a new allocation. The others serve those that they have served before. -/
theorem gain (h : Serves live ds) (hperm : ds'.Perm (u :: ds))
    (hnodup : (ds'.map Block.addr).Nodup) (hpos : 0 < n) (hspan : n + 32 ≤ 16 * u.span) :
    Serves ((u.addr + 16, n) :: live) ds' := by
  -- The new block is none of the old ones, so its pointer is new.
  have hfresh : u.addr ∉ ds.map Block.addr := by
    have hcons := (hperm.map Block.addr).nodup_iff.mp hnodup
    rw [List.map_cons] at hcons
    exact (List.nodup_cons.mp hcons).1
  refine ⟨?_, ?_, ?_⟩
  · rw [List.map_cons]
    refine List.nodup_cons.mpr ⟨fun hmem => ?_, h.nodup⟩
    obtain ⟨r, hr, heq⟩ := List.mem_map.mp hmem
    obtain ⟨d, hd, haddr, _⟩ := h.block r hr
    have hsame : d.addr = u.addr := by omega
    exact hfresh (List.mem_map.mpr ⟨d, hd, hsame⟩)
  · intro r hr
    rcases List.mem_cons.mp hr with rfl | hr
    · exact ⟨u, hperm.mem_iff.mpr List.mem_cons_self, rfl, hpos, hspan⟩
    · obtain ⟨d, hd, hrest⟩ := h.block r hr
      exact ⟨d, hperm.mem_iff.mpr (List.mem_cons_of_mem _ hd), hrest⟩
  · intro d hd
    rcases List.mem_cons.mp (hperm.mem_iff.mp hd) with rfl | hd
    · exact ⟨_, List.mem_cons_self, rfl⟩
    · obtain ⟨r, hr, heq⟩ := h.owner d hd
      exact ⟨r, List.mem_cons_of_mem _ hr, heq⟩

/-- A block that is given back serves its allocation no longer. The others stay. -/
theorem lose (h : Serves live ds) (hperm : ds.Perm (u :: ds'))
    (hnodup : (ds.map Block.addr).Nodup) :
    Serves (live.filter fun r => r.1 ≠ u.addr + 16) ds' := by
  have hfresh : u.addr ∉ ds'.map Block.addr := by
    have hcons := (hperm.map Block.addr).nodup_iff.mp hnodup
    rw [List.map_cons] at hcons
    exact (List.nodup_cons.mp hcons).1
  refine ⟨?_, ?_, ?_⟩
  · exact h.nodup.sublist (List.filter_sublist.map _)
  · intro r hr
    obtain ⟨hmem, hne⟩ := List.mem_filter.mp hr
    obtain ⟨d, hd, haddr, hrest⟩ := h.block r hmem
    rcases List.mem_cons.mp (hperm.mem_iff.mp hd) with rfl | hd
    · exact absurd haddr (by simpa using hne)
    · exact ⟨d, hd, haddr, hrest⟩
  · intro d hd
    obtain ⟨r, hr, haddr⟩ := h.owner d (hperm.mem_iff.mpr (List.mem_cons_of_mem _ hd))
    refine ⟨r, List.mem_filter.mpr ⟨hr, ?_⟩, haddr⟩
    -- The other blocks have other pointers.
    have hne : d.addr ≠ u.addr := fun heq => hfresh (List.mem_map.mpr ⟨d, hd, heq⟩)
    simp only [ne_eq, decide_not, Bool.not_eq_eq_eq_not, Bool.not_true, decide_eq_false_iff_not]
    omega

/-- Memories that agree on the blocks agree on the allocations. -/
theorem keeps {m m' : Mem} (h : Serves live ds)
    (hsame : ∀ d ∈ ds, ∀ x, d.addr ≤ x → x < d.stop → m'.byte x = m.byte x) :
    ∀ r ∈ live, ∀ x, r.1 ≤ x → x < r.1 + r.2 → m'.byte x = m.byte x := by
  intro r hr x hlo hhi
  obtain ⟨d, hd, haddr, _, hspan⟩ := h.block r hr
  have hstop : x < d.stop := by
    unfold Block.stop
    omega
  exact hsame d hd x (by omega) hstop

end Serves

variable {ι : Type} {mgr : Manager ι} {h : Heap ι} {g : Mem} {bs : List Block}
  {ls : ι → List Nat} {s : Client ι}

/-- The blocks have different addresses. -/
theorem Tiles.nodup {lo hi : Nat} (h : Tiles lo bs hi) (hspan : ∀ b ∈ bs, 2 ≤ b.span) :
    (bs.map Block.addr).Nodup := by
  induction bs generalizing lo with
  | nil => exact List.nodup_nil
  | cons b bs ih =>
      have hb := hspan b List.mem_cons_self
      rw [List.map_cons]
      refine List.nodup_cons.mpr ⟨fun hmem => ?_,
        ih h.2 fun d hd => hspan d (List.mem_cons_of_mem _ hd)⟩
      obtain ⟨d, hd, heq⟩ := List.mem_map.mp hmem
      have hle := (h.2.mem_bounds hd).1
      unfold Block.stop at hle
      omega

/-- No two live blocks have the same address. -/
theorem Rest.nodup (r : Rest mgr h g bs ls) : ((liveBlocks bs).map Block.addr).Nodup := by
  have hnodup := r.rep.phys.tiles.nodup fun b hb => (r.rep.phys.good b hb).fits.span_ge
  exact hnodup.sublist (List.filter_sublist.map _)

/-! ### The invariant -/

/-- The invariant of the runs of a program. -/
def Client.Inv (mgr : Manager ι) (s : Client ι) : Prop :=
  Fresh s.heap ∧ s.live = [] ∨
    ∃ bs ls, Rest mgr s.heap s.heap.mem bs ls ∧ Serves s.live (liveBlocks bs)

/-- A bound on the break is a bound on the addresses of the heap. -/
theorem BreakRange.addresses {brk limit : Nat} (h : BreakRange brk limit) :
    AddressRange brk limit :=
  ⟨h.pos, h.le, h.lt⟩

/-- The program before its first call. -/
theorem Client.inv_start {mem : Mem} {brk limit : Nat} (haddr : AddressRange brk limit) :
    Client.Inv mgr (Client.start mem brk limit) := by
  have hlt := haddr.lt
  unfold sbrkFailed at hlt
  exact Or.inl ⟨⟨rfl, rfl, rfl, fun _ => rfl, rfl, haddr.pos, haddr.le, hlt⟩, rfl⟩

/-- Freeing makes no block that is too large in a heap that is small as a whole. -/
theorem Client.Inv.freesFit (hinv : Client.Inv mgr s)
    (hsmall : s.heap.hi ≤ s.heap.lo + 2147483647) (ps : List Nat) : FreesFit s.heap ps := by
  rcases hinv with ⟨hf, _⟩ | ⟨bs, ls, r, _⟩
  · unfold FreesFit
    rw [hf.layout_eq]
    intro b hb
    cases hb
  · exact r.sizesFit_freed hsmall ps

/-- No call makes a block that is too large when the memory of the program is small. -/
theorem Client.Inv.sizesFit (hinv : Client.Inv mgr s)
    (hsmall : s.heap.limit ≤ s.heap.base + 2147483647) (a : Call) : s.SizesFit a := by
  have hhi : s.heap.hi ≤ s.heap.lo + 2147483647 := by
    rcases hinv with ⟨hf, _⟩ | ⟨bs, ls, r, _⟩
    · rw [hf.lo, hf.hi]
      omega
    · obtain ⟨hbrk, hbase, hle, _⟩ := r.bounded
      omega
  cases a with
  | malloc size env =>
      intro ⟨_, _, _, hroom⟩
      unfold chunkUnit at hroom
      rcases hinv with ⟨hf, _⟩ | ⟨bs, ls, r, _⟩
      · have hbase := hf.base
        rw [hf.layout_eq]
        intro b hb
        have hspan : b.span = growSpan (needUnits size) := by
          rw [List.mem_singleton.mp hb]
        unfold chunkUnit intMax
        omega
      · have hbase := r.bounded.base
        exact r.sizesFit_grown (by omega)
  | free p => exact hinv.freesFit hhi [p]
  | write x v => trivial

/-- Freeing `NULL` does nothing, and no allocation is at `NULL`. -/
theorem Client.Inv.filter_zero (hinv : Client.Inv mgr s) :
    (s.live.filter fun r => r.1 ≠ 0) = s.live := by
  refine List.filter_eq_self.mpr fun r hr => decide_eq_true ?_
  rcases hinv with ⟨_, hnil⟩ | ⟨bs, ls, _, hserves⟩
  · rw [hnil] at hr
    cases hr
  · obtain ⟨d, _, haddr, _⟩ := hserves.block r hr
    omega

section
variable [DecidableEq ι] {debug : Bool}

/-- `heapmgr_malloc` on a heap that serves the program. -/
theorem Rest.malloc_serves (hs : mgr.Sound) (debug : Bool) (r : Rest mgr h g bs ls)
    {live : List (Nat × Nat)} (hserves : Serves live (liveBlocks bs)) {env : Sbrk}
    {size : UInt64} (hsize : size.toNat ≤ maxSize) (hfit : GrowthFits h env size) :
    ∃ h' p bs' ls', heapmgrMalloc mgr debug h env size = .ok (h', p) ∧
      SameRange h h' ∧ Rest mgr h' h'.mem bs' ls' ∧
      Serves (if p = 0 then live else (p, size.toNat) :: live) (liveBlocks bs') ∧
      ∀ d ∈ liveBlocks bs, ∀ x, d.addr ≤ x → x < d.stop → h'.mem.byte x = g.byte x := by
  rcases r.malloc_spec hs debug env hsize hfit with
    heq | ⟨h', u, bs', ls', need, heq, hpos, hneed, hgain, hrange⟩
  · refine ⟨h, 0, bs, ls, heq, SameRange.refl h, r.refresh, ?_,
      fun d hd x hlo hhi => r.kept hd hlo hhi⟩
    rw [if_pos rfl]
    exact hserves
  · refine ⟨h', u.addr + 16, bs', ls', heq, hrange, hgain.rest, ?_, hgain.kept⟩
    have hspan := hgain.span
    rw [if_neg (by omega)]
    exact hserves.gain hgain.blocks hgain.rest.nodup hpos (by omega)

/-- The step lemma for `heapmgr_malloc`. It answers `NULL`, or a block that serves the new
allocation. -/
theorem Client.Inv.malloc (hs : mgr.Sound) (debug : Bool) (hinv : Client.Inv mgr s)
    {size : UInt64} {env : Sbrk} (hlegal : s.Legal (.malloc size env))
    (hfit : GrowthFits s.heap env size) :
    (∃ s' out, clientCall mgr debug s (.malloc size env) = .ok (s', out) ∧
        Client.Inv mgr s' ∧ SameRange s.heap s'.heap ∧ s.Keeps s') ∨
      clientCall mgr debug s (.malloc size env) = .error .exited ∧
        s.Exits (.malloc size env) := by
  rw [clientCall]
  rcases hinv with ⟨hf, hnil⟩ | ⟨bs, ls, r, hserves⟩
  -- Before the first allocation there is nothing to keep.
  · have hkeeps : ∀ s', s.Keeps s' := by
      intro s' r hr
      rw [hnil] at hr
      cases hr
    by_cases hzero : size = 0
    · rw [heapmgrMalloc, if_pos hzero]
      exact Or.inl ⟨_, _, rfl, Or.inl ⟨hf, hnil⟩, SameRange.refl _, hkeeps _⟩
    · rcases hf.malloc_cases hs debug env hzero with
        ⟨heq, hquery⟩ | ⟨h, r, -, hrange, hbrk, hlayout, heq⟩
      -- The bootstrap exits.
      · rw [heq]
        exact Or.inr ⟨rfl, hf.booted, size, env, rfl, hquery⟩
      · have hserves : Serves s.live (liveBlocks []) := by
          rw [hnil]
          exact ⟨List.nodup_nil, fun _ hr => (by cases hr), fun _ hd => (by cases hd)⟩
        obtain ⟨h', p, bs', ls', hok, hrange', r', hserves', _⟩ :=
          r.malloc_serves hs debug hserves hlegal (hfit.congr hrange hbrk hlayout)
        rw [heq, hok]
        exact Or.inl ⟨_, _, rfl, Or.inr ⟨bs', ls', r', hserves'⟩, hrange.trans hrange', hkeeps _⟩
  · obtain ⟨h', p, bs', ls', hok, hrange, r', hserves', hkept⟩ :=
      r.malloc_serves hs debug hserves hlegal hfit
    rw [hok]
    exact Or.inl ⟨_, _, rfl, Or.inr ⟨bs', ls', r', hserves'⟩, hrange,
      fun r hr _ => hserves.keeps hkept r hr⟩

/-- The step lemma for `heapmgr_free`. The contract says that the pointer is one of the program, so
there is a block for it. -/
theorem Client.Inv.free (hs : mgr.Sound) (debug : Bool) (hinv : Client.Inv mgr s) {p : Nat}
    (hlegal : s.Legal (.free p)) (hfit : FreesFit s.heap [p]) :
    ∃ s' out, clientCall mgr debug s (.free p) = .ok (s', out) ∧ Client.Inv mgr s' ∧
      SameRange s.heap s'.heap ∧ s.Keeps s' := by
  rw [clientCall]
  rcases hlegal with rfl | ⟨q, hq, rfl⟩
  · have heq : heapmgrFree mgr debug s.heap 0 = .ok s.heap := rfl
    rw [heq, hinv.filter_zero]
    exact ⟨_, _, rfl, hinv, SameRange.refl _, fun _ _ _ _ _ _ => rfl⟩
  · rcases hinv with ⟨_, hnil⟩ | ⟨bs, ls, r, hserves⟩
    · rw [hnil] at hq
      cases hq
    -- the address the client gives back is the payload of a used block
    · obtain ⟨u, hu, haddr, _⟩ := hserves.block q hq
      rw [haddr] at hfit
      obtain ⟨h', bs', ls', hok, hrange, r', hperm, hkept⟩ := r.free_spec hs debug hu hfit
      have hserves' := hserves.lose hperm r.nodup
      rw [haddr, hok]
      exact ⟨_, _, rfl, Or.inr ⟨bs', ls', r', hserves'⟩, hrange,
        fun r _ hr => hserves'.keeps hkept r hr⟩

/-- The step lemma for a write. -/
theorem Client.Inv.write (debug : Bool) (hinv : Client.Inv mgr s) {x : Nat} {v : UInt8}
    (hlegal : s.Legal (.write x v)) :
    ∃ s' out, clientCall mgr debug s (.write x v) = .ok (s', out) ∧ Client.Inv mgr s' ∧
      SameRange s.heap s'.heap := by
  rw [clientCall]
  obtain ⟨q, hq, hlo, hhi⟩ := hlegal
  rcases hinv with ⟨_, hnil⟩ | ⟨bs, ls, r, hserves⟩
  · rw [hnil] at hq
    cases hq
  · obtain ⟨u, hu, haddr, _, hspan⟩ := hserves.block q hq
    -- The write ends before the footer of the block.
    have hstop : x + 16 < u.stop := by
      unfold Block.stop
      omega
    have r' := r.write_spec hu (m := ⟨Function.update s.heap.mem.byte x v⟩) (by omega) hstop
      fun y hy => Function.update_of_ne hy _ _
    exact ⟨_, _, rfl, Or.inr ⟨bs, ls, r', hserves⟩, rfl, rfl⟩

/-- The step lemma. A legal call that makes no block too large returns, keeps the invariant, and
does not change what the program has in its other allocations. -/
theorem Client.Inv.call (hs : mgr.Sound) (debug : Bool) (hinv : Client.Inv mgr s) {a : Call}
    (hlegal : s.Legal a) (hfit : s.SizesFit a) :
    (∃ s' out, clientCall mgr debug s a = .ok (s', out) ∧ Client.Inv mgr s' ∧
        SameRange s.heap s'.heap ∧ ((∀ x v, a ≠ .write x v) → s.Keeps s')) ∨
      clientCall mgr debug s a = .error .exited ∧ s.Exits a := by
  cases a with
  | malloc size env =>
      rcases hinv.malloc hs debug hlegal hfit with ⟨s', out, hok, hinv', hrange, hkeeps⟩ | hexit
      · exact Or.inl ⟨s', out, hok, hinv', hrange, fun _ => hkeeps⟩
      · exact Or.inr hexit
  | free p =>
      obtain ⟨s', out, hok, hinv', hrange, hkeeps⟩ := hinv.free hs debug hlegal hfit
      exact Or.inl ⟨s', out, hok, hinv', hrange, fun _ => hkeeps⟩
  | write x v =>
      obtain ⟨s', out, hok, hinv', hrange⟩ := hinv.write debug hlegal
      exact Or.inl ⟨s', out, hok, hinv', hrange, fun hne => absurd rfl (hne x v)⟩

/-- A step of the program is a legal call that returns. -/
theorem clientStep_eq_some {s' : Client ι} {a : Call} {out : List Nat}
    (hstep : clientStep mgr debug s a = some (s', out)) :
    s.Legal a ∧ clientCall mgr debug s a = .ok (s', out) := by
  unfold clientStep at hstep
  split at hstep
  · rename_i hlegal
    refine ⟨hlegal, ?_⟩
    cases hcall : clientCall mgr debug s a with
    | error e =>
        rw [hcall] at hstep
        cases hstep
    | ok r =>
        rw [hcall] at hstep
        rw [Option.some.inj hstep]
  · cases hstep

/-- A step keeps the invariant and the bounds of the break. -/
theorem Client.Inv.step (hs : mgr.Sound) (hinv : Client.Inv mgr s) {a : Call}
    (hfit : s.SizesFit a) {s' : Client ι} {out : List Nat}
    (hstep : clientStep mgr debug s a = some (s', out)) :
    Client.Inv mgr s' ∧ SameRange s.heap s'.heap := by
  obtain ⟨hlegal, hcall⟩ := clientStep_eq_some hstep
  rcases hinv.call hs debug hlegal hfit with ⟨s'', out', hok, hinv', hrange, _⟩ | ⟨hexit, _⟩
  · rw [hcall] at hok
    cases hok
    exact ⟨hinv', hrange⟩
  · rw [hcall] at hexit
    cases hexit

/-- The run lemma. -/
theorem Client.inv_run (hs : mgr.Sound) {mem : Mem} {brk limit : Nat}
    (haddr : AddressRange brk limit) {calls : List Call} {out : List Nat}
    (hfit : CallsFit mgr debug (Client.start mem brk limit) calls)
    (hrun : run (clientStep mgr debug) (Client.start mem brk limit) calls = some (s, out)) :
    Client.Inv mgr s :=
  run_induction_of_steps (I := fun s _ => Client.Inv mgr s) (Client.inv_start haddr)
    (fun _ _ _ _ _ hinv hfit hstep => (hinv.step hs hfit hstep).1) calls hfit s out hrun

/-- The run lemma for a heap that is small as a whole. No further call makes a block too large. -/
theorem Client.inv_run_of_breakRange (hs : mgr.Sound) {mem : Mem} {brk limit : Nat}
    (hbreak : BreakRange brk limit) {calls : List Call} {out : List Nat}
    (hrun : run (clientStep mgr debug) (Client.start mem brk limit) calls = some (s, out)) :
    Client.Inv mgr s ∧ ∀ a, s.SizesFit a := by
  have hinv := run_invariant (I := fun s => Client.Inv mgr s ∧
    s.heap.limit ≤ s.heap.base + 2147483647)
    ⟨Client.inv_start hbreak.addresses, hbreak.small⟩ ?_ hrun
  · exact ⟨hinv.1, hinv.1.sizesFit hinv.2⟩
  · intro s a s' out ⟨hinv, hsmall⟩ hstep
    obtain ⟨hinv', hrange⟩ := hinv.step hs (hinv.sizesFit hsmall a) hstep
    rw [hrange.base, hrange.limit]
    exact ⟨hinv', hsmall⟩

/-- Under a bound on the break every call of a legal run fits. The break never goes behind the
limit. -/
theorem callsFit_of_breakRange (hs : mgr.Sound) {mem : Mem} {brk limit : Nat}
    (hbreak : BreakRange brk limit) (calls : List Call) :
    CallsFit mgr debug (Client.start mem brk limit) calls := by
  intro n s a ⟨out, hrun⟩ _
  exact (Client.inv_run_of_breakRange hs hbreak hrun).2 a

end

end SysProg.Memory
