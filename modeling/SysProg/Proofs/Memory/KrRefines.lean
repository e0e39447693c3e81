import SysProg.Memory.NextFit
import SysProg.Proofs.Memory.Implements
import SysProg.Proofs.Memory.KrMalloc

/-!
# `SysProg.Proofs.Memory.KrRefines`: `heapmgrkr.c` is a next-fit manager

`Sim` relates a state of `heapmgrkr.c` to one of `NextFit`: the rover is `freep`. Every call keeps
it, returns the same pointer and leaves the blocks in use alone.
-/

set_option autoImplicit false

namespace SysProg.Memory.Heapmgrkr

open SysProg.Lib

/-- The state is the one of `NextFit`. Before the first call there is no list. -/
structure Sim (s : NextFit) (h : State) : Prop where
  base : h.base = s.base
  limit : h.limit = s.limit
  lo : s.arena.lo = h.bottom
  hi : s.arena.hi = h.brk
  pos : 0 < h.base
  below : h.base + 16 ≤ h.bottom
  le : h.brk ≤ h.limit
  lt : h.limit < sbrkFailed
  small : h.limit ≤ h.bottom + 16 * 4294967295
  fresh : h.freep = 0 → s.arena.pieces = [] ∧ s.rover = s.base
  rep : h.freep ≠ 0 → Rep h s.arena.pieces ∧ h.freep = s.rover ∧
    h.freep ∈ ringNodes h.base s.arena.pieces

section
variable {s : NextFit} {h : State} {p u : Piece} {ps pre suf : List Piece} {n : Nat}

/-- The empty list of the first call. It consists of `base` alone, and `NextFit` has no block
either. -/
theorem Sim.initList (sim : Sim s h) (hfreep : h.freep = 0) :
    Sim s (initList h) ∧ (initList h).freep ≠ 0 ∧
      Within (fun x => ¬ InUse s.arena.pieces x) h.mem (initList h).mem := by
  obtain ⟨hnil, hrover⟩ := sim.fresh hfreep
  have ht := s.arena.tiled
  have hpos := sim.pos
  have hle := sim.le
  have hlt := sim.lt
  have hbelow := sim.below
  have hsmall := sim.small
  rw [hnil] at ht
  have hempty : h.bottom = h.brk := sim.lo.symm.trans (ht.trans sim.hi)
  have hbound : h.brk < 2 ^ 64 := by
    unfold sbrkFailed at hlt
    omega
  have hptr : getPtr (setSize (setPtr h.mem h.base h.base) h.base 0) h.base = h.base :=
    (getPtr_setSize (Or.inl rfl)).trans (headers.next_setNext _ _ (by omega))
  have hsize : getSize (setSize (setPtr h.mem h.base h.base) h.base 0) h.base = 0 :=
    headers.span_setSpan _ _ (Nat.zero_le _)
  have hne : (Heapmgrkr.initList h).freep ≠ 0 := by
    show h.base ≠ 0
    omega
  refine ⟨?_, hne, fun x hx => absurd (fun ⟨q, hq, _⟩ => ?_) hx⟩
  · refine
      { base := sim.base, limit := sim.limit, lo := sim.lo, hi := sim.hi, pos := hpos
        below := hbelow, le := hle, lt := hlt, small := hsmall
        fresh := fun hzero => absurd hzero hne
        rep := fun _ => ⟨?_, sim.base.trans hrover.symm, mem_ringNodes.mpr (Or.inl rfl)⟩ }
    rw [hnil]
    exact
      { laid := ⟨hempty, fun q hq => by cases hq⟩
        ring := ⟨rfl, h.base, congrArg some hptr, rfl⟩
        size := hsize
        pos := hpos
        below := hbelow
        small := by
          show h.brk ≤ h.bottom + 16 * 4294967295
          omega
        lt := hbound }
  · rw [hnil] at hq
    cases hq

/-- A block that fits is taken. The answer is that of `NextFit`, and no byte of a block in use is
written. -/
theorem Sim.take (sim : Sim s h) (hfreep : h.freep ≠ 0) (hps : s.arena.pieces = pre ++ p :: suf)
    (hp : p.free = true) (hn : 0 < n) (hfit : 16 * n ≤ p.len) (hpos : 0 < 16 * n) :
    ∃ h', take h (lastStart h.base (frees pre)) p.start n = (h', (s.take p (16 * n) hpos).2) ∧
      Sim (s.take p (16 * n) hpos).1 h' ∧
      Within (fun x => ¬ InUse s.arena.pieces x) h.mem h'.mem := by
  obtain ⟨r, -, -⟩ := sim.rep hfreep
  rw [hps] at r
  obtain ⟨h', hok, hrep, hrover, hedits⟩ := r.take hp hn hfit
  have hplace := r.place
  have hcarve := r.laid.tiled.carve_split (n := 16 * n) hp
  rw [← hps] at hrep hedits
  have hlast := lastFreeBelow_start (z := s.base) hps
  refine ⟨h', hok, ?_, hedits.within⟩
  exact
    { base := hedits.base.trans sim.base
      limit := hedits.limit.trans sim.limit
      lo := sim.lo.trans hedits.bottom.symm
      hi := sim.hi.trans hedits.brk.symm
      pos := by rw [hedits.base]; exact sim.pos
      below := by rw [hedits.base, hedits.bottom]; exact sim.below
      le := by rw [hedits.brk, hedits.limit]; exact sim.le
      lt := by rw [hedits.limit]; exact sim.lt
      small := by rw [hedits.bottom, hedits.limit]; exact sim.small
      fresh := fun hzero => by
        have hbase := sim.pos
        rw [hrover] at hzero
        omega
      rep := fun _ => ⟨hrep, by
        rw [hrover, sim.base]
        exact hlast.symm, by
        show h'.freep ∈ ringNodes h'.base (carve p.start (16 * n) s.arena.pieces)
        rw [hrover, hedits.base, hps, hcarve, List.append_assoc]
        exact ringNodes_left hplace.1⟩ }

/-- The new memory is a block in use. This is what `morecore` hands to `heapmgr_free`. -/
theorem Rep.snoc (r : Rep h ps) (hn : 0 < n) (hmax : n ≤ 4294967295)
    (hsmall : h.brk + 16 * n ≤ h.bottom + 16 * 4294967295) (hlt : h.brk + 16 * n < 2 ^ 64) :
    Rep { h with brk := h.brk + 16 * n, mem := setSize h.mem h.brk n }
      (ps ++ [⟨h.brk, 16 * n, false⟩]) := by
  have hbelow := r.below
  have hle := r.laid.tiled.le
  -- The new header is behind all nodes.
  have happ : ∀ x ∈ ringNodes h.base ps, headers.Apart h.brk x ∧ x ≠ h.brk := by
    intro x hx
    unfold HeaderLayout.Apart
    rw [headers_width]
    rcases mem_ringNodes.mp hx with rfl | ⟨q, hq, -, rfl⟩
    · omega
    · have hbounds := r.bounds hq
      omega
  have hbase := happ h.base (mem_ringNodes.mpr (Or.inl rfl))
  refine
    { laid := r.laid.snoc hn hmax
      ring := ?_
      size := (HeaderLayout.span_setSpan_apart hbase.1 hbase.2).trans r.size
      pos := r.pos
      below := hbelow
      small := hsmall
      lt := hlt }
  unfold FreeCycle
  rw [ringNodes_append_cons_of_used rfl, frees_nil, List.map_nil, List.append_nil]
  exact FreeCycle.congr r.ring fun x hx => getPtr_setSize (happ x hx).1

/-- `sbrk` grants the memory when there is room. -/
theorem sbrk_granted {k : Nat} (hbottom : h.bottom ≤ h.brk + k) (hroom : h.brk + k ≤ h.limit) :
    h.sbrk true (k : Nat) = (h.brk, { h with brk := h.brk + k }) := by
  have hcond : true = true ∧ (h.bottom : Int) ≤ h.brk + (k : Nat) ∧
      h.brk + (k : Nat) ≤ (h.limit : Int) := ⟨rfl, by omega, by omega⟩
  unfold State.sbrk
  rw [if_pos hcond]
  rfl

/-- The units that `morecore` asks for, in bytes. -/
theorem morecore_units (hn : n ≤ 134217727) :
    (if n < nalloc then nalloc else n) = max n 1024 ∧
      i32 ((max n 1024 : Nat) * chunkUnit) = (16 * max n 1024 : Nat) ∧
      NextFit.grow (16 * n) = 16 * max n 1024 := by
  refine ⟨?_, ?_, ?_⟩
  · unfold nalloc
    split
    · omega
    · omega
  · unfold chunkUnit
    rw [i32_eq (by omega) (by omega)]
    omega
  · unfold NextFit.grow chunkUnit
    omega

/-- `morecore` when `sbrk` grants the memory. -/
theorem morecore_granted {k : Nat} (hk : k = max n 1024) (hn : n ≤ 134217727)
    (hbottom : h.bottom ≤ h.brk) (hbrk : h.brk ≠ sbrkFailed) (hlt : h.brk + 16 < 2 ^ 64)
    (hroom : h.brk + 16 * k ≤ h.limit) :
    morecore h true n = (heapmgrFree { h with brk := h.brk + 16 * k, mem := setSize h.mem h.brk k }
      (h.brk + 16)).map fun h => (h, h.freep) := by
  obtain ⟨hunits, hbytes, -⟩ := morecore_units hn
  rw [← hk] at hunits hbytes
  have hsbrk := sbrk_granted (h := h) (k := 16 * k) (by omega) hroom
  have hheader : headerAdd h.brk 1 = h.brk + 16 := by
    refine ptrAdd_eq ?_ hlt
    unfold chunkUnit
    omega
  unfold morecore
  simp only [hunits, hbytes, hsbrk, if_neg hbrk, hheader, State.setMem]

/-- The heap grows when `sbrk` grants the memory. The new block is freed, and so it is merged with a
free block in front of it. -/
theorem Sim.grow (sim : Sim s h) (hfreep : h.freep ≠ 0) (hn : n ≤ 134217727)
    (hroom : s.arena.hi + NextFit.grow (16 * n) ≤ s.limit) :
    ∃ h', morecore h true n = .ok (h', h'.freep) ∧ h'.freep ≠ 0 ∧ Sim (s.extend (16 * n)) h' ∧
      Within (fun x => ¬ InUse s.arena.pieces x) h.mem h'.mem := by
  obtain ⟨r, hrover, -⟩ := sim.rep hfreep
  obtain ⟨-, -, hgrow⟩ := morecore_units hn
  obtain ⟨k, hk⟩ : ∃ k, k = max n 1024 := ⟨_, rfl⟩
  rw [← hk] at hgrow
  have hkpos : 0 < k := by omega
  have hkmax : k ≤ 4294967295 := by omega
  have hhi := sim.hi
  have hlimit := sim.limit
  have hlt := sim.lt
  have hle := sim.le
  have hsmall := sim.small
  have hbelow := sim.below
  have hbottom := r.laid.tiled.le
  have hroom' : h.brk + 16 * k ≤ h.limit := by omega
  have hbound : h.brk ≠ sbrkFailed ∧ h.brk + 16 * k < 2 ^ 64 := by
    unfold sbrkFailed at hlt ⊢
    omega
  have hrep := r.snoc hkpos hkmax (by omega) hbound.2
  have hmerged : Merged (s.arena.pieces ++ [⟨h.brk, 16 * k, false⟩]) := by
    refine merged_split.mpr ⟨s.arena.merged, List.isChain_nil, fun q _ hboth => ?_, fun q hq => ?_⟩
    · exact Bool.false_ne_true hboth.2
    · cases hq
  have hnode : h.freep ∈ ringNodes h.base (s.arena.pieces ++ [⟨h.brk, 16 * k, false⟩]) :=
    ringNodes_left (sim.rep hfreep).2.2
  obtain ⟨h', hok, hrep', hrover', hnode', hedits⟩ := hrep.heapmgrFree hmerged rfl hnode
  have hplace := hrep.place
  have hne : h'.freep ≠ 0 := by
    have hpos := r.pos
    have hlow : h.base ≤ lastStart h.base (frees s.arena.pieces) := hplace.2.2.1
    rw [hrover']
    show lastStart h.base (frees s.arena.pieces) ≠ 0
    omega
  have hpieces : (s.extend (16 * n)).arena.pieces
      = merge (s.arena.pieces ++ [{ (⟨h.brk, 16 * k, false⟩ : Piece) with free := true }]) := by
    rw [← hhi, ← hgrow]
    rfl
  refine ⟨h', ?_, hne, ?_, ?_⟩
  · rw [morecore_granted hk hn hbottom hbound.1 (by omega) hroom', hok]
    rfl
  · exact
      { base := hedits.base.trans sim.base
        limit := hedits.limit.trans sim.limit
        lo := sim.lo.trans hedits.bottom.symm
        hi := by
          rw [hedits.brk]
          show s.arena.hi + NextFit.grow (16 * n) = h.brk + 16 * k
          rw [hgrow, hhi]
        pos := by rw [hedits.base]; exact sim.pos
        below := by rw [hedits.base, hedits.bottom]; exact sim.below
        le := by rw [hedits.brk, hedits.limit]; exact hroom'
        lt := by rw [hedits.limit]; exact sim.lt
        small := by rw [hedits.bottom, hedits.limit]; exact sim.small
        fresh := fun hzero => absurd hzero hne
        rep := fun _ => by
          rw [hpieces]
          refine ⟨hrep', ?_, ?_⟩
          · rw [hrover']
            show lastStart h.base (frees s.arena.pieces) = s.before s.arena.hi
            rw [NextFit.before, lastFreeBelow_hi, sim.base]
          · rw [hedits.base]
            exact hnode' }
  · refine Within.trans ?_ (hedits.within.mono fun x hx => ?_)
    · exact (setSize_within h.mem h.brk k).mono fun x hx =>
        s.arena.tiled.not_inUse_of_le (by rw [hhi]; exact hx.1)
    · rcases hx with hx | hx
      · exact r.node_not_inUse hplace.1 hx
      · exact s.arena.tiled.not_inUse_of_le (by rw [hhi]; exact hx.1)

/-- `morecore` when `sbrk` does not. -/
theorem morecore_fail {granted : Bool} {k : Nat} (hk : k = max n 1024) (hn : n ≤ 134217727)
    (hroom : ¬ (granted = true ∧ h.brk + 16 * k ≤ h.limit)) :
    morecore h granted n = .ok (h, 0) := by
  obtain ⟨hunits, hbytes, -⟩ := morecore_units hn
  rw [← hk] at hunits hbytes
  have hsbrk : h.sbrk granted (16 * k : Nat) = (sbrkFailed, h) :=
    if_neg fun hall => hroom ⟨hall.1, by omega⟩
  unfold morecore
  simp only [hunits, hbytes, hsbrk, if_true]

/-- The loop of `heapmgr_malloc`, from the rover on. It goes around the ring once, and on from the
new block when the heap has grown. -/
theorem Sim.mallocLoop (sim : Sim s h) (hfreep : h.freep ≠ 0) (granted : Bool) (hn : 0 < n)
    (hmax : n ≤ 134217727) (hpos : 0 < 16 * n) :
    ∃ h', mallocLoop granted n (2 ^ 64) h h.freep = .ok (h', (s.alloc granted (16 * n) hpos).2) ∧
      Sim (s.alloc granted (16 * n) hpos).1 h' ∧
      Within (fun x => ¬ InUse s.arena.pieces x) h.mem h'.mem := by
  obtain ⟨r, hrover, hnode⟩ := sim.rep hfreep
  have hlen := r.length_le
  have hlt := r.lt
  have hfuel : (ringNodes h.base s.arena.pieces).length ≤ 2 ^ 64 := by omega
  unfold NextFit.alloc
  rw [← hrover]
  rcases r.mallocLoop hnode hn granted hfuel with
    ⟨pre, p, suf, hps, hp, hfits, hfit, hok⟩ | ⟨hnone, hok⟩
  · obtain ⟨h', htake, sim', hw⟩ := sim.take hfreep hps hp hn hfits hpos
    rw [hfit, hok, htake]
    exact ⟨h', rfl, sim', hw⟩
  · rw [Arena.nextFit_eq_none hnone, hok]
    by_cases hroom : granted = true ∧ s.arena.hi + NextFit.grow (16 * n) ≤ s.limit
    · obtain ⟨rfl, hroom⟩ := hroom
      obtain ⟨h₁, hmore, hne, sim₁, hw₁⟩ := sim.grow hfreep hmax hroom
      obtain ⟨r₁, hrover₁, hnode₁⟩ := sim₁.rep hne
      have hlen₁ := r₁.length_le
      have hlt₁ := r₁.lt
      have hfuel₁ : (ringNodes h₁.base (s.extend (16 * n)).arena.pieces).length
          ≤ 2 ^ 64 - (ringNodes h.base s.arena.pieces).length := by omega
      have hloop := r₁.mallocLoop hnode₁ hn true hfuel₁
      rw [hmore]
      rcases hloop with ⟨pre, p, suf, hps, hp, hfits, hfit, hok₁⟩ | ⟨hnone₁, -⟩
      · obtain ⟨h', htake, sim', hw⟩ := sim₁.take hne hps hp hn hfits hpos
        rw [hrover₁] at hfit
        have hused : ∀ x, InUse (s.extend (16 * n)).arena.pieces x ↔ InUse s.arena.pieces x := by
          intro x
          unfold InUse
          rw [show used (s.extend (16 * n)).arena.pieces = used s.arena.pieces from
            used_extend _ _ _]
        refine ⟨h', ?_, ?_, hw₁.trans (hw.mono fun x hx => fun hin => hx ((hused x).mpr hin))⟩
        · rw [if_pos ⟨rfl, hroom⟩, hfit]
          show (if h₁.freep = 0 then _ else Heapmgrkr.mallocLoop true n _ h₁ h₁.freep) = _
          rw [if_neg hne, hok₁, htake]
        · rw [if_pos ⟨rfl, hroom⟩, hfit]
          exact sim'
      · -- The new memory alone has room.
        have hgrow : 16 * n ≤ NextFit.grow (16 * n) := le_max_left _ _
        rcases extend_cases (NextFit.grow (16 * n)) s.arena.hi s.arena.merged with
          ⟨xs, e, -, he, heq⟩ | ⟨-, heq⟩
        · refine absurd ?_ (hnone₁ (e.join ⟨s.arena.hi, NextFit.grow (16 * n), true⟩) ?_ he)
          · show 16 * n ≤ e.len + NextFit.grow (16 * n)
            omega
          · show _ ∈ SysProg.Lib.extend _ _ _
            rw [heq]
            exact List.mem_append_right _ List.mem_cons_self
        · refine absurd hgrow (hnone₁ ⟨s.arena.hi, NextFit.grow (16 * n), true⟩ ?_ rfl)
          show _ ∈ SysProg.Lib.extend _ _ _
          rw [heq]
          exact List.mem_append_right _ List.mem_cons_self
    · -- The answer is `NULL`.
      have hfail : ¬ (granted = true ∧ h.brk + 16 * max n 1024 ≤ h.limit) := by
        intro ⟨hgranted, hle⟩
        refine hroom ⟨hgranted, ?_⟩
        rw [(morecore_units hmax).2.2, sim.hi, ← sim.limit]
        exact hle
      refine ⟨h, ?_, ?_, Within.refl _ _⟩
      · rw [if_neg hroom, morecore_fail rfl hmax hfail]
        rfl
      · rw [if_neg hroom]
        exact sim

/-- The units of a size. -/
theorem unitsFor_eq {size : Nat} (hsize : size ≤ intMax / chunkUnit * chunkUnit - chunkUnit) :
    0 < unitsFor size ∧ unitsFor size ≤ 134217727 ∧ blockLen size = 16 * unitsFor size := by
  unfold intMax chunkUnit at hsize
  have hexact : unitsFor size = (size + 15) / 16 + 1 := by
    unfold unitsFor u32 chunkUnit
    omega
  rw [hexact]
  unfold blockLen chunkUnit
  refine ⟨by omega, by omega, ?_⟩
  rw [Nat.add_comm 1]

/-- `heapmgr_malloc` answers what `NextFit` answers. It writes into no block that is in use. -/
theorem Sim.malloc (sim : Sim s h) (env : Sbrk) {size : UInt64}
    (hsize : size.toNat ≤ intMax / chunkUnit * chunkUnit - chunkUnit) :
    ∃ s' h' p, NextFit.malloc s env size = .ok (s', p) ∧ heapmgrMalloc h env size = .ok (h', p) ∧
      Sim s' h' ∧ Within (fun x => ¬ InUse s.arena.pieces x) h.mem h'.mem := by
  obtain ⟨hn, hmax, hlen⟩ := unitsFor_eq hsize
  -- The state with a list.
  have hinit : ∃ h₁, (if h.freep = 0 then Heapmgrkr.initList h else h) = h₁ ∧ Sim s h₁ ∧
      h₁.freep ≠ 0 ∧ Within (fun x => ¬ InUse s.arena.pieces x) h.mem h₁.mem := by
    by_cases hfreep : h.freep = 0
    · obtain ⟨sim₁, hne, hw⟩ := sim.initList hfreep
      exact ⟨_, if_pos hfreep, sim₁, hne, hw⟩
    · exact ⟨h, if_neg hfreep, sim, hfreep, Within.refl _ _⟩
  obtain ⟨h₁, hh₁, sim₁, hne, hw₁⟩ := hinit
  have hpos : 0 < 16 * unitsFor size.toNat := by omega
  obtain ⟨h', hok, sim', hw⟩ := sim₁.mallocLoop hne env.extend hn hmax hpos
  have halloc : s.alloc env.extend (blockLen size.toNat) (blockLen_pos _)
      = s.alloc env.extend (16 * unitsFor size.toNat) hpos := by
    simp only [hlen]
  generalize s.alloc env.extend (16 * unitsFor size.toNat) hpos = q at hok sim' halloc
  refine ⟨q.1, h', q.2, ?_, ?_, sim', hw₁.trans hw⟩
  · unfold NextFit.malloc
    rw [halloc]
  · unfold heapmgrMalloc
    simp only [hh₁]
    exact hok

/-- `heapmgr_free` on a block in use. The rover comes to the node in front of it, as in `NextFit`.
-/
theorem Sim.free (sim : Sim s h) (hu : u ∈ s.arena.pieces) (hused : u.free = false) :
    ∃ h', heapmgrFree h (u.start + 16) = .ok h' ∧
      Sim { s with arena := s.arena.release u.start, rover := s.before u.start } h' ∧
      Within (fun x => ¬ InUse (s.arena.release u.start).pieces x) h.mem h'.mem := by
  have hfreep : h.freep ≠ 0 := by
    intro hzero
    rw [(sim.fresh hzero).1] at hu
    cases hu
  obtain ⟨r, -, hnode⟩ := sim.rep hfreep
  obtain ⟨pre, suf, hps⟩ := List.append_of_mem hu
  have hm := s.arena.merged
  have ht := s.arena.tiled
  rw [hps] at r hm ht hnode
  obtain ⟨h', hok, hrep, hrover, hnode', hedits⟩ := r.heapmgrFree hm hused hnode
  have hplace := r.place
  have hrelease : (s.arena.release u.start).pieces
      = merge (pre ++ { u with free := true } :: suf) := by
    show release u.start s.arena.pieces = _
    rw [hps]
    exact ht.release_split
  have hne : h'.freep ≠ 0 := by
    have hpos := r.pos
    rw [hrover]
    omega
  rw [← hrelease] at hrep hnode'
  refine ⟨h', hok, ?_, hedits.within.mono fun x hx => ?_⟩
  · exact
      { base := hedits.base.trans sim.base
        limit := hedits.limit.trans sim.limit
        lo := sim.lo.trans hedits.bottom.symm
        hi := sim.hi.trans hedits.brk.symm
        pos := by rw [hedits.base]; exact sim.pos
        below := by rw [hedits.base, hedits.bottom]; exact sim.below
        le := by rw [hedits.brk, hedits.limit]; exact sim.le
        lt := by rw [hedits.limit]; exact sim.lt
        small := by rw [hedits.bottom, hedits.limit]; exact sim.small
        fresh := fun hzero => absurd hzero hne
        rep := fun _ => ⟨hrep, by
          rw [hrover, sim.base]
          exact (lastFreeBelow_start hps).symm, by
          rw [hedits.base]
          exact hnode'⟩ }
  · -- The blocks in use are the others.
    intro hin
    change InUse (release u.start s.arena.pieces) x at hin
    rw [hps] at hin
    obtain ⟨hold, hout⟩ := ht.inUse_release hin
    rcases hx with hx | hx
    · exact r.node_not_inUse (ringNodes_left hplace.1) hx hold
    · have hbounds := r.bounds (hps ▸ hu)
      unfold unitAt at hx
      omega

/-- A write to the payload of a block in use leaves the headers alone. So the state is still that of
`NextFit`. -/
theorem Sim.write (sim : Sim s h) {x : Nat} (hu : u ∈ s.arena.pieces) (hlo : u.start + 16 ≤ x)
    (hhi : x < u.stop) (v : UInt8) : Sim s (h.setMem ⟨Function.update h.mem.byte x v⟩) := by
  refine
    { base := sim.base, limit := sim.limit, lo := sim.lo, hi := sim.hi, pos := sim.pos
      below := sim.below, le := sim.le, lt := sim.lt, small := sim.small, fresh := sim.fresh
      rep := fun hfreep => ?_ }
  obtain ⟨r, hrover, hnode⟩ := sim.rep hfreep
  have hubounds := r.bounds hu
  have hpiece : ∀ q ∈ s.arena.pieces, ∀ y, q.start ≤ y → y < q.start + 16 →
      Function.update h.mem.byte x v y = h.mem.byte y := by
    intro q hq y hylo hyhi
    refine Function.update_of_ne ?_ _ _
    have hqbounds := r.bounds hq
    rcases s.arena.tiled.apart hq hu with rfl | hle | hle
    · omega
    · omega
    · omega
  have hbase : ∀ y, h.base ≤ y → y < h.base + 16 →
      Function.update h.mem.byte x v y = h.mem.byte y :=
    fun y hylo hyhi => Function.update_of_ne (by omega) _ _
  have hring : FreeCycle headers h.base ⟨Function.update h.mem.byte x v⟩ s.arena.pieces := by
    refine FreeCycle.congr r.ring fun c hc => ?_
    rcases mem_ringNodes.mp hc with rfl | ⟨q, hq, -, rfl⟩
    · exact headers.next_congr hbase
    · exact headers.next_congr (hpiece q hq)
  exact ⟨⟨r.laid.congr fun q hq => headers.span_congr (hpiece q hq), hring,
    (headers.span_congr hbase).trans r.size, r.pos, r.below, r.small, r.lt⟩, hrover, hnode⟩

/-- `heapmgrkr.c` does what `NextFit` does. Each operation has its lemma above. -/
theorem implements_nextFit :
    Implements allocator NextFit.allocator NextFit.arena State.mem Sim where
  maxSize := rfl
  freesNull := rfl
  malloc := by
    intro s h env size sim hsize
    obtain ⟨s', h', p, hs, hh, sim', hw⟩ := sim.malloc env hsize
    refine Or.inr ⟨s', h', p, hs, hh, sim', hw, fun {live} hlive => ?_⟩
    unfold NextFit.malloc at hs
    rw [Except.ok.injEq, Prod.ext_iff] at hs
    obtain ⟨rfl, rfl⟩ := hs
    exact NextFit.alloc_blocks hlive
  free := by
    intro s h live r sim hlive hr
    have hheader := hlive.header r hr
    have hstart : (blockOf r).start + 16 = r.1 := by
      show r.1 - chunkUnit + 16 = r.1
      unfold chunkUnit at hheader ⊢
      omega
    obtain ⟨h', hok, sim', hw⟩ := sim.free (hlive.mem hr) rfl
    rw [hstart] at hok
    exact ⟨_, h', rfl, hok, sim', hw, rfl⟩
  free_null := fun hnull _ => by cases hnull
  write := by
    intro s h live r x v sim hlive hr hlo hhi
    have hheader := hlive.header r hr
    have hlen := le_blockLen r.2
    refine sim.write (hlive.mem hr) ?_ ?_ v
    · show r.1 - chunkUnit + 16 ≤ x
      unfold chunkUnit at hheader ⊢
      omega
    · show x < r.1 - chunkUnit + blockLen r.2
      omega
  arena_write _ _ _ := rfl
  mem_write _ _ _ := rfl

end

end SysProg.Memory.Heapmgrkr
