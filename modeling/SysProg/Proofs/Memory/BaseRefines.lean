import SysProg.Proofs.Memory.BaseMalloc
import SysProg.Proofs.Memory.Implements

/-!
# `SysProg.Proofs.Memory.BaseRefines`: `heapmgrbase.c` is a first-fit manager

`Sim` relates a heap of `heapmgrbase.c` to a state of `FirstFit`. Every call keeps it, returns
the same pointer and leaves the blocks in use alone. So a program cannot tell the two apart.
-/

set_option autoImplicit false

namespace SysProg.Memory.Heapmgrbase

open SysProg.Lib

/-- The heap is the one of `FirstFit`. Before the first call it has no memory. -/
structure Sim (s : FirstFit) (h : Heap Unit) : Prop where
  booted : h.booted = s.booted
  limit : h.limit = s.limit
  lo : s.arena.lo = h.base
  hi : s.arena.hi = h.brk
  pos : 0 < h.base
  le : h.brk ≤ h.limit
  lt : h.limit < sbrkFailed
  small : h.limit ≤ h.base + 16 * intMax
  fresh : h.booted = false → s.arena.pieces = [] ∧ freeHead h = 0
  rep : h.booted = true → Rep h s.arena.pieces ∧ h.lo = h.base ∧ h.hi = h.brk

section
variable {s : FirstFit} {h : Heap Unit} {p u : Piece} {ps pre suf : List Piece}

/-- The scan finds the first free block that fits, or that there is none. It goes through the list,
and the list is in the order of the addresses. -/
theorem Rep.scan (r : Rep h ps) (need : Nat) :
    (∃ pre p suf before, ps = pre ++ p :: suf ∧ p.free = true ∧ 16 * (1 + need) ≤ p.len ∧
      (∀ q ∈ pre, ¬ (q.free = true ∧ 16 * (1 + need) ≤ q.len)) ∧
      scan h.mem need (2 ^ 64) 0 0 (freeHead h)
        = .ok (before, lastStart 0 (frees pre), p.start)) ∨
    (∀ q ∈ ps, ¬ (q.free = true ∧ 16 * (1 + need) ≤ q.len)) ∧
      scan h.mem need (2 ^ 64) 0 0 (freeHead h)
        = .ok (lastStart 0 (frees ps).dropLast, lastStart 0 (frees ps), 0) := by
  have hsmall : ∀ {qs xs : List Piece}, frees qs = xs → (∀ q ∈ xs, q.len < 16 * (1 + need)) →
      ∀ q ∈ qs, ¬ (q.free = true ∧ 16 * (1 + need) ≤ q.len) := by
    intro qs xs hfrees hxs q hq hboth
    have hlt := hxs q (hfrees ▸ mem_frees.mpr ⟨hq, hboth.1⟩)
    exact absurd hboth.2 (by omega)
  have hscan := @scan_seg _ _ _ need _ r.blocks (frees ps) [] _ (2 ^ 64)
    (fun q hq => (mem_frees.mp hq).1) r.chain r.blocks.length_frees_lt
  rcases hscan with ⟨xs, p, ys, hfrees, hxs, hlen, hok⟩ | ⟨hall, hok⟩
  · obtain ⟨pre, suf, rfl, hpre, -, hp⟩ := frees_split hfrees
    rw [List.nil_append, ← hpre] at hok
    exact Or.inl ⟨pre, p, suf, _, rfl, hp, hlen, hsmall hpre hxs, hok⟩
  · exact Or.inr ⟨hsmall rfl hall, hok⟩

/-- `heapmgr_malloc` for a size that is not 0. -/
theorem heapmgrMalloc_eq {h' : Heap Unit} {debug : Bool} {env : Sbrk} {size : UInt64}
    (hsize : size ≠ 0)
    (hboot : (if h.booted then .ok h
      else (heapBootstrap h env.query).map fun h => { h with booted := true }) = .ok h')
    (hvalid : assertValid debug h' = .ok ()) :
    heapmgrMalloc debug h env size
      = allocate debug h' env.extend (bytesToPayloadUnits size.toNat) := by
  unfold heapmgrMalloc
  rw [if_neg hsize]
  cases hb : h.booted with
  | true =>
      rw [hb, if_pos rfl] at hboot
      cases hboot
      simp only [if_true, bind, Except.bind, pure, Except.pure, hvalid]
  | false =>
      rw [hb, if_neg Bool.false_ne_true] at hboot
      simp only [if_neg Bool.false_ne_true, bind, Except.bind, hboot, hvalid]

/-- The part behind the initialization, when a block fits. -/
theorem allocate_found {debug granted : Bool} {need before prev cur : Nat} (hcur : cur ≠ 0)
    (hok : Heapmgrbase.scan h.mem need (2 ^ 64) 0 0 (freeHead h) = .ok (before, prev, cur)) :
    allocate debug h granted need = take debug h prev cur need := by
  unfold allocate
  rw [hok]
  exact if_pos hcur

/-- The part behind the initialization, when no block fits. -/
theorem allocate_grow {debug granted : Bool} {need before prev : Nat}
    (hok : Heapmgrbase.scan h.mem need (2 ^ 64) 0 0 (freeHead h) = .ok (before, prev, 0)) :
    allocate debug h granted need = (sysGrowAndLink debug h granted prev need).bind fun g =>
      if g.2 = 0 then (assertValid debug g.1).bind fun _ => .ok (g.1, 0)
      else take debug g.1 (if g.2 = prev then before else prev) g.2 need := by
  unfold allocate
  rw [hok]
  rfl

/-- The free addresses are not in use. -/
theorem FreeAt.not_inUse {lo hi : Nat} (ht : Tiled lo ps hi) {x : Nat} (hx : FreeAt ps x) :
    ¬ InUse ps x := by
  obtain ⟨q, hq, hfree, hlo, hhi⟩ := hx
  exact ht.not_inUse hq hfree hlo hhi

/-- A block that fits is taken. Both sides take the end of the piece and answer the same pointer. -/
theorem Sim.take (sim : Sim s h) (hbooted : h.booted = true) (debug : Bool)
    (hps : s.arena.pieces = pre ++ p :: suf) (hp : p.free = true) {need n : Nat} (hn : 0 < n)
    (hlen : n = 16 * (1 + need)) (hfits : n ≤ p.len) :
    ∃ h', take debug h (lastStart 0 (frees pre)) p.start need = .ok (h', (s.take p n hn).2) ∧
      Sim (s.take p n hn).1 h' ∧ Within (fun x => ¬ InUse s.arena.pieces x) h.mem h'.mem := by
  obtain ⟨r, hlo, hhi⟩ := sim.rep hbooted
  have hm := s.arena.merged
  rw [hps] at r hm
  have hlen' : 16 * (1 + need) ≤ p.len := hlen ▸ hfits
  obtain ⟨h', hok, hrep, hedits⟩ := r.take hm debug hp hlen'
  rw [← hlen] at hok hrep
  rw [← hps] at hrep hedits
  refine ⟨h', hok, ?_, hedits.within.mono fun x hx => hx.not_inUse s.arena.tiled⟩
  exact
    { booted := hedits.booted.trans sim.booted
      limit := hedits.limit.trans sim.limit
      lo := sim.lo.trans hedits.base.symm
      hi := sim.hi.trans hedits.brk.symm
      pos := by rw [hedits.base]; exact sim.pos
      le := by rw [hedits.brk, hedits.limit]; exact sim.le
      lt := by rw [hedits.limit]; exact sim.lt
      small := by rw [hedits.base, hedits.limit]; exact sim.small
      fresh := fun hfalse => by rw [hedits.booted, hbooted] at hfalse; cases hfalse
      rep := fun _ =>
        ⟨hrep, by rw [hedits.lo, hedits.base, hlo], by rw [hedits.hi, hedits.brk, hhi]⟩ }

/-- The heap grows when `sbrk` grants the memory. The last block has room then, and it is the one
that is taken. -/
theorem Sim.grow (sim : Sim s h) (hbooted : h.booted = true) (debug : Bool) {need n : Nat}
    (hneed : need < intMax) (hlen : n = 16 * (1 + need))
    (hroom : s.arena.hi + FirstFit.grow n ≤ s.limit) :
    ∃ h' pre p, sysGrowAndLink debug h true (lastStart 0 (frees s.arena.pieces)) need
        = .ok (h', p.start) ∧ p.start ≠ 0 ∧
      (s.extend n).arena.pieces = pre ++ [p] ∧ (∀ q ∈ pre, q ∈ s.arena.pieces) ∧ p.free = true ∧
      n ≤ p.len ∧ Sim (s.extend n) h' ∧ h'.booted = true ∧
      (if p.start = lastStart 0 (frees s.arena.pieces) then
        lastStart 0 (frees s.arena.pieces).dropLast
        else lastStart 0 (frees s.arena.pieces)) = lastStart 0 (frees pre) ∧
      Within (fun x => ¬ InUse s.arena.pieces x) h.mem h'.mem := by
  obtain ⟨r, hlo, hhi⟩ := sim.rep hbooted
  obtain ⟨k, hk⟩ : ∃ k, k = 1 + max need 1024 := ⟨_, rfl⟩
  have hgrow : FirstFit.grow n = 16 * k := by
    unfold FirstFit.grow chunkUnit
    omega
  have hlimit := sim.limit
  have hhi' := sim.hi
  have hroom' : h.brk + 16 * k ≤ h.limit := by omega
  have hsmall := sim.small
  have hlt := sim.lt
  have hle := sim.le
  have hlo' : h.base ≤ h.brk := by
    rw [← hlo, ← hhi]
    exact r.blocks.laid.tiled.le
  obtain ⟨hkpos, hkmax⟩ : 0 < k ∧ k ≤ 2147483647 := by
    unfold intMax at hneed
    omega
  have hbound : h.hi + 16 * k ≤ h.lo + 16 * intMax ∧ h.hi + 16 * k < 2 ^ 64 ∧
      h.brk ≠ sbrkFailed := by
    unfold sbrkFailed at hlt ⊢
    omega
  obtain ⟨h', pre, p, hok, hext, hpre, hp, hplen, hrep, hprev, hedits, hw⟩ :=
    r.linkNew s.arena.merged debug hkpos hbound.1 hbound.2.1
  have hpieces : (s.extend n).arena.pieces = pre ++ [p] := by
    rw [← hext, ← hgrow, hhi, ← hhi']
    rfl
  have hpos := (hrep.blocks.bounds (List.mem_append_right _ List.mem_cons_self)).1
  refine ⟨h', pre, p, ?_, by omega, hpieces, hpre, hp, by omega, ?_, ?_, hprev, ?_⟩
  · rw [sysGrowAndLink_eq debug _ hk hkmax hlo' hbound.2.2 hroom', ← hhi]
    exact hok
  · exact
      { booted := hedits.booted.trans sim.booted
        limit := hedits.limit.trans sim.limit
        lo := sim.lo.trans hedits.base.symm
        hi := by
          rw [hedits.brk]
          show s.arena.hi + FirstFit.grow n = h.hi + 16 * k
          rw [hgrow, hhi, hhi']
        pos := by
          rw [hedits.base]
          exact sim.pos
        le := by
          rw [hedits.brk, hedits.limit]
          show h.hi + 16 * k ≤ h.limit
          rw [hhi]
          exact hroom'
        lt := by
          rw [hedits.limit]
          exact sim.lt
        small := by
          rw [hedits.base, hedits.limit]
          exact sim.small
        fresh := fun hfalse => by
          rw [hedits.booted] at hfalse
          exact absurd (hbooted.symm.trans hfalse) Bool.noConfusion
        rep := fun _ => ⟨hpieces ▸ hrep, hedits.lo.trans (hlo.trans hedits.base.symm),
          hedits.hi.trans hedits.brk.symm⟩ }
  · exact hedits.booted.trans hbooted
  · refine hw.mono fun x hx => ?_
    rcases hx with hx | hx
    · exact hx.not_inUse s.arena.tiled
    · exact s.arena.tiled.not_inUse_of_le (by omega)

/-- The part behind the initialization: the scan, and the growth of the heap if nothing fits. -/
theorem Sim.allocate (sim : Sim s h) (hbooted : h.booted = true) (debug granted : Bool)
    {need n : Nat} (hneed : need < intMax) (hn : 0 < n) (hlen : n = 16 * (1 + need)) :
    ∃ h', allocate debug h granted need = .ok (h', (s.alloc granted n hn).2) ∧
      Sim (s.alloc granted n hn).1 h' ∧
      Within (fun x => ¬ InUse s.arena.pieces x) h.mem h'.mem := by
  obtain ⟨r, hlo, hhi⟩ := sim.rep hbooted
  unfold FirstFit.alloc
  rcases r.scan need with ⟨pre, p, suf, before, hps, hp, hfits, hpre, hscan⟩ | ⟨hnone, hscan⟩
  · rw [← hlen] at hfits hpre
    have hfit : s.arena.firstFit n = some p :=
      Arena.firstFit_eq_some.mpr ⟨⟨hp, hfits⟩, pre, suf, hps, hpre⟩
    have hpos := (r.blocks.bounds (hps ▸ List.mem_append_right _ List.mem_cons_self)).1
    rw [hfit, allocate_found (by omega) hscan]
    exact sim.take hbooted debug hps hp hn hlen hfits
  · rw [← hlen] at hnone
    have hfit : s.arena.firstFit n = none := Arena.firstFit_eq_none.mpr hnone
    rw [hfit, allocate_grow hscan]
    by_cases hroom : granted = true ∧ s.arena.hi + FirstFit.grow n ≤ s.limit
    · obtain ⟨rfl, hroom⟩ := hroom
      obtain ⟨h', pre, p, hok, hstart, hpieces, hpre, hp, hfits, sim', hbooted', hprev, hw⟩ :=
        sim.grow hbooted debug hneed hlen hroom
      have hfit' : (s.extend n).arena.firstFit n = some p :=
        Arena.firstFit_eq_some.mpr ⟨⟨hp, hfits⟩, pre, [], hpieces, fun q hq => hnone q (hpre q hq)⟩
      obtain ⟨h'', hok', sim'', hw'⟩ := sim'.take hbooted' debug hpieces hp hn hlen hfits
      have hused : ∀ x, InUse (s.extend n).arena.pieces x ↔ InUse s.arena.pieces x := by
        intro x
        unfold InUse
        rw [show used (s.extend n).arena.pieces = used s.arena.pieces from used_extend _ _ _]
      refine ⟨h'', ?_, ?_, hw.trans (hw'.mono fun x hx => fun hin => hx ((hused x).mpr hin))⟩
      · rw [if_pos ⟨rfl, hroom⟩, hfit', hok]
        show (if p.start = 0 then _ else _) = _
        rw [if_neg hstart, hprev]
        exact hok'
      · rw [if_pos ⟨rfl, hroom⟩, hfit']
        exact sim''
    · -- The answer is `NULL`.
      have hfail : ¬ (granted = true ∧ h.brk + 16 * (1 + max need 1024) ≤ h.limit) := by
        intro ⟨hgranted, hle⟩
        refine hroom ⟨hgranted, ?_⟩
        have hlimit := sim.limit
        have hhi' := sim.hi
        unfold FirstFit.grow chunkUnit
        omega
      have hmax : 1 + max need 1024 ≤ 2147483647 := by
        unfold intMax at hneed
        omega
      refine ⟨h, ?_, ?_, Within.refl _ _⟩
      · rw [if_neg hroom, sysGrowAndLink_fail debug _ rfl hmax hfail]
        show (Heapmgrbase.assertValid debug h).bind _ = _
        rw [r.assertValid s.arena.merged debug]
        rfl
      · rw [if_neg hroom]
        exact sim

/-- The initialization. The heap is empty behind it, on both sides. -/
theorem Sim.boot (sim : Sim s h) (hbooted : h.booted = false) :
    heapBootstrap h true = .ok { h with lo := h.brk, hi := h.brk } ∧
      Sim { s with booted := true } { h with lo := h.brk, hi := h.brk, booted := true } := by
  obtain ⟨hnil, hhead⟩ := sim.fresh hbooted
  have ht := s.arena.tiled
  rw [hnil] at ht
  have hbase : h.base = h.brk := sim.lo.symm.trans (ht.trans sim.hi)
  have hle := sim.le
  have hlt := sim.lt
  have hpos := sim.pos
  have hsmall := sim.small
  have hne : h.brk ≠ sbrkFailed := by omega
  constructor
  · have hsbrk := sbrk_granted (h := h) (n := 0) (by omega) (by omega)
    unfold heapBootstrap
    rw [show h.sbrk true 0 = _ from hsbrk]
    exact if_neg hne
  · have hlt' : h.brk < 2 ^ 64 := by
      unfold sbrkFailed at hlt
      omega
    exact
      { booted := rfl
        limit := sim.limit
        lo := sim.lo
        hi := sim.hi
        pos := hpos
        le := hle
        lt := hlt
        small := hsmall
        fresh := fun hfalse => by cases hfalse
        rep := fun _ => ⟨hnil ▸ ⟨⟨⟨rfl, fun q hq => (by cases hq)⟩, fun q hq => (by cases hq),
          by rw [← hbase]; exact hpos, Nat.le_add_right _ _, hlt'⟩, hhead⟩, hbase.symm, rfl⟩ }

/-- The units of a size. -/
theorem bytesToPayloadUnits_eq {n : Nat} (hn : n ≤ chunkUnit * (intMax - 1)) :
    bytesToPayloadUnits n < intMax ∧ blockLen n = 16 * (1 + bytesToPayloadUnits n) := by
  unfold chunkUnit intMax at hn
  have hexact : bytesToPayloadUnits n = (n + 15) / 16 := by
    unfold bytesToPayloadUnits chunkUnit
    omega
  rw [hexact]
  unfold blockLen chunkUnit intMax
  exact ⟨by omega, rfl⟩

/-- `heapmgr_malloc`. A request of no bytes is answered with `NULL`, and the first call sets the
heap up. -/
theorem Sim.malloc (sim : Sim s h) (debug : Bool) (env : Sbrk) {size : UInt64}
    (hsize : size.toNat ≤ chunkUnit * (intMax - 1)) :
    (FirstFit.malloc s env size = .error .exited ∧
      heapmgrMalloc debug h env size = .error .exited) ∨
    ∃ s' h' p, FirstFit.malloc s env size = .ok (s', p) ∧
      heapmgrMalloc debug h env size = .ok (h', p) ∧ Sim s' h' ∧
      Within (fun x => ¬ InUse s.arena.pieces x) h.mem h'.mem := by
  by_cases hzero : size = 0
  · refine Or.inr ⟨s, h, 0, if_pos hzero, ?_, sim, Within.refl _ _⟩
    unfold heapmgrMalloc
    exact if_pos hzero
  · obtain ⟨hneed, hlen⟩ := bytesToPayloadUnits_eq hsize
    unfold FirstFit.malloc
    rw [if_neg hzero]
    have hbooted := sim.booted
    by_cases hexit : s.booted = false ∧ env.query = false
    · refine Or.inl ⟨if_pos hexit, ?_⟩
      have hfail : heapBootstrap h env.query = .error .exited := by
        rw [hexit.2]
        rfl
      rw [hexit.1] at hbooted
      unfold heapmgrMalloc
      simp only [if_neg hzero, hbooted, if_neg Bool.false_ne_true, hfail, bind, Except.bind]
      rfl
    · rw [if_neg hexit]
      -- The heap behind the initialization.
      have hboot : ∃ h₁, (if h.booted then .ok h else
          (heapBootstrap h env.query).map fun h => { h with booted := true }) = .ok h₁ ∧
          Sim { s with booted := true } h₁ ∧ h₁.booted = true ∧ h₁.mem = h.mem := by
        cases hb : h.booted with
        | true =>
            refine ⟨h, rfl, ?_, hb, rfl⟩
            rw [hb] at hbooted
            rw [show ({ s with booted := true } : FirstFit) = s by rw [hbooted]]
            exact sim
        | false =>
            have hquery : env.query = true := by
              rw [hb] at hbooted
              exact eq_true_of_ne_false fun hfalse => hexit ⟨hbooted.symm, hfalse⟩
            obtain ⟨hok, sim'⟩ := sim.boot hb
            refine ⟨_, ?_, sim', rfl, rfl⟩
            rw [hquery, hok]
            rfl
      obtain ⟨h₁, hok₁, sim₁, hbooted₁, hmem₁⟩ := hboot
      have hvalid := (sim₁.rep hbooted₁).1.assertValid s.arena.merged debug
      obtain ⟨h', hok, sim', hw⟩ :=
        sim₁.allocate hbooted₁ debug env.extend hneed (blockLen_pos _) hlen
      generalize ({ s with booted := true } : FirstFit).alloc env.extend (blockLen size.toNat)
        (blockLen_pos _) = r at hok sim' ⊢
      refine Or.inr ⟨r.1, h', r.2, rfl, ?_, sim', hmem₁ ▸ hw⟩
      rw [heapmgrMalloc_eq hzero hok₁ hvalid, hok]

/-- `heapmgr_free` on a block in use. The block is put into the list where it belongs, and joined
with its free neighbours. -/
theorem Sim.free (sim : Sim s h) (debug : Bool) (hu : u ∈ s.arena.pieces) (hused : u.free = false) :
    ∃ h', heapmgrFree debug h (u.start + 16) = .ok h' ∧
      Sim { s with arena := s.arena.release u.start } h' ∧
      Within (fun x => ¬ InUse (s.arena.release u.start).pieces x) h.mem h'.mem := by
  have hbooted : h.booted = true := by
    refine eq_true_of_ne_false fun hfalse => ?_
    rw [(sim.fresh hfalse).1] at hu
    cases hu
  obtain ⟨r, hlo, hhi⟩ := sim.rep hbooted
  obtain ⟨pre, suf, hps⟩ := List.append_of_mem hu
  have hm := s.arena.merged
  have ht := s.arena.tiled
  rw [hps] at r hm ht
  have hbounds := r.blocks.bounds (hps ▸ hu)
  have hheader : headerFromPayload (u.start + 16) = u.start := by
    refine ptrAdd_eq ?_ (by omega)
    unfold chunkUnit
    omega
  have hstatus : check debug (decide (chunkGetStatus h.mem u.start ≠ chunkFree)) = .ok () := by
    refine check_of (decide_eq_true ?_)
    rw [r.blocks.status u (hps ▸ hu), hused]
    decide
  have hrelease : (s.arena.release u.start).pieces
      = merge (pre ++ { u with free := true } :: suf) := by
    show release u.start s.arena.pieces = _
    rw [hps]
    exact ht.release_split
  have hmerged : Merged (merge (pre ++ { u with free := true } :: suf)) := merged_merge _
  -- The block joins the list in its place.
  have hjoin : ∃ h', heapmgrFree debug h (u.start + 16) = .ok h' ∧
      Rep h' (merge (pre ++ { u with free := true } :: suf)) ∧
      Edits (fun x => FreeAt (pre ++ u :: suf) x ∨ unitAt u.start x) h h' := by
    have hvalid := r.assertValid hm debug
    have hpoint := r.insertionPoint hused
    unfold heapmgrFree
    rw [if_neg (by omega), hheader]
    simp only [hvalid, hstatus, hpoint, bind, pure, Except.bind, Except.pure]
    rcases lastStart_cases 0 (frees pre) with ⟨hpre, hzero⟩ | ⟨fs, e, hpre, he⟩
    · obtain ⟨h', hok, hrep, hedits⟩ := r.freelistPushFront debug hm hused hpre
      refine ⟨h', ?_, hrep, hedits.mono fun x hx => Or.inr hx⟩
      rw [if_pos hzero]
      simp only [hok, hrep.assertValid hmerged debug]
    · have hemem := mem_frees.mp (hpre ▸ List.mem_append_right fs List.mem_cons_self)
      have hemem' := List.mem_append_left (u :: suf) hemem.1
      have hepos := (r.blocks.bounds hemem').1
      obtain ⟨h', hok, hrep, hedits⟩ := r.freelistInsertAfter debug hm hused hpre
      refine ⟨h', ?_, hrep, hedits.mono fun x hx => ?_⟩
      · rw [he, if_neg (by omega)]
        simp only [hok, Except.map, hrep.assertValid hmerged debug]
      · exact hx.imp (r.blocks.freeAt_unit hemem' hemem.2) id
  obtain ⟨h', hok, hrep, hedits⟩ := hjoin
  rw [← hrelease] at hrep
  refine ⟨h', hok, ?_, hedits.within.mono fun x hx => ?_⟩
  · exact
      { booted := hedits.booted.trans sim.booted
        limit := hedits.limit.trans sim.limit
        lo := sim.lo.trans hedits.base.symm
        hi := sim.hi.trans hedits.brk.symm
        pos := by rw [hedits.base]; exact sim.pos
        le := by rw [hedits.brk, hedits.limit]; exact sim.le
        lt := by rw [hedits.limit]; exact sim.lt
        small := by rw [hedits.base, hedits.limit]; exact sim.small
        fresh := fun hfalse => by rw [hedits.booted, hbooted] at hfalse; cases hfalse
        rep := fun _ => ⟨hrep, by rw [hedits.lo, hedits.base, hlo],
          by rw [hedits.hi, hedits.brk, hhi]⟩ }
  · -- The blocks in use are the others.
    intro hin
    change InUse (release u.start s.arena.pieces) x at hin
    rw [hps] at hin
    obtain ⟨hold, hout⟩ := ht.inUse_release hin
    rcases hx with hx | hx
    · exact hx.not_inUse ht hold
    · unfold unitAt at hx
      omega

/-- A write to the payload of a block in use leaves the headers alone. So both sides are as before.
-/
theorem Sim.write (sim : Sim s h) {x : Nat} (hu : u ∈ s.arena.pieces) (hlo : u.start + 16 ≤ x)
    (hhi : x < u.stop) (v : UInt8) : Sim s (h.setMem ⟨Function.update h.mem.byte x v⟩) := by
  refine
    { booted := sim.booted, limit := sim.limit, lo := sim.lo, hi := sim.hi, pos := sim.pos
      le := sim.le, lt := sim.lt, small := sim.small, fresh := sim.fresh
      rep := fun hbooted => ?_ }
  obtain ⟨r, hlo', hhi'⟩ := sim.rep hbooted
  have hheader : ∀ q ∈ s.arena.pieces, ∀ y, q.start ≤ y → y < q.start + 16 →
      Function.update h.mem.byte x v y = h.mem.byte y := by
    intro q hq y hylo hyhi
    refine Function.update_of_ne ?_ _ _
    have hqbounds := r.blocks.bounds hq
    rcases s.arena.tiled.apart hq hu with rfl | hle | hle
    · omega
    · omega
    · omega
  refine ⟨⟨⟨r.blocks.laid.congr fun q hq => headers.span_congr (hheader q hq), fun q hq => ?_,
    r.blocks.pos, r.blocks.small, r.blocks.lt⟩, ?_⟩, hlo', hhi'⟩
  · rw [setMem_mem, status_congr (hheader q hq)]
    exact r.blocks.status q hq
  · exact r.chain.congr fun q hq _ => headers.next_congr (hheader q hq)

/-- `heapmgrbase.c` does what `FirstFit` does. There is one lemma for each call, and this puts them
together. -/
theorem implements_firstFit (debug : Bool) :
    Implements (allocator debug) FirstFit.allocator FirstFit.arena Heap.mem Sim where
  maxSize := rfl
  freesNull := rfl
  malloc := by
    intro s h env size sim hsize
    rcases sim.malloc debug env hsize with hexit | ⟨s', h', p, hs, hh, sim', hw⟩
    · exact Or.inl hexit
    · refine Or.inr ⟨s', h', p, hs, hh, sim', hw, fun {live} hlive => ?_⟩
      unfold FirstFit.malloc at hs
      split at hs
      · rw [Except.ok.injEq, Prod.mk.injEq] at hs
        obtain ⟨rfl, rfl⟩ := hs
        exact hlive
      · split at hs
        · cases hs
        · rw [Except.ok.injEq, Prod.ext_iff] at hs
          obtain ⟨rfl, rfl⟩ := hs
          exact FirstFit.alloc_blocks hlive
  free := by
    intro s h live r sim hlive hr
    have hheader := hlive.header r hr
    have hstart : (blockOf r).start + 16 = r.1 := by
      show r.1 - chunkUnit + 16 = r.1
      unfold chunkUnit at hheader ⊢
      omega
    have hne : r.1 ≠ 0 := by
      unfold chunkUnit at hheader
      omega
    obtain ⟨h', hok, sim', hw⟩ := sim.free debug (hlive.mem hr) rfl
    rw [hstart] at hok
    exact ⟨_, h', if_neg hne, hok, sim', hw, rfl⟩
  free_null := by
    intro s h _ _
    constructor
    · show FirstFit.free s 0 = _
      unfold FirstFit.free
      exact if_pos rfl
    · show heapmgrFree debug h 0 = _
      unfold heapmgrFree
      exact if_pos rfl
  write := by
    intro s h live r x v sim hlive hr hlo hhi
    have hheader := hlive.header r hr
    have hlen := le_blockLen r.2
    refine sim.write (hlive.mem hr) ?_ ?_ v
    · show r.1 - chunkUnit + 16 ≤ x
      unfold chunkUnit at hheader ⊢
      omega
    · show x < r.1 - chunkUnit + blockLen r.2
      omega
  arena_write _ _ _ := rfl
  mem_write _ _ _ := rfl

end

end SysProg.Memory.Heapmgrbase
