import SysProg.Memory.FirstFit
import SysProg.Proofs.Memory.BaseWalks

/-!
# `SysProg.Proofs.Memory.BaseMalloc`: the calls of `heapmgrbase.c`

Each call does to the blocks of the heap what `FirstFit` does to its arena, and returns the same
pointer. `Sim` relates the two states.
-/

set_option autoImplicit false

namespace SysProg.Memory.Heapmgrbase

open SysProg.Lib

section
variable {h : Heap Unit} {p u : Piece} {ps pre suf : List Piece}

/-! ### Growing -/

/-- The span of the new memory. -/
theorem growSpan_eq (need : Nat) :
    1 + (if need < sysMinAllocUnits then sysMinAllocUnits else need) = 1 + max need 1024 := by
  unfold sysMinAllocUnits
  split <;> omega

/-- The argument of `sbrk` does not wrap around. -/
theorem growth_eq {k : Nat} (hk : k ≤ 2147483647) :
    Int.bmod ((k : Nat) * chunkUnit) (2 ^ 64) = (16 * k : Nat) := by
  unfold chunkUnit Int.bmod
  simp only
  omega

/-- `sbrk` grants the memory when there is room. -/
theorem sbrk_granted {n : Nat} (hbase : h.base ≤ h.brk + n) (hroom : h.brk + n ≤ h.limit) :
    h.sbrk true (n : Nat) = (h.brk, { h with brk := h.brk + n }) := by
  have hcond : true = true ∧ (h.base : Int) ≤ h.brk + (n : Nat) ∧
      h.brk + (n : Nat) ≤ (h.limit : Int) :=
    ⟨rfl, by omega, by omega⟩
  unfold Heap.sbrk
  rw [if_pos hcond]
  rfl

/-- `sys_grow_and_link` when `sbrk` grants the memory. -/
theorem sysGrowAndLink_eq (debug : Bool) (prev : Nat) {need k : Nat} (hk : k = 1 + max need 1024)
    (hmax : k ≤ 2147483647) (hbase : h.base ≤ h.brk) (hbrk : h.brk ≠ sbrkFailed)
    (hroom : h.brk + 16 * k ≤ h.limit) :
    sysGrowAndLink debug h true prev need =
      linkNew debug { h with hi := h.brk + 16 * k, brk := h.brk + 16 * k } h.brk k prev := by
  have hspan := growSpan_eq need
  rw [← hk] at hspan
  have hbytes := growth_eq hmax
  have hsbrk := sbrk_granted (h := h) (n := 16 * k) (by omega) hroom
  have hint : i32 ((k : Nat) : Int) = k := i32_eq (by omega) (by omega)
  unfold sysGrowAndLink
  simp only [hspan, hbytes, hsbrk, hint, if_neg hbrk]

/-- `sys_grow_and_link` when `sbrk` does not. -/
theorem sysGrowAndLink_fail (debug : Bool) (prev : Nat) {granted : Bool} {need k : Nat}
    (hk : k = 1 + max need 1024) (hmax : k ≤ 2147483647)
    (hroom : ¬ (granted = true ∧ h.brk + 16 * k ≤ h.limit)) :
    sysGrowAndLink debug h granted prev need = .ok (h, 0) := by
  have hspan := growSpan_eq need
  rw [← hk] at hspan
  have hbytes := growth_eq hmax
  have hsbrk : h.sbrk granted (16 * k : Nat) = (sbrkFailed, h) :=
    if_neg fun hall => hroom ⟨hall.1, by omega⟩
  unfold sysGrowAndLink
  simp only [hspan, hbytes, hsbrk, if_true]

/-- The heap with `k` more units. -/
def grown (h : Heap Unit) (k : Nat) : Heap Unit :=
  { h with hi := h.hi + 16 * k, brk := h.hi + 16 * k, mem := initNew h.mem h.hi k }

/-- The new memory is a block in use. -/
theorem Rep.snoc (r : Rep h ps) {k : Nat} (hk : 0 < k)
    (hsmall : h.hi + 16 * k ≤ h.lo + 16 * intMax) (hlt : h.hi + 16 * k < 2 ^ 64) :
    Rep (grown h k) (ps ++ [⟨h.hi, 16 * k, false⟩]) ∧
      Within (fun x => h.hi ≤ x) h.mem (grown h k).mem := by
  have hw : Within (unitAt h.hi) h.mem (grown h k).mem :=
    ((chunkSetSpanUnits_within h.mem h.hi k).trans
      (chunkSetNextFree_within _ h.hi 0)).trans (chunkSetStatus_within _ h.hi chunkUsed)
  refine ⟨⟨r.blocks.snoc hk hsmall hlt, ?_⟩, hw.mono fun x hx => hx.1⟩
  show FreeChain headers 0 (grown h k).mem (freeHead h) _
  have hchain := r.chain
  rw [FreeChain, frees_append, frees_cons_of_used rfl, frees_nil, List.append_nil]
  refine hchain.congr fun q hq _ => ?_
  have hbounds := r.blocks.bounds hq
  refine headers.next_congr (HeaderLayout.congr_of_ne (c := h.hi) ?_ (by omega) hw)
  unfold HeaderLayout.Apart
  rw [headers_width]
  omega

/-- The new memory behind the last node becomes a part of the last block. If the last block is in
use, it becomes a node of its own. -/
theorem Rep.linkNew (r : Rep h ps) (hm : Merged ps) (debug : Bool) {k : Nat} (hk : 0 < k)
    (hsmall : h.hi + 16 * k ≤ h.lo + 16 * intMax) (hlt : h.hi + 16 * k < 2 ^ 64) :
    ∃ h' pre p, linkNew debug { h with hi := h.hi + 16 * k, brk := h.hi + 16 * k } h.hi k
        (lastStart 0 (frees ps)) = .ok (h', p.start) ∧
      extend (16 * k) h.hi ps = pre ++ [p] ∧ (∀ q ∈ pre, q ∈ ps) ∧ p.free = true ∧
      16 * k ≤ p.len ∧ Rep h' (pre ++ [p]) ∧
      (if p.start = lastStart 0 (frees ps) then lastStart 0 (frees ps).dropLast
        else lastStart 0 (frees ps)) = lastStart 0 (frees pre) ∧
      Edits (fun x => FreeAt ps x ∨ h.hi ≤ x) (grown h k) h' ∧
      Within (fun x => FreeAt ps x ∨ h.hi ≤ x) h.mem h'.mem := by
  obtain ⟨hrep, hw⟩ := r.snoc hk hsmall hlt
  have hmerged : Merged (ps ++ [⟨h.hi, 16 * k, false⟩]) := by
    refine merged_split.mpr ⟨hm, List.isChain_nil, fun q _ hboth => ?_, fun q hq => ?_⟩
    · exact Bool.false_ne_true hboth.2
    · cases hq
  have hpos : 0 < h.hi := Nat.lt_of_lt_of_le r.blocks.pos r.blocks.laid.tiled.le
  have hchain := r.chain
  have hhead : freeHead (grown h k) = freeHead h := rfl
  have hrun : ∀ prev, Heapmgrbase.linkNew debug
      { h with hi := h.hi + 16 * k, brk := h.hi + 16 * k } h.hi k prev
      = (if freeHead h = 0 then
          (Heapmgrbase.freelistPushFront debug (grown h k) h.hi).map fun h' => (h', h.hi)
        else Heapmgrbase.freelistInsertAfter debug (grown h k) prev h.hi).bind fun g =>
          (Heapmgrbase.assertValid debug g.1).map fun _ => g := fun _ => rfl
  generalize grown h k = h₂ at hrep hw hrun ⊢
  rcases lastStart_cases 0 (frees ps) with ⟨hfrees, -⟩ | ⟨fs, e, hfrees, -⟩
  · -- No block is free, and the new one is the list.
    rw [FreeChain, hfrees] at hchain
    obtain ⟨h', hok, hrep', hedits⟩ := hrep.freelistPushFront debug hmerged rfl hfrees
    have hedits' : Edits (fun x => FreeAt ps x ∨ h.hi ≤ x) h₂ h' :=
      hedits.mono fun x hx => Or.inr hx.1
    have hlast : extend (16 * k) h.hi ps = ps ++ [⟨h.hi, 16 * k, true⟩] := by
      rcases extend_cases (16 * k) h.hi hm with ⟨xs, e, rfl, he, -⟩ | ⟨-, heq⟩
      · rw [frees_eq_nil.mp hfrees e (List.mem_append_right _ List.mem_cons_self)] at he
        cases he
      · exact heq
    have hext : Rep h' (extend (16 * k) h.hi ps) := hrep'
    have hvalid := hext.assertValid (merged_merge _) debug
    rw [hlast] at hext
    refine ⟨h', ps, ⟨h.hi, 16 * k, true⟩, ?_, hlast, fun q hq => hq, rfl, Nat.le_refl _, hext, ?_,
      hedits', (hw.mono fun x hx => Or.inr hx).trans hedits'.within⟩
    · rw [hrun, if_pos (show freeHead h = 0 from hchain), hok]
      show (Heapmgrbase.assertValid debug h').map _ = _
      rw [hvalid]
      rfl
    · rw [hfrees, lastStart_nil]
      exact ite_self _
  · have hemem := mem_frees.mp (hfrees ▸ List.mem_append_right fs List.mem_cons_self)
    have hebounds := r.blocks.bounds hemem.1
    have hne : freeHead h ≠ 0 := by
      intro hzero
      rw [FreeChain, hzero] at hchain
      cases hfs : frees ps with
      | nil =>
          rw [hfs] at hfrees
          exact absurd hfrees.symm
            (List.append_ne_nil_of_right_ne_nil _ (List.cons_ne_nil _ _))
      | cons d rest =>
          rw [hfs] at hchain
          have hd := (r.blocks.bounds (mem_frees.mp (hfs ▸ List.mem_cons_self)).1).1
          have hstart : 0 = d.start := hchain.1
          omega
    obtain ⟨h', hok, hrep', hedits⟩ := hrep.freelistInsertAfter debug hmerged rfl hfrees
    have hext : Rep h' (extend (16 * k) h.hi ps) := hrep'
    have hvalid := hext.assertValid (merged_merge _) debug
    have hedits' : Edits (fun x => FreeAt ps x ∨ h.hi ≤ x) h₂ h' := by
      refine hedits.mono fun x hx => ?_
      rcases hx with hx | hx
      · exact Or.inl (r.blocks.freeAt_unit hemem.1 hemem.2 hx)
      · exact Or.inr hx.1
    have hret : ∀ c, (if e.stop = h.hi then e.start else h.hi) = c →
        Heapmgrbase.linkNew debug { h with hi := h.hi + 16 * k, brk := h.hi + 16 * k } h.hi k
          e.start = .ok (h', c) := by
      intro c hc
      rw [hrun, if_neg hne, hok, ← hc]
      show (Heapmgrbase.assertValid debug h').map _ = _
      rw [hvalid]
      rfl
    rw [hfrees, lastStart_concat, List.dropLast_concat]
    rcases extend_cases (16 * k) h.hi hm with ⟨xs, d, rfl, hd, heq⟩ | ⟨hlast, heq⟩
    · -- The last block is the last node, and the two are one block now.
      rw [frees_append, frees_cons_of_free hd] at hfrees
      obtain ⟨hxs, hde⟩ := List.append_inj' hfrees rfl
      rw [List.cons.injEq] at hde
      obtain ⟨rfl, -⟩ := hde
      have hstop : d.stop = h.hi := (tiled_split.mp r.blocks.laid.tiled).2.2
      refine ⟨h', xs, d.join ⟨h.hi, 16 * k, true⟩, hret _ (if_pos hstop), heq,
        fun q hq => List.mem_append_left _ hq, hd, ?_, heq ▸ hext, ?_, hedits',
        (hw.mono fun x hx => Or.inr hx).trans hedits'.within⟩
      · show 16 * k ≤ d.len + 16 * k
        exact Nat.le_add_left _ _
      · rw [hxs]
        exact if_pos rfl
    · have hstop : e.stop ≠ h.hi := by
        rcases last_free_cases hrep.blocks.laid.tiled hfrees with ⟨xs, rfl, -⟩ | ⟨hstop, -⟩
        · rw [hlast e List.getLast?_concat] at hemem
          cases hemem.2
        · exact hstop
      refine ⟨h', ps, ⟨h.hi, 16 * k, true⟩, hret _ (if_neg hstop), heq,
        fun q hq => hq, rfl, Nat.le_refl _, heq ▸ hext, ?_, hedits',
        (hw.mono fun x hx => Or.inr hx).trans hedits'.within⟩
      have hstart : h.hi ≠ e.start := by omega
      rw [hfrees, lastStart_concat]
      exact if_neg hstart

/-! ### Taking a block -/

/-- The end of a node, or the whole of it, is taken. A node with exactly the units that are needed
leaves the list. -/
theorem Rep.take (r : Rep h (pre ++ p :: suf)) (hm : Merged (pre ++ p :: suf)) (debug : Bool)
    (hp : p.free = true) {need : Nat} (hneed : 16 * (1 + need) ≤ p.len) :
    ∃ h', take debug h (lastStart 0 (frees pre)) p.start need
        = .ok (h', p.stop - 16 * (1 + need) + 16) ∧
      Rep h' (carve p.start (16 * (1 + need)) (pre ++ p :: suf)) ∧
      Edits (FreeAt (pre ++ p :: suf)) h h' := by
  have hmem : p ∈ pre ++ p :: suf := List.mem_append_right _ List.mem_cons_self
  have hbounds := r.blocks.bounds hmem
  have hstop : p.stop = p.start + p.len := rfl
  have hcarve := r.blocks.laid.tiled.carve_split (n := 16 * (1 + need)) hp
  have hmerged := merged_carve (x := p.start) (n := 16 * (1 + need)) hm
  have hptr : ptrAdd (p.stop - 16 * (1 + need)) chunkUnit = p.stop - 16 * (1 + need) + 16 := by
    refine ptrAdd_eq ?_ (by omega)
    unfold chunkUnit
    omega
  unfold Heapmgrbase.take
  by_cases hlt : 16 * (1 + need) < p.len
  · obtain ⟨h', hok, hrep, hedits⟩ := r.splitForAlloc debug hp hlt
    rw [← hcarve] at hrep
    refine ⟨h', ?_, hrep, hedits⟩
    rw [if_pos ((r.blocks.payloadUnits_lt hmem need).mpr hlt), hok]
    show (Heapmgrbase.assertValid debug h').bind _ = _
    rw [hrep.assertValid hmerged debug, hptr]
    rfl
  · -- The block has exactly the units.
    obtain ⟨h', hok, hrep, hedits⟩ := r.freelistDetach debug hp
    have hcut : p.cut (16 * (1 + need)) = [{ p with free := false }] := by
      rw [Piece.cut, if_pos (by omega)]
    rw [hcut, List.append_assoc, List.singleton_append] at hcarve
    rw [← hcarve] at hrep
    have hsame : p.stop - 16 * (1 + need) = p.start := by omega
    rw [hsame] at hptr ⊢
    refine ⟨h', ?_, hrep, hedits⟩
    rw [if_neg (mt (r.blocks.payloadUnits_lt hmem need).mp hlt), hok]
    show (Heapmgrbase.assertValid debug h').bind _ = _
    rw [hrep.assertValid hmerged debug, hptr]
    rfl

end

end SysProg.Memory.Heapmgrbase
