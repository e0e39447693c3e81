import Mathlib.Data.List.Pairwise
import Mathlib.Data.List.Perm.Basic
import SysProg.Lib.Coalesce

/-!
# `SysProg.Lib.Arena`: a range of addresses cut into pieces

An arena is a range of addresses that is cut into pieces, some of them free. The pieces follow
each other without a gap (`Tiled`), and no two free ones are next to each other (`Merged`).

* `carve` takes the end of a free piece, `release` gives a piece back, and `extend` adds a piece
  behind the others. `Arena` has the three with their invariant.
* `Arena.eq_of_used`: the pieces in use determine the arena. How it came about does not matter.
* `Arena.firstFit` and `Arena.nextFit` search for a free piece.
-/

set_option autoImplicit false

namespace SysProg.Lib

/-- A piece of an arena. -/
@[ext] structure Piece where
  start : Nat
  len : Nat
  free : Bool
deriving DecidableEq, Repr

namespace Piece

/-- The end of a piece. -/
def stop (p : Piece) : Nat := p.start + p.len

/-- Two neighbours as one piece. -/
def join (p q : Piece) : Piece := { p with len := p.len + q.len }

/-- The last `n` addresses of a piece, in use. -/
def tail (p : Piece) (n : Nat) : Piece := ⟨p.stop - n, n, false⟩

/-- A piece with its end taken. A piece that has not more than that is taken as a whole. -/
def cut (n : Nat) (p : Piece) : List Piece :=
  if p.len ≤ n then [{ p with free := false }] else [⟨p.start, p.len - n, true⟩, p.tail n]

/-- A free piece has room for `n` addresses. -/
def fits (n : Nat) (p : Piece) : Bool := p.free && n ≤ p.len

/-- A piece fits when it is free and long enough. -/
theorem fits_iff {n : Nat} {p : Piece} : p.fits n = true ↔ p.free = true ∧ n ≤ p.len := by
  rw [fits, Bool.and_eq_true, decide_eq_true_iff]

/-- Free pieces may be joined in any order. -/
theorem joining : Joining (fun p : Piece => p.free = true) join where
  isOpen_join _ _ hp _ := hp
  assoc p q r _ _ _ := by
    rw [join, join, join, join]
    simp only [Nat.add_assoc]

end Piece

/-- The pieces follow each other from `lo` to `hi`, and none is empty. -/
def Tiled : Nat → List Piece → Nat → Prop
  | lo, [], hi => lo = hi
  | lo, p :: ps, hi => p.start = lo ∧ 0 < p.len ∧ Tiled p.stop ps hi

/-- No two free pieces are next to each other. -/
def Merged (ps : List Piece) : Prop := ps.IsChain fun p q => ¬ (p.free = true ∧ q.free = true)

/-- Joins the free pieces that are next to each other. -/
def merge (ps : List Piece) : List Piece := coalesce (fun p => p.free = true) Piece.join ps

/-- The pieces in use. -/
def used (ps : List Piece) : List Piece := ps.filter fun p => !p.free

/-- The free pieces. -/
def frees (ps : List Piece) : List Piece := ps.filter fun p => p.free

/-- The address is in a piece in use. -/
def InUse (ps : List Piece) (x : Nat) : Prop := ∃ p ∈ used ps, p.start ≤ x ∧ x < p.stop

/-- Takes `n` addresses from the end of the free piece at `x`. -/
def carve (x n : Nat) (ps : List Piece) : List Piece :=
  ps.flatMap fun p => if p.free = true ∧ p.start = x then p.cut n else [p]

/-- Gives the piece at `x` back. -/
def release (x : Nat) (ps : List Piece) : List Piece :=
  merge (ps.map fun p => if p.start = x then { p with free := true } else p)

/-- Adds `n` free addresses from `hi` on. -/
def extend (n hi : Nat) (ps : List Piece) : List Piece := merge (ps ++ [⟨hi, n, true⟩])

section
variable {lo hi x n : Nat} {p q : Piece} {ps qs pre suf : List Piece}

/-! ### Tilings -/

/-- A tiling by two lists, one behind the other. -/
theorem tiled_append : Tiled lo (ps ++ qs) hi ↔ ∃ mid, Tiled lo ps mid ∧ Tiled mid qs hi := by
  induction ps generalizing lo with
  | nil =>
      constructor
      · intro h
        exact ⟨lo, rfl, h⟩
      · intro ⟨mid, hlo, h⟩
        rw [show lo = mid from hlo]
        exact h
  | cons p ps ih =>
      rw [List.cons_append, Tiled, ih]
      constructor
      · intro ⟨hp, hlen, mid, hps, hqs⟩
        exact ⟨mid, ⟨hp, hlen, hps⟩, hqs⟩
      · intro ⟨mid, ⟨hp, hlen, hps⟩, hqs⟩
        exact ⟨hp, hlen, mid, hps, hqs⟩

/-- A tiling around one of its pieces. -/
theorem tiled_split :
    Tiled lo (pre ++ p :: suf) hi ↔ Tiled lo pre p.start ∧ 0 < p.len ∧ Tiled p.stop suf hi := by
  rw [tiled_append]
  constructor
  · intro ⟨mid, hpre, hp, hlen, hsuf⟩
    rw [hp]
    exact ⟨hpre, hlen, hsuf⟩
  · intro ⟨hpre, hlen, hsuf⟩
    exact ⟨p.start, hpre, rfl, hlen, hsuf⟩

/-- The end of a tiling is not in front of its start. -/
theorem Tiled.le (h : Tiled lo ps hi) : lo ≤ hi := by
  induction ps generalizing lo with
  | nil => exact Nat.le_of_eq h
  | cons p ps ih =>
      have htail := ih h.2.2
      have hstart := h.1
      unfold Piece.stop at htail
      omega

/-- A piece lies inside the arena. -/
theorem Tiled.mem_bounds (h : Tiled lo ps hi) (hp : p ∈ ps) :
    lo ≤ p.start ∧ p.start < p.stop ∧ p.stop ≤ hi := by
  obtain ⟨pre, suf, rfl⟩ := List.append_of_mem hp
  obtain ⟨hpre, hlen, hsuf⟩ := tiled_split.mp h
  have hlo := hpre.le
  have hhi := hsuf.le
  unfold Piece.stop at hhi ⊢
  omega

/-- The pieces in front of a piece end in front of it. -/
theorem Tiled.before (h : Tiled lo (pre ++ p :: suf) hi) (hq : q ∈ pre) : q.stop ≤ p.start :=
  ((tiled_split.mp h).1.mem_bounds hq).2.2

/-- The pieces behind a piece start behind it. -/
theorem Tiled.behind (h : Tiled lo (pre ++ p :: suf) hi) (hq : q ∈ suf) : p.stop ≤ q.start :=
  ((tiled_split.mp h).2.2.mem_bounds hq).1

/-- The pieces are in the order of their addresses. -/
theorem Tiled.pairwise (h : Tiled lo ps hi) : ps.Pairwise fun p q => p.stop ≤ q.start := by
  induction ps generalizing lo with
  | nil => exact List.Pairwise.nil
  | cons p ps ih =>
      exact List.pairwise_cons.mpr ⟨fun q hq => (h.2.2.mem_bounds hq).1, ih h.2.2⟩

/-- Two pieces do not overlap. -/
theorem Tiled.apart (h : Tiled lo ps hi) (hp : p ∈ ps) (hq : q ∈ ps) :
    p = q ∨ p.stop ≤ q.start ∨ q.stop ≤ p.start := by
  obtain ⟨pre, suf, rfl⟩ := List.append_of_mem hp
  rcases List.mem_append.mp hq with hq | hq
  · exact Or.inr (Or.inr (h.before hq))
  · rcases List.mem_cons.mp hq with rfl | hq
    · exact Or.inl rfl
    · exact Or.inr (Or.inl (h.behind hq))

/-- A piece is determined by its start. -/
theorem Tiled.eq_of_start (h : Tiled lo ps hi) (hp : p ∈ ps) (hq : q ∈ ps)
    (heq : p.start = q.start) : p = q := by
  have hplen := h.mem_bounds hp
  have hqlen := h.mem_bounds hq
  rcases h.apart hp hq with hsame | hle | hle
  · exact hsame
  · omega
  · omega

/-- The starts are different. -/
theorem Tiled.nodup (h : Tiled lo ps hi) : (ps.map Piece.start).Nodup := by
  refine List.pairwise_map.mpr (h.pairwise.imp_of_mem fun {p q} hp _ hle => ?_)
  have hlen := (h.mem_bounds hp).2.1
  omega

/-! ### Merging -/

/-- After a merge no two free pieces are neighbours. -/
theorem merged_merge (ps : List Piece) : Merged (merge ps) := isChain_coalesce ps

/-- Where nothing is left to merge, a merge changes nothing. So merging twice is merging once. -/
theorem Merged.merge_eq (h : Merged ps) : merge ps = ps := coalesce_eq_self h

/-- Which pieces around a piece may be free. -/
theorem merged_split : Merged (pre ++ p :: suf) ↔ Merged pre ∧ Merged suf ∧
    (∀ q, pre.getLast? = some q → ¬ (q.free = true ∧ p.free = true)) ∧
      ∀ q, suf.head? = some q → ¬ (p.free = true ∧ q.free = true) := by
  unfold Merged
  rw [List.isChain_append, List.isChain_cons]
  constructor
  · intro ⟨hpre, ⟨hhead, hsuf⟩, hlast⟩
    exact ⟨hpre, hsuf, fun q hq => hlast q hq p rfl, hhead⟩
  · intro ⟨hpre, hsuf, hlast, hhead⟩
    refine ⟨hpre, ⟨hhead, hsuf⟩, fun q hq r hr => ?_⟩
    rw [List.head?_cons, Option.mem_def, Option.some.injEq] at hr
    exact hr ▸ hlast q hq

/-- Any piece may stand between pieces in use. -/
theorem merged_between (q : Piece) (hpre : Merged pre) (hsuf : Merged suf)
    (hlast : ∀ r, pre.getLast? = some r → r.free = false)
    (hhead : ∀ r, suf.head? = some r → r.free = false) : Merged (pre ++ q :: suf) := by
  refine merged_split.mpr ⟨hpre, hsuf, fun r hr hboth => ?_, fun r hr hboth => ?_⟩
  · rw [hlast r hr] at hboth
    exact Bool.false_ne_true hboth.1
  · rw [hhead r hr] at hboth
    exact Bool.false_ne_true hboth.2

/-- The piece behind a free one is in use. -/
theorem Merged.head_used (h : Merged (p :: ps)) (hp : p.free = true) :
    ∀ r, ps.head? = some r → r.free = false := by
  intro r hr
  exact Bool.eq_false_iff.mpr fun hfree => (List.isChain_cons.mp h).1 r hr ⟨hp, hfree⟩

/-- The piece in front of a free one is in use. -/
theorem Merged.last_used (h : Merged (ps ++ [p])) (hp : p.free = true) :
    ∀ r, ps.getLast? = some r → r.free = false := by
  intro r hr
  exact Bool.eq_false_iff.mpr fun hfree => (merged_split.mp h).2.2.1 r hr ⟨hfree, hp⟩

/-- No piece is free. -/
theorem frees_eq_nil : frees ps = [] ↔ ∀ p ∈ ps, p.free = false := by
  rw [frees, List.filter_eq_nil_iff]
  simp only [Bool.not_eq_true]

/-- Two free neighbours may be joined first. -/
theorem merge_join (hp : p.free = true) (hq : q.free = true) :
    merge (pre ++ p.join q :: suf) = merge (pre ++ p :: q :: suf) :=
  Piece.joining.coalesce_join hp hq pre suf

/-- Merging does not touch the pieces in use. -/
theorem used_merge (ps : List Piece) : used (merge ps) = used ps :=
  filter_coalesce (fun p hp => by rw [hp]; rfl) Piece.joining.isOpen_join ps

/-- Merging keeps a tiling. A piece that is joined covers the bytes of the pieces that it comes
from. -/
theorem tiled_merge (h : Tiled lo ps hi) : Tiled lo (merge ps) hi := by
  induction ps generalizing lo with
  | nil => exact h
  | cons p ps ih =>
      obtain ⟨hstart, hlen, hrest⟩ := h
      have hmerged := ih hrest
      show Tiled lo (consJoin (fun p => p.free = true) Piece.join p (merge ps)) hi
      cases hps : merge ps with
      | nil =>
          rw [hps] at hmerged
          exact ⟨hstart, hlen, hmerged⟩
      | cons q qs =>
          rw [hps] at hmerged
          rw [consJoin]
          split
          · obtain ⟨hq, hqlen, hqs⟩ := hmerged
            have hstop : (p.join q).stop = q.stop := by
              unfold Piece.stop at hq ⊢
              show p.start + (p.len + q.len) = q.start + q.len
              omega
            refine ⟨hstart, ?_, hstop ▸ hqs⟩
            show 0 < p.len + q.len
            omega
          · exact ⟨hstart, hlen, hmerged⟩

/-- Two neighbours of a tiling, joined. -/
theorem tiled_join (h : Tiled lo (pre ++ p :: q :: suf) hi) :
    Tiled lo (pre ++ p.join q :: suf) hi := by
  obtain ⟨hpre, hlen, hq, hqlen, hsuf⟩ := tiled_split.mp h
  have hstop : (p.join q).stop = q.stop := by
    unfold Piece.stop at hq ⊢
    show p.start + (p.len + q.len) = q.start + q.len
    omega
  refine tiled_split.mpr ⟨hpre, ?_, hstop ▸ hsuf⟩
  show 0 < p.len + q.len
  omega

/-! ### Taking and giving back -/

/-- A function that changes the piece at `x` only. -/
theorem Tiled.flatMap_split {f : Piece → List Piece} (h : Tiled lo (pre ++ p :: suf) hi)
    (hf : ∀ q, q.start ≠ p.start → f q = [q]) :
    (pre ++ p :: suf).flatMap f = pre ++ f p ++ suf := by
  have hsame : ∀ qs : List Piece, (∀ q ∈ qs, q.start ≠ p.start) → qs.flatMap f = qs := by
    intro qs hqs
    rw [List.flatMap_congr fun q hq => hf q (hqs q hq)]
    exact List.flatMap_singleton' qs
  have hlen := (tiled_split.mp h).2.1
  have hpre := hsame pre fun q hq => by
    have hle := h.before hq
    have hqlen := (h.mem_bounds (List.mem_append_left _ hq)).2.1
    omega
  have hsuf := hsame suf fun q hq => by
    have hle := h.behind hq
    unfold Piece.stop at hle
    omega
  rw [List.flatMap_append, List.flatMap_cons, hpre, hsuf, List.append_assoc]

/-- `carve` around the piece. -/
theorem Tiled.carve_split (h : Tiled lo (pre ++ p :: suf) hi) (hp : p.free = true) :
    carve p.start n (pre ++ p :: suf) = pre ++ p.cut n ++ suf := by
  unfold carve
  rw [h.flatMap_split fun q hq => if_neg fun hboth => hq hboth.2, if_pos ⟨hp, rfl⟩]

/-- `release` around the piece. -/
theorem Tiled.release_split (h : Tiled lo (pre ++ p :: suf) hi) :
    release p.start (pre ++ p :: suf) = merge (pre ++ { p with free := true } :: suf) := by
  have hmap := h.flatMap_split
    (f := fun q => [if q.start = p.start then { q with free := true } else q])
    fun q hq => by rw [if_neg hq]
  rw [← List.map_eq_flatMap] at hmap
  rw [release, hmap, if_pos rfl, List.append_assoc, List.singleton_append]

/-- The pieces that a piece is cut into. -/
theorem Piece.tiled_cut (hlen : 0 < p.len) (hn : 0 < n) : Tiled p.start (p.cut n) p.stop := by
  rw [Piece.cut]
  split
  · exact ⟨rfl, hlen, rfl⟩
  · refine ⟨rfl, ?_, ?_, hn, ?_⟩
    · show 0 < p.len - n
      omega
    · show p.stop - n = p.start + (p.len - n)
      unfold Piece.stop
      omega
    · show p.stop - n + n = p.stop
      unfold Piece.stop
      omega

/-- `carve` keeps a tiling. -/
theorem tiled_carve (h : Tiled lo ps hi) (hn : 0 < n) : Tiled lo (carve x n ps) hi := by
  induction ps generalizing lo with
  | nil => exact h
  | cons p ps ih =>
      obtain ⟨hstart, hlen, hrest⟩ := h
      rw [carve, List.flatMap_cons]
      refine tiled_append.mpr ⟨p.stop, ?_, ih hrest⟩
      rw [← hstart]
      split
      · exact Piece.tiled_cut hlen hn
      · exact ⟨rfl, hlen, rfl⟩

/-- `release` keeps a tiling. -/
theorem tiled_release (h : Tiled lo ps hi) : Tiled lo (release x ps) hi := by
  refine tiled_merge ?_
  induction ps generalizing lo with
  | nil => exact h
  | cons p ps ih =>
      obtain ⟨hstart, hlen, hrest⟩ := h
      rw [List.map_cons]
      split
      · exact ⟨hstart, hlen, ih hrest⟩
      · exact ⟨hstart, hlen, ih hrest⟩

/-- `extend` makes a tiling of a longer range. -/
theorem tiled_extend (h : Tiled lo ps hi) (hn : 0 < n) : Tiled lo (extend n hi ps) (hi + n) :=
  tiled_merge (tiled_append.mpr ⟨hi, h, rfl, hn, rfl⟩)

/-- Taking the end of a free piece makes no free neighbours. The end is in use, and the rest stands
where the piece was. -/
theorem merged_carve (h : Merged ps) : Merged (carve x n ps) := by
  induction ps with
  | nil => exact List.isChain_nil
  | cons p ps ih =>
      rw [carve, List.flatMap_cons]
      have hrest := ih h.tail
      -- The head of the rest is free only if it was.
      have hhead : ∀ q, (carve x n ps).head? = some q → q.free = true →
          ∃ r, ps.head? = some r ∧ r.free = true := by
        intro q hq hfree
        cases ps with
        | nil => cases hq
        | cons r ps =>
            refine ⟨r, rfl, ?_⟩
            rw [carve, List.flatMap_cons] at hq
            split at hq
            · rename_i hr
              exact hr.1
            · rw [List.singleton_append, List.head?_cons, Option.some.injEq] at hq
              rw [hq]
              exact hfree
      have hclosed : ∀ r : Piece, r.free = false →
          Merged (r :: carve x n ps) := by
        intro r hr
        refine List.isChain_cons.mpr ⟨fun q _ hboth => ?_, hrest⟩
        rw [hr] at hboth
        exact absurd hboth.1 Bool.false_ne_true
      split
      · rw [Piece.cut]
        split
        · exact hclosed _ rfl
        · refine List.isChain_cons_cons.mpr ⟨?_, hclosed (p.tail n) rfl⟩
          rintro ⟨-, htail⟩
          cases htail
      · refine List.isChain_cons.mpr ⟨fun q hq hboth => ?_, hrest⟩
        obtain ⟨r, hr, hfree⟩ := hhead q hq hboth.2
        exact (List.isChain_cons.mp h).1 r hr ⟨hboth.1, hfree⟩

/-! ### The pieces in use -/

/-- The used pieces are those that are not free. -/
theorem mem_used : p ∈ used ps ↔ p ∈ ps ∧ p.free = false := by
  rw [used, List.mem_filter, Bool.not_eq_true']

/-- The free pieces, as a list, are those that are free. -/
theorem mem_frees : p ∈ frees ps ↔ p ∈ ps ∧ p.free = true := by
  rw [frees, List.mem_filter]

/-- The addresses of a free piece are not in use. -/
theorem Tiled.not_inUse (h : Tiled lo ps hi) (hp : p ∈ ps) (hfree : p.free = true)
    (hlo : p.start ≤ x) (hhi : x < p.stop) : ¬ InUse ps x := by
  intro ⟨q, hq, hqlo, hqhi⟩
  obtain ⟨hmem, hused⟩ := mem_used.mp hq
  rcases h.apart hp hmem with rfl | hle | hle
  · rw [hfree] at hused
    cases hused
  · omega
  · omega

/-- The addresses in front of the arena are not in use. -/
theorem Tiled.not_inUse_of_lt (h : Tiled lo ps hi) (hx : x < lo) : ¬ InUse ps x := by
  intro ⟨q, hq, hqlo, _⟩
  have hbounds := h.mem_bounds (mem_used.mp hq).1
  omega

/-- The addresses behind the arena are not in use. -/
theorem Tiled.not_inUse_of_le (h : Tiled lo ps hi) (hx : hi ≤ x) : ¬ InUse ps x := by
  intro ⟨q, hq, _, hqhi⟩
  have hbounds := h.mem_bounds (mem_used.mp hq).1
  omega

/-- `extend` adds no piece in use. -/
theorem used_extend (n hi : Nat) (ps : List Piece) : used (extend n hi ps) = used ps := by
  rw [extend, used_merge, used, List.filter_append]
  exact List.append_nil _

/-- `release` takes one piece out of use. -/
theorem Tiled.used_release (h : Tiled lo (pre ++ p :: suf) hi) :
    used (release p.start (pre ++ p :: suf)) = used pre ++ used suf := by
  rw [h.release_split, used_merge, used, List.filter_append, List.filter_cons]
  rfl

/-- Giving a piece back leaves the other pieces in use. -/
theorem Tiled.inUse_release (h : Tiled lo (pre ++ p :: suf) hi)
    (hx : InUse (release p.start (pre ++ p :: suf)) x) :
    InUse (pre ++ p :: suf) x ∧ ¬ (p.start ≤ x ∧ x < p.stop) := by
  obtain ⟨q, hq, hlo, hhi⟩ := hx
  rw [h.used_release, List.mem_append] at hq
  rcases hq with hq | hq
  · have hmem := mem_used.mp hq
    have hle := h.before hmem.1
    exact ⟨⟨q, mem_used.mpr ⟨List.mem_append_left _ hmem.1, hmem.2⟩, hlo, hhi⟩, by omega⟩
  · have hmem := mem_used.mp hq
    have hle := h.behind hmem.1
    exact ⟨⟨q, mem_used.mpr ⟨List.mem_append_right _ (List.mem_cons_of_mem _ hmem.1), hmem.2⟩, hlo,
      hhi⟩, by omega⟩

/-- `carve` takes one piece into use. -/
theorem Tiled.used_carve (h : Tiled lo (pre ++ p :: suf) hi) (hp : p.free = true) (hn : n ≤ p.len) :
    used (carve p.start n (pre ++ p :: suf)) = used pre ++ p.tail n :: used suf := by
  have hcut : used (p.cut n) = [p.tail n] := by
    rw [Piece.cut]
    split
    · -- The piece has exactly this length.
      have htail : p.tail n = { p with free := false } := by
        rw [Piece.tail, Piece.stop, show p.len = n by omega, Nat.add_sub_cancel]
      rw [htail]
      rfl
    · rfl
  rw [h.carve_split hp, used, List.filter_append, List.filter_append]
  show used pre ++ used (p.cut n) ++ used suf = _
  rw [hcut, List.append_assoc, List.singleton_append]

/-- `extend` makes the last piece longer when it is free, and else a new one. -/
theorem extend_cases (n hi : Nat) (h : Merged ps) :
    (∃ xs e, ps = xs ++ [e] ∧ e.free = true ∧
        SysProg.Lib.extend n hi ps = xs ++ [e.join ⟨hi, n, true⟩]) ∨
      (∀ d, ps.getLast? = some d → d.free = false) ∧
        SysProg.Lib.extend n hi ps = ps ++ [⟨hi, n, true⟩] := by
  have hnone : ∀ r : Piece, ([] : List Piece).head? = some r → r.free = false := by
    intro r hr
    cases hr
  cases ps using List.reverseRecOn with
  | nil => exact Or.inr ⟨fun d hd => (by cases hd), rfl⟩
  | append_singleton xs e =>
      rw [SysProg.Lib.extend]
      cases he : e.free with
      | true =>
          refine Or.inl ⟨xs, e, rfl, he, ?_⟩
          have hxs : Merged xs := (List.isChain_append.mp h).1
          have hmerged : Merged (xs ++ [e.join ⟨hi, n, true⟩]) :=
            merged_between _ hxs List.isChain_nil (h.last_used he) hnone
          rw [List.append_assoc, List.singleton_append, ← merge_join he rfl, hmerged.merge_eq]
      | false =>
          have hlast : ∀ d, (xs ++ [e]).getLast? = some d → d.free = false := by
            intro d hd
            rw [List.getLast?_concat, Option.some.injEq] at hd
            exact hd ▸ he
          exact Or.inr ⟨hlast, (merged_between _ h List.isChain_nil hlast hnone).merge_eq⟩

/-- Free pieces with a first part, a piece and a rest. -/
theorem frees_split {xs ys : List Piece} (h : frees ps = xs ++ p :: ys) :
    ∃ pre suf, ps = pre ++ p :: suf ∧ frees pre = xs ∧ frees suf = ys ∧ p.free = true := by
  obtain ⟨pre, rest, rfl, hpre, hrest⟩ := List.filter_eq_append_iff.mp h
  obtain ⟨mid, suf, rfl, hmid, hp, hsuf⟩ := List.filter_eq_cons_iff.mp hrest
  refine ⟨pre ++ mid, suf, by rw [List.append_assoc], ?_, hsuf, hp⟩
  rw [frees, List.filter_append, hpre, List.filter_eq_nil_iff.mpr hmid, List.append_nil]

/-! ### The pieces in use determine the arena -/

/-- A free piece ends where the next piece in use starts, or at the end of the arena. -/
theorem Tiled.stop_of_free (h : Tiled lo (p :: ps) hi) (hm : Merged (p :: ps))
    (hp : p.free = true) : p.stop = ((used ps).head?.map Piece.start).getD hi := by
  cases ps with
  | nil => exact h.2.2
  | cons q ps =>
      have hq : q.free = false := by
        have hnot := (List.isChain_cons_cons.mp hm).1
        exact Bool.eq_false_iff.mpr fun hq => hnot ⟨hp, hq⟩
      rw [used, List.filter_cons, hq]
      exact h.2.2.1.symm

/-- Two merged tilings with the same pieces in use are the same. Between two pieces in use there is
at most one free piece, and it covers what is between them. -/
theorem Tiled.eq_of_used (h : Tiled lo ps hi) (h' : Tiled lo qs hi) (hm : Merged ps)
    (hm' : Merged qs) (hused : used ps = used qs) : ps = qs := by
  induction ps generalizing lo qs with
  | nil =>
      cases qs with
      | nil => rfl
      | cons q qs =>
          have hlo : lo = hi := h
          have hq := h'.mem_bounds List.mem_cons_self
          omega
  | cons p ps ih =>
      cases qs with
      | nil =>
          have hlo : lo = hi := h'
          have hp := h.mem_bounds List.mem_cons_self
          omega
      | cons q qs =>
          have hstart : p.start = q.start := h.1.trans h'.1.symm
          -- A piece in use that starts where a free one does would be behind it.
          have hfree : ∀ {a b : Piece} {as bs : List Piece}, Tiled lo (a :: as) hi →
              a.start = b.start → a.free = true → b.free = false →
              used (a :: as) ≠ used (b :: bs) := by
            intro a b as bs hab hsame ha hb heq
            rw [used, used, List.filter_cons, List.filter_cons, ha, hb] at heq
            have hmem : b ∈ used as := by
              rw [show used as = b :: used bs from heq]
              exact List.mem_cons_self
            have hle := (hab.2.2.mem_bounds (mem_used.mp hmem).1).1
            have hlt := (hab.mem_bounds List.mem_cons_self).2.1
            omega
          -- The two heads are the same piece.
          have hhead : p = q ∧ used ps = used qs := by
            cases hp : p.free with
            | false =>
                cases hq : q.free with
                | false =>
                    rw [used, used, List.filter_cons, List.filter_cons, hp, hq] at hused
                    exact List.cons.inj hused
                | true => exact absurd hused.symm (hfree h' hstart.symm hq hp)
            | true =>
                cases hq : q.free with
                | false => exact absurd hused (hfree h hstart hp hq)
                | true =>
                    rw [used, used, List.filter_cons, List.filter_cons, hp, hq] at hused
                    have htails : used ps = used qs := hused
                    have hstop := h.stop_of_free hm hp
                    rw [htails, ← h'.stop_of_free hm' hq] at hstop
                    unfold Piece.stop at hstop
                    exact ⟨Piece.ext hstart (by omega) (hp.trans hq.symm), htails⟩
          obtain ⟨rfl, htails⟩ := hhead
          rw [ih h.2.2 h'.2.2 hm.tail hm'.tail htails]

/-- Two tilings that use the same pieces use them in the same order. -/
theorem Tiled.used_eq_of_perm (h : Tiled lo ps hi) (h' : Tiled lo qs hi)
    (hperm : (used ps).Perm (used qs)) : used ps = used qs := by
  have hsorted : ∀ {rs : List Piece}, Tiled lo rs hi →
      (used rs).Pairwise fun p q => p.stop ≤ q.start :=
    fun hrs => hrs.pairwise.sublist List.filter_sublist
  refine hperm.eq_of_pairwise (fun p q hp hq hpq hqp => ?_) (hsorted h) (hsorted h')
  -- Neither of two pieces can be in front of the other.
  have hplen := (h.mem_bounds (mem_used.mp hp).1).2.1
  have hqlen := (h'.mem_bounds (mem_used.mp hq).1).2.1
  omega

end

/-- A range of addresses with the pieces it is cut into. -/
@[ext] structure Arena where
  lo : Nat
  hi : Nat
  pieces : List Piece
  tiled : Tiled lo pieces hi
  merged : Merged pieces

namespace Arena

/-- The arena without an address. -/
def empty (lo : Nat) : Arena where
  lo := lo
  hi := lo
  pieces := []
  tiled := rfl
  merged := List.isChain_nil

/-- Takes `n` addresses from the end of the free piece at `x`. -/
def carve (a : Arena) (x n : Nat) (hn : 0 < n) : Arena where
  lo := a.lo
  hi := a.hi
  pieces := SysProg.Lib.carve x n a.pieces
  tiled := tiled_carve a.tiled hn
  merged := merged_carve a.merged

/-- Gives the piece at `x` back. -/
def release (a : Arena) (x : Nat) : Arena where
  lo := a.lo
  hi := a.hi
  pieces := SysProg.Lib.release x a.pieces
  tiled := tiled_release a.tiled
  merged := merged_merge _

/-- Adds `n` free addresses. -/
def extend (a : Arena) (n : Nat) (hn : 0 < n) : Arena where
  lo := a.lo
  hi := a.hi + n
  pieces := SysProg.Lib.extend n a.hi a.pieces
  tiled := tiled_extend a.tiled hn
  merged := merged_merge _

/-- The free piece with the lowest address that has room for `n`. -/
def firstFit (a : Arena) (n : Nat) : Option Piece := a.pieces.find? (Piece.fits n)

/-- The first free piece behind `r` that has room for `n`. Behind the last piece the search goes
on at the lowest address. -/
def nextFit (a : Arena) (r n : Nat) : Option Piece :=
  (a.pieces.filter (fun p => r < p.start) ++ a.pieces.filter fun p => p.start ≤ r).find?
    (Piece.fits n)

/-- The last free piece in front of `x`. -/
def lastFreeBelow (a : Arena) (x : Nat) : Option Piece :=
  ((frees a.pieces).filter fun p => p.start < x).getLast?

/-- What `firstFit` finds: no free piece in front of it has room. -/
theorem firstFit_eq_some {a : Arena} {n : Nat} {p : Piece} : a.firstFit n = some p ↔
    (p.free = true ∧ n ≤ p.len) ∧ ∃ pre suf, a.pieces = pre ++ p :: suf ∧
      ∀ q ∈ pre, ¬ (q.free = true ∧ n ≤ q.len) := by
  rw [firstFit, List.find?_eq_some_iff_append, Piece.fits_iff]
  simp only [Bool.not_eq_true', ← Bool.not_eq_true, Piece.fits_iff]

/-- `firstFit` finds nothing when no free piece has room. -/
theorem firstFit_eq_none {a : Arena} {n : Nat} :
    a.firstFit n = none ↔ ∀ q ∈ a.pieces, ¬ (q.free = true ∧ n ≤ q.len) := by
  rw [firstFit, List.find?_eq_none]
  simp only [Piece.fits_iff]

/-- `a` comes in front of `b` on the way up from `r` and around. -/
def Earlier (r a b : Nat) : Prop := (r < a ∧ (b ≤ r ∨ a < b)) ∨ (a ≤ r ∧ b ≤ r ∧ a < b)

/-- The way around from behind `r`, which ends at `r`. It passes what is above `r` first, then what
is below it, and both in order. -/
theorem pairwise_earlier {as bs : List Nat} {r : Nat}
    (h : (as ++ r :: bs).Pairwise fun a b => a < b) :
    (bs ++ as ++ [r]).Pairwise (Earlier r) := by
  obtain ⟨has, hrbs, hcross⟩ := List.pairwise_append.mp h
  obtain ⟨hr, hbs⟩ := List.pairwise_cons.mp hrbs
  have hbelow : ∀ a ∈ as, a < r := fun a ha => hcross a ha _ List.mem_cons_self
  refine List.pairwise_append.mpr ⟨List.pairwise_append.mpr ⟨?_, ?_, ?_⟩,
    List.pairwise_singleton _ _, ?_⟩
  · exact hbs.imp_of_mem fun {a b} ha _ hab => Or.inl ⟨hr a ha, Or.inr hab⟩
  · refine has.imp_of_mem fun {a b} ha hb hab => ?_
    have ha' := hbelow a ha
    have hb' := hbelow b hb
    exact Or.inr ⟨by omega, by omega, hab⟩
  · intro b hb a ha
    have ha' := hbelow a ha
    exact Or.inl ⟨hr b hb, Or.inl (by omega)⟩
  · intro a ha b hb
    rw [List.mem_singleton.mp hb]
    rcases List.mem_append.mp ha with ha | ha
    · exact Or.inl ⟨hr a ha, Or.inl (Nat.le_refl _)⟩
    · exact Or.inr ⟨Nat.le_of_lt (hbelow a ha), Nat.le_refl _, hbelow a ha⟩

/-- What `nextFit` finds: no free piece on the way to it has room. The other direction is not
needed, as the search is a function. -/
theorem nextFit_eq_some {a : Arena} {r n : Nat} {p : Piece} (hp : p ∈ a.pieces)
    (hfree : p.free = true) (hn : n ≤ p.len)
    (hfirst : ∀ q ∈ a.pieces, q.free = true → n ≤ q.len → ¬ Earlier r q.start p.start) :
    a.nextFit r n = some p := by
  rw [nextFit]
  generalize hps : a.pieces.filter (fun p => r < p.start)
    ++ a.pieces.filter (fun p => p.start ≤ r) = ps
  -- The pieces are listed in the order in which the search meets them.
  have hsorted : ps.Pairwise fun p q => Earlier r p.start q.start := by
    have hlt : a.pieces.Pairwise fun p q => p.start < q.start :=
      a.tiled.pairwise.imp_of_mem fun {p q} hp _ hle => by
        have hbounds := a.tiled.mem_bounds hp
        omega
    rw [← hps]
    refine List.pairwise_append.mpr ⟨?_, ?_, ?_⟩
    · refine (hlt.sublist List.filter_sublist).imp_of_mem fun {p q} hp _ hpq => ?_
      exact Or.inl ⟨of_decide_eq_true (List.mem_filter.mp hp).2, Or.inr hpq⟩
    · refine (hlt.sublist List.filter_sublist).imp_of_mem fun {p q} hp hq hpq => ?_
      exact Or.inr ⟨of_decide_eq_true (List.mem_filter.mp hp).2,
        of_decide_eq_true (List.mem_filter.mp hq).2, hpq⟩
    · intro p hp q hq
      exact Or.inl ⟨of_decide_eq_true (List.mem_filter.mp hp).2,
        Or.inl (of_decide_eq_true (List.mem_filter.mp hq).2)⟩
  have hall : ∀ q, q ∈ ps ↔ q ∈ a.pieces := by
    intro q
    rw [← hps, List.mem_append, List.mem_filter, List.mem_filter, decide_eq_true_iff,
      decide_eq_true_iff]
    constructor
    · exact fun h => h.elim And.left And.left
    · exact fun h => (Nat.lt_or_ge r q.start).imp (And.intro h) (And.intro h)
  obtain ⟨pre, suf, hsplit⟩ := List.append_of_mem ((hall p).mpr hp)
  refine List.find?_eq_some_iff_append.mpr ⟨Piece.fits_iff.mpr ⟨hfree, hn⟩, pre, suf, hsplit, ?_⟩
  intro q hq
  rw [Bool.not_eq_true', ← Bool.not_eq_true, Piece.fits_iff]
  intro hboth
  rw [hsplit] at hsorted
  refine hfirst q ((hall q).mp ?_) hboth.1 hboth.2
    ((List.pairwise_append.mp hsorted).2.2 q hq p List.mem_cons_self)
  rw [hsplit]
  exact List.mem_append_left _ hq

/-- `nextFit` finds nothing when no free piece has room. -/
theorem nextFit_eq_none {a : Arena} {r n : Nat}
    (h : ∀ q ∈ a.pieces, q.free = true → ¬ n ≤ q.len) : a.nextFit r n = none := by
  rw [nextFit, List.find?_eq_none]
  intro q hq
  rw [Piece.fits_iff]
  intro hboth
  refine h q ?_ hboth.1 hboth.2
  rcases List.mem_append.mp hq with hq | hq
  · exact (List.mem_filter.mp hq).1
  · exact (List.mem_filter.mp hq).1

/-- `nextFit` finds a free piece that has room. -/
theorem mem_of_nextFit {a : Arena} {r n : Nat} {p : Piece} (h : a.nextFit r n = some p) :
    p ∈ a.pieces ∧ p.free = true ∧ n ≤ p.len := by
  rw [nextFit] at h
  refine ⟨?_, Piece.fits_iff.mp (List.find?_some h)⟩
  rcases List.mem_append.mp (List.mem_of_find?_eq_some h) with hp | hp
  · exact (List.mem_filter.mp hp).1
  · exact (List.mem_filter.mp hp).1

/-- The pieces in use determine the arena. -/
theorem eq_of_used {a b : Arena} (hlo : a.lo = b.lo) (hhi : a.hi = b.hi)
    (hperm : (used a.pieces).Perm (used b.pieces)) : a = b := by
  have hb : Tiled a.lo b.pieces a.hi := by
    rw [hlo, hhi]
    exact b.tiled
  have hused := a.tiled.used_eq_of_perm hb hperm
  exact Arena.ext hlo hhi (a.tiled.eq_of_used hb a.merged b.merged hused)

end Arena

end SysProg.Lib
