import SysProg.Lib.Arena
import SysProg.Lib.ByteMemory
import SysProg.Lib.Chain

/-!
# `SysProg.Lib.Headers`: an arena whose pieces have headers in memory

Each piece of an arena starts with a header of a fixed width. It holds the length of the piece in
units of that width, its span, and a link. `HeaderLayout` has the accessors of the two fields and
their laws, and further fields do not matter.

* `Laid` says that the spans in memory are those of the pieces of a tiling.
* `Laid.setNext` frames a write to a link, and `Laid.join`, `Laid.cut` and `Laid.snoc` are what
  the writes to the spans do to the tiling.
* `FreeChain` is the list of the free pieces, in the order of their addresses.
* `Within` says which bytes an operation may change.
-/

set_option autoImplicit false

namespace SysProg.Lib

/-! ### Changes to a memory -/

/-- Only bytes of `S` differ. -/
def Within (S : Nat → Prop) (m m' : Mem) : Prop := ∀ x, ¬ S x → m'.byte x = m.byte x

section
variable {S T : Nat → Prop} {m m' m'' : Mem}

/-- A memory differs from itself nowhere. -/
theorem Within.refl (S : Nat → Prop) (m : Mem) : Within S m m := fun _ _ => rfl

/-- Two changes one after the other, both within the same bytes. -/
theorem Within.trans (h : Within S m m') (h' : Within S m' m'') : Within S m m'' :=
  fun x hx => (h' x hx).trans (h x hx)

/-- A change within some bytes is one within more of them. -/
theorem Within.mono (h : Within S m m') (hST : ∀ x, S x → T x) : Within T m m' :=
  fun x hx => h x fun hS => hx (hST x hS)

end

/-! ### Headers -/

/-- The span and the link in a header of `width` bytes, with their accessors. -/
structure HeaderLayout where
  width : Nat
  maxSpan : Nat
  span : Mem → Nat → Nat
  setSpan : Mem → Nat → Nat → Mem
  next : Mem → Nat → Nat
  setNext : Mem → Nat → Nat → Mem
  width_pos : 0 < width
  span_setSpan : ∀ m c {v}, v ≤ maxSpan → span (setSpan m c v) c = v
  next_setNext : ∀ m c {v}, v < 2 ^ 64 → next (setNext m c v) c = v
  span_setNext : ∀ m c v, span (setNext m c v) c = span m c
  next_setSpan : ∀ m c v, next (setSpan m c v) c = next m c
  span_congr : ∀ {m m' c}, (∀ x, c ≤ x → x < c + width → m'.byte x = m.byte x) →
    span m' c = span m c
  next_congr : ∀ {m m' c}, (∀ x, c ≤ x → x < c + width → m'.byte x = m.byte x) →
    next m' c = next m c
  setSpan_within : ∀ m c v, Within (fun x => c ≤ x ∧ x < c + width) m (setSpan m c v)
  setNext_within : ∀ m c v, Within (fun x => c ≤ x ∧ x < c + width) m (setNext m c v)

namespace HeaderLayout

variable (L : HeaderLayout)

/-- Two headers are the same or do not overlap. -/
def Apart (c d : Nat) : Prop := c = d ∨ c + L.width ≤ d ∨ d + L.width ≤ c

variable {L} {m : Mem} {c d v : Nat}

/-- A write to another header does not matter to a header. Its bytes are apart from those that the
write may change. -/
theorem congr_of_ne (h : L.Apart c d) (hne : d ≠ c) {m' : Mem}
    (hw : Within (fun x => c ≤ x ∧ x < c + L.width) m m') :
    ∀ x, d ≤ x → x < d + L.width → m'.byte x = m.byte x := by
  intro x hlo hhi
  refine hw x fun hx => ?_
  rcases h with heq | hle | hle
  · exact hne heq.symm
  · omega
  · omega

/-- A write to a link leaves the span of every header alone. Within one header the two fields are
apart, and other headers do not overlap. -/
theorem span_setNext_apart (h : L.Apart c d) : L.span (L.setNext m c v) d = L.span m d := by
  by_cases heq : d = c
  · rw [heq, L.span_setNext]
  · exact L.span_congr (congr_of_ne h heq (L.setNext_within m c v))

/-- A write to a span leaves the link of every header alone. -/
theorem next_setSpan_apart (h : L.Apart c d) : L.next (L.setSpan m c v) d = L.next m d := by
  by_cases heq : d = c
  · rw [heq, L.next_setSpan]
  · exact L.next_congr (congr_of_ne h heq (L.setSpan_within m c v))

/-- A write to a span leaves the spans of the other headers alone. -/
theorem span_setSpan_apart (h : L.Apart c d) (hne : d ≠ c) :
    L.span (L.setSpan m c v) d = L.span m d :=
  L.span_congr (congr_of_ne h hne (L.setSpan_within m c v))

/-- A write to a link leaves the links of the other headers alone. -/
theorem next_setNext_apart (h : L.Apart c d) (hne : d ≠ c) :
    L.next (L.setNext m c v) d = L.next m d :=
  L.next_congr (congr_of_ne h hne (L.setNext_within m c v))

end HeaderLayout

/-- The pieces `ps` tile the arena, and each has its span in its header. -/
structure Laid (L : HeaderLayout) (m : Mem) (lo : Nat) (ps : List Piece) (hi : Nat) : Prop where
  tiled : Tiled lo ps hi
  span : ∀ p ∈ ps, L.width * L.span m p.start = p.len

namespace Laid

variable {L : HeaderLayout} {m m' : Mem} {lo hi c v : Nat} {p q : Piece}
  {ps pre suf : List Piece}

/-- A piece has room for its header. Its length is a positive multiple of the width. -/
theorem width_le (h : Laid L m lo ps hi) (hp : p ∈ ps) : L.width ≤ p.len := by
  have hlen := (h.tiled.mem_bounds hp).2.1
  have hspan := h.span p hp
  unfold Piece.stop at hlen
  cases hk : L.span m p.start with
  | zero =>
      rw [hk, Nat.mul_zero] at hspan
      omega
  | succ k =>
      rw [hk, Nat.mul_succ] at hspan
      omega

/-- There is room for the headers of all pieces. So an arena with an end has a bound on the number
of its pieces. -/
theorem length_le (h : Laid L m lo ps hi) : L.width * ps.length + lo ≤ hi := by
  have hlen : ∀ {qs : List Piece} {a : Nat}, Tiled a qs hi → (∀ q ∈ qs, L.width ≤ q.len) →
      L.width * qs.length + a ≤ hi := by
    intro qs
    induction qs with
    | nil =>
        intro a ht _
        have heq : a = hi := ht
        rw [List.length_nil, Nat.mul_zero]
        omega
    | cons q qs ih =>
        intro a ht hw
        have hq := hw q List.mem_cons_self
        have hrest := ih ht.2.2 fun r hr => hw r (List.mem_cons_of_mem _ hr)
        have hstart := ht.1
        rw [List.length_cons, Nat.mul_succ]
        unfold Piece.stop at hrest
        omega
  exact hlen h.tiled fun q hq => h.width_le hq

/-- The headers of the pieces are apart, as the pieces do not overlap. -/
theorem apart (h : Laid L m lo ps hi) (hp : p ∈ ps) (hq : q ∈ ps) :
    L.Apart p.start q.start := by
  have hpw := h.width_le hp
  have hqw := h.width_le hq
  unfold HeaderLayout.Apart
  rcases h.tiled.apart hp hq with heq | hle | hle
  · exact Or.inl (congrArg Piece.start heq)
  · unfold Piece.stop at hle
    omega
  · unfold Piece.stop at hle
    omega

/-- A write that keeps the spans of the pieces. Where the pieces are does not depend on anything
else. -/
theorem congr (h : Laid L m lo ps hi) (hsame : ∀ p ∈ ps, L.span m' p.start = L.span m p.start) :
    Laid L m' lo ps hi :=
  ⟨h.tiled, fun p hp => by rw [hsame p hp, h.span p hp]⟩

/-- A write to a link. It keeps all spans, so the layout stays. -/
theorem setNext (h : Laid L m lo ps hi) (hc : ∀ p ∈ ps, L.Apart c p.start) :
    Laid L (L.setNext m c v) lo ps hi :=
  h.congr fun p hp => HeaderLayout.span_setNext_apart (hc p hp)

/-- Whether a piece is free does not matter to the layout. It is a mark of the model, and a manager
has its own field for it, or none. -/
theorem setFree (h : Laid L m lo (pre ++ p :: suf) hi) (b : Bool) :
    Laid L m lo (pre ++ { p with free := b } :: suf) hi := by
  have hsplit := tiled_split.mp h.tiled
  refine ⟨tiled_split.mpr hsplit, fun q hq => ?_⟩
  rcases List.mem_append.mp hq with hq | hq
  · exact h.span q (List.mem_append_left _ hq)
  · rcases List.mem_cons.mp hq with rfl | hq
    · exact h.span p (List.mem_append_right _ List.mem_cons_self)
    · exact h.span q (List.mem_append_right _ (List.mem_cons_of_mem _ hq))

/-- Two neighbours become one, when the first has the sum of their spans. The sum has to be a span
too. The header of the second is then inside of the joined piece. -/
theorem join (h : Laid L m lo (pre ++ p :: q :: suf) hi)
    (hmax : L.span m p.start + L.span m q.start ≤ L.maxSpan) :
    Laid L (L.setSpan m p.start (L.span m p.start + L.span m q.start)) lo
      (pre ++ p.join q :: suf) hi := by
  refine ⟨tiled_join h.tiled, fun r hr => ?_⟩
  have hp : p ∈ pre ++ p :: q :: suf := List.mem_append_right _ List.mem_cons_self
  have hq : q ∈ pre ++ p :: q :: suf :=
    List.mem_append_right _ (List.mem_cons_of_mem _ List.mem_cons_self)
  -- The other pieces are none of the two, so their headers are elsewhere.
  have hother : ∀ r ∈ pre ++ p :: q :: suf, r.start ≠ p.start →
      L.width * L.span (L.setSpan m p.start (L.span m p.start + L.span m q.start)) r.start
        = r.len := by
    intro r hr hne
    rw [HeaderLayout.span_setSpan_apart (h.apart hp hr) hne, h.span r hr]
  have hplen := (h.tiled.mem_bounds hp).2.1
  rcases List.mem_append.mp hr with hr | hr
  · refine hother r (List.mem_append_left _ hr) ?_
    have hle := h.tiled.before hr
    have hrlen := (h.tiled.mem_bounds (List.mem_append_left _ hr)).2.1
    omega
  · rcases List.mem_cons.mp hr with rfl | hr
    · show L.width * L.span _ p.start = p.len + q.len
      rw [L.span_setSpan m p.start hmax, Nat.mul_add, h.span p hp, h.span q hq]
    · refine hother r (List.mem_append_right _
        (List.mem_cons_of_mem _ (List.mem_cons_of_mem _ hr))) ?_
      have hle := h.tiled.behind (List.mem_cons_of_mem q hr)
      omega

/-- A piece becomes two, when its span is made smaller and the rest gets a header of its own. The
new header is inside of the old piece, so no other one changes. -/
theorem cut (h : Laid L m lo (pre ++ p :: suf) hi) {k : Nat} (hk : 0 < k)
    (hlt : k < L.span m p.start) (hmax : L.span m p.start ≤ L.maxSpan) {b : Bool} :
    Laid L (L.setSpan (L.setSpan m p.start (L.span m p.start - k)) (p.stop - L.width * k) k) lo
      (pre ++ ⟨p.start, p.len - L.width * k, b⟩ :: p.tail (L.width * k) :: suf) hi := by
  have hp : p ∈ pre ++ p :: suf := List.mem_append_right _ List.mem_cons_self
  have hlen := h.span p hp
  have hw := L.width_pos
  -- Both parts have room for a header.
  have hkw : L.width * 1 ≤ L.width * k := Nat.mul_le_mul_left _ hk
  have hrest : L.width * k + L.width * (L.span m p.start - k) = p.len := by
    rw [← Nat.mul_add, ← hlen]
    congr 1
    omega
  have hrw : L.width * 1 ≤ L.width * (L.span m p.start - k) :=
    Nat.mul_le_mul_left _ (by omega)
  obtain ⟨hpre, hpos, hsuf⟩ := tiled_split.mp h.tiled
  have hstop : p.start + (p.len - L.width * k) = p.stop - L.width * k := by
    unfold Piece.stop
    omega
  have htail : (p.tail (L.width * k)).stop = p.stop := by
    show p.stop - L.width * k + L.width * k = p.stop
    unfold Piece.stop
    omega
  constructor
  · refine tiled_split.mpr ⟨hpre, ?_, ?_, ?_, htail ▸ hsuf⟩
    · show 0 < p.len - L.width * k
      omega
    · exact hstop.symm
    · show 0 < L.width * k
      omega
  · -- Both writes are inside the piece, and the other pieces are not.
    have hother : ∀ r ∈ pre ++ p :: suf, r.start ≠ p.start →
        L.width * L.span (L.setSpan (L.setSpan m p.start (L.span m p.start - k))
          (p.stop - L.width * k) k) r.start = r.len := by
      intro r hr hne
      have hrw' := h.width_le hr
      have happ : L.Apart (p.stop - L.width * k) r.start ∧ r.start ≠ p.stop - L.width * k := by
        unfold HeaderLayout.Apart
        rcases h.tiled.apart hp hr with heq | hle | hle
        · exact absurd (congrArg Piece.start heq).symm hne
        · unfold Piece.stop at hle ⊢
          omega
        · unfold Piece.stop at hle ⊢
          omega
      rw [HeaderLayout.span_setSpan_apart happ.1 happ.2,
        HeaderLayout.span_setSpan_apart (h.apart hp hr) hne, h.span r hr]
    intro r hr
    rcases List.mem_append.mp hr with hr | hr
    · refine hother r (List.mem_append_left _ hr) ?_
      have hle := h.tiled.before hr
      have hrlen := (h.tiled.mem_bounds (List.mem_append_left _ hr)).2.1
      omega
    · rcases List.mem_cons.mp hr with rfl | hr
      · have happ : L.Apart (p.stop - L.width * k) p.start := by
          unfold HeaderLayout.Apart Piece.stop
          omega
        have hne : p.start ≠ p.stop - L.width * k := by
          unfold Piece.stop
          omega
        show L.width * L.span _ p.start = p.len - L.width * k
        rw [HeaderLayout.span_setSpan_apart happ hne, L.span_setSpan m p.start (by omega)]
        omega
      · rcases List.mem_cons.mp hr with rfl | hr
        · show L.width * L.span _ (p.stop - L.width * k) = L.width * k
          rw [L.span_setSpan _ _ (by omega)]
        · refine hother r (List.mem_append_right _ (List.mem_cons_of_mem _ hr)) ?_
          have hle := h.tiled.behind hr
          unfold Piece.stop at hle
          omega

/-- A new piece behind the others, with its span in its header. The arena ends behind it. -/
theorem snoc (h : Laid L m lo ps hi) {k : Nat} (hk : 0 < k) (hmax : k ≤ L.maxSpan) {b : Bool} :
    Laid L (L.setSpan m hi k) lo (ps ++ [⟨hi, L.width * k, b⟩]) (hi + L.width * k) := by
  have hpos : 0 < L.width * k := Nat.mul_pos L.width_pos hk
  refine ⟨tiled_append.mpr ⟨hi, h.tiled, rfl, hpos, rfl⟩, fun r hr => ?_⟩
  rcases List.mem_append.mp hr with hr | hr
  · have hw := h.width_le hr
    have hlen := h.tiled.mem_bounds hr
    have happ : L.Apart hi r.start := by
      unfold HeaderLayout.Apart
      unfold Piece.stop at hlen
      omega
    rw [HeaderLayout.span_setSpan_apart happ (by omega), h.span r hr]
  · rw [List.mem_singleton.mp hr]
    show L.width * L.span _ hi = L.width * k
    rw [L.span_setSpan m hi hmax]

end Laid

/-! ### The list of the free pieces -/

/-- The link of a node. The list ends at `z`. -/
def HeaderLayout.link (L : HeaderLayout) (z : Nat) (m : Mem) (c : Nat) : Option Nat :=
  if c = z then none else some (L.next m c)

/-- The links lead from `head` through the free pieces to `z`. -/
def FreeChain (L : HeaderLayout) (z : Nat) (m : Mem) (head : Nat) (ps : List Piece) : Prop :=
  Seg (L.link z m) head ((frees ps).map Piece.start) z

/-- The start of the last piece, or `z`. -/
def lastStart (z : Nat) (ps : List Piece) : Nat := (ps.getLast?.map Piece.start).getD z

section
variable {L : HeaderLayout} {m m' : Mem} {z head c : Nat} {p q : Piece}
  {ps pre suf xs ys : List Piece}

/-- A node that is not `z` leads on to the one in its header. -/
theorem HeaderLayout.link_of_ne (h : c ≠ z) : L.link z m c = some (L.next m c) := if_neg h

/-- At `z` the list ends. Nothing is read from the memory there. -/
theorem HeaderLayout.link_end (m : Mem) : L.link z m z = none := if_pos rfl

/-- Nodes with the same field have the same link. At `z` there is none in both memories. -/
theorem HeaderLayout.link_congr (h : L.next m' c = L.next m c) : L.link z m' c = L.link z m c := by
  unfold HeaderLayout.link
  rw [h]

@[simp] theorem frees_nil : frees [] = [] := rfl

/-- The free pieces of two parts are those of the first and then those of the second. -/
theorem frees_append (xs ys : List Piece) : frees (xs ++ ys) = frees xs ++ frees ys :=
  List.filter_append xs ys

/-- A free piece in front is the first of the free ones. -/
theorem frees_cons_of_free (hp : p.free = true) (ps : List Piece) :
    frees (p :: ps) = p :: frees ps := by
  rw [frees, List.filter_cons, if_pos hp]
  rfl

/-- A piece in use in front is none of the free ones. -/
theorem frees_cons_of_used (hp : p.free = false) (ps : List Piece) :
    frees (p :: ps) = frees ps := by
  rw [frees, List.filter_cons, if_neg (by rw [hp]; exact Bool.false_ne_true)]
  rfl

@[simp] theorem lastStart_nil : lastStart z [] = z := rfl

@[simp] theorem lastStart_concat (ps : List Piece) (p : Piece) :
    lastStart z (ps ++ [p]) = p.start := by
  rw [lastStart, List.getLast?_concat]
  rfl

/-- The last piece, when there is one. The functions that insert behind it have these two cases. -/
theorem lastStart_cases (z : Nat) (fs : List Piece) :
    fs = [] ∧ lastStart z fs = z ∨ ∃ ds e, fs = ds ++ [e] ∧ lastStart z fs = e.start := by
  cases fs using List.reverseRecOn with
  | nil => exact Or.inl ⟨rfl, rfl⟩
  | append_singleton ds e => exact Or.inr ⟨ds, e, rfl, lastStart_concat ds e⟩

/-- The last free piece in front of a piece is next to it, or a piece in use is. These are the cases
in which a freed piece is joined to the left, and in which it is not. -/
theorem last_free_cases {lo hi : Nat} {u e : Piece} {fs : List Piece}
    (ht : Tiled lo (pre ++ u :: suf) hi) (hpre : frees pre = fs ++ [e]) :
    (∃ xs, pre = xs ++ [e] ∧ e.stop = u.start) ∨
      e.stop ≠ u.start ∧ ∀ d, pre.getLast? = some d → d.free = false := by
  obtain ⟨hemem, hefree⟩ := mem_frees.mp (hpre ▸ List.mem_append_right fs List.mem_cons_self)
  cases pre using List.reverseRecOn with
  | nil => cases hemem
  | append_singleton xs d =>
      rw [List.append_assoc, List.singleton_append] at ht
      have hstart : u.start = d.stop := (tiled_split.mp ht).2.2.1
      cases hd : d.free with
      | true =>
          rw [frees_append, frees_cons_of_free hd] at hpre
          obtain ⟨-, heq⟩ := List.append_inj' hpre rfl
          rw [List.cons.injEq] at heq
          exact Or.inl ⟨xs, by rw [heq.1], heq.1 ▸ hstart.symm⟩
      | false =>
          refine Or.inr ⟨fun heq => ?_, fun c hc => ?_⟩
          · -- The two pieces would end at the same address.
            rcases List.mem_append.mp hemem with hxs | hxs
            · have hle := ht.before hxs
              have hlen := (ht.mem_bounds (List.mem_append_right _ List.mem_cons_self)).2.1
              omega
            · rw [List.mem_singleton.mp hxs, hd] at hefree
              cases hefree
          · rw [List.getLast?_concat, Option.some.injEq] at hc
            exact hc ▸ hd

/-- A node is never the end of the list. A list that came to `z` early would leave out free pieces.
-/
theorem FreeChain.start_ne (h : FreeChain L z m head ps) (hp : p ∈ ps) (hfree : p.free = true) :
    p.start ≠ z :=
  Seg.ne_null (HeaderLayout.link_end m) h (List.mem_map.mpr ⟨p, mem_frees.mpr ⟨hp, hfree⟩, rfl⟩)

/-- The list depends on the links of its nodes. Whatever else a write changes, the list is as it
was. -/
theorem FreeChain.congr (h : FreeChain L z m head ps)
    (hsame : ∀ p ∈ ps, p.free = true → L.next m' p.start = L.next m p.start) :
    FreeChain L z m' head ps := by
  refine Seg.congr h fun x hx => ?_
  obtain ⟨p, hp, rfl⟩ := List.mem_map.mp hx
  obtain ⟨hmem, hfree⟩ := mem_frees.mp hp
  exact HeaderLayout.link_congr (hsame p hmem hfree)

section
variable {u e : Piece} {fs : List Piece}

/-- The list around a piece in use goes from the free pieces in front of it to those behind it. -/
theorem freeChain_append_cons_of_used (hu : u.free = false) :
    FreeChain L z m head (pre ++ u :: suf) ↔
      Seg (L.link z m) head ((frees pre ++ frees suf).map Piece.start) z := by
  rw [FreeChain, frees_append, frees_cons_of_used hu]

/-- The list around a free piece goes through the piece. -/
theorem freeChain_append_cons_of_free (hu : u.free = true) :
    FreeChain L z m head (pre ++ u :: suf) ↔
      Seg (L.link z m) head ((frees pre).map Piece.start ++ u.start :: (frees suf).map Piece.start)
        z := by
  rw [FreeChain, frees_append, frees_cons_of_free hu, List.map_append, List.map_cons]

/-- A piece comes in front of the list. There is no free piece in front of it, and its link leads to
the old head. -/
theorem FreeChain.insert_front (h : FreeChain L z m head (pre ++ u :: suf)) (hu : u.free = false)
    (hpre : frees pre = []) (hne : u.start ≠ z) (hnext : L.next m' u.start = head)
    (hsame : ∀ r ∈ frees suf, L.next m' r.start = L.next m r.start) :
    FreeChain L z m' u.start (pre ++ { u with free := true } :: suf) := by
  rw [freeChain_append_cons_of_used hu, hpre, List.nil_append] at h
  rw [freeChain_append_cons_of_free rfl, hpre]
  refine ⟨rfl, head, by rw [HeaderLayout.link_of_ne hne, hnext], h.congr fun x hx => ?_⟩
  obtain ⟨r, hr, rfl⟩ := List.mem_map.mp hx
  exact HeaderLayout.link_congr (hsame r hr)

/-- A piece comes behind the piece `e` of the list. The link of `e` leads to it, and its own link is
the one that `e` had. -/
theorem FreeChain.insert (h : FreeChain L z m head (pre ++ u :: suf)) (hu : u.free = false)
    (hpre : frees pre = fs ++ [e]) (hne : u.start ≠ z) (he : L.next m' e.start = u.start)
    (hnext : L.next m' u.start = L.next m e.start)
    (hsame : ∀ r ∈ fs ++ frees suf, L.next m' r.start = L.next m r.start) :
    FreeChain L z m' head (pre ++ { u with free := true } :: suf) := by
  have hene : e.start ≠ z := by
    have hmem : e ∈ frees pre := hpre ▸ List.mem_append_right _ List.mem_cons_self
    obtain ⟨hmem, hfree⟩ := mem_frees.mp hmem
    exact h.start_ne (List.mem_append_left _ hmem) hfree
  rw [freeChain_append_cons_of_used hu, hpre, List.append_assoc, List.singleton_append,
    List.map_append, List.map_cons] at h
  rw [freeChain_append_cons_of_free rfl, hpre, List.map_append, List.map_singleton,
    List.append_assoc, List.singleton_append]
  obtain ⟨r, hr, hrest⟩ := h.behind
  rw [HeaderLayout.link_of_ne hene, Option.some.injEq] at hr
  refine h.relink (fun x hx => ?_) (by rw [HeaderLayout.link_of_ne hene, he]) ?_
  · obtain ⟨q, hq, rfl⟩ := List.mem_map.mp hx
    exact HeaderLayout.link_congr (hsame q (List.mem_append_left _ hq))
  · refine ⟨rfl, r, by rw [HeaderLayout.link_of_ne hne, hnext, hr], hrest.congr fun x hx => ?_⟩
    obtain ⟨q, hq, rfl⟩ := List.mem_map.mp hx
    exact HeaderLayout.link_congr (hsame q (List.mem_append_right _ hq))

/-- The first piece of the list goes. The head is then what its link was. -/
theorem FreeChain.remove_front (h : FreeChain L z m head (pre ++ p :: suf)) (hp : p.free = true)
    (hpre : frees pre = []) (hsame : ∀ r ∈ frees suf, L.next m' r.start = L.next m r.start) :
    FreeChain L z m' (L.next m p.start) (pre ++ { p with free := false } :: suf) := by
  have hne := h.start_ne (List.mem_append_right _ List.mem_cons_self) hp
  rw [freeChain_append_cons_of_free hp, hpre] at h
  obtain ⟨-, r, hr, hrest⟩ := h
  rw [HeaderLayout.link_of_ne hne, Option.some.injEq] at hr
  rw [freeChain_append_cons_of_used rfl, hpre, hr]
  refine hrest.congr fun x hx => ?_
  obtain ⟨q, hq, rfl⟩ := List.mem_map.mp hx
  exact HeaderLayout.link_congr (hsame q hq)

/-- The piece behind the piece `e` of the list goes. The link of `e` leads past it. -/
theorem FreeChain.remove (h : FreeChain L z m head (pre ++ p :: suf)) (hp : p.free = true)
    (hpre : frees pre = fs ++ [e]) (he : L.next m' e.start = L.next m p.start)
    (hsame : ∀ r ∈ fs ++ frees suf, L.next m' r.start = L.next m r.start) :
    FreeChain L z m' head (pre ++ { p with free := false } :: suf) := by
  have hpne := h.start_ne (List.mem_append_right _ List.mem_cons_self) hp
  have hene : e.start ≠ z := by
    have hmem : e ∈ frees pre := hpre ▸ List.mem_append_right _ List.mem_cons_self
    obtain ⟨hmem, hfree⟩ := mem_frees.mp hmem
    exact h.start_ne (List.mem_append_left _ hmem) hfree
  rw [freeChain_append_cons_of_free hp, hpre, List.map_append, List.map_singleton,
    List.append_assoc, List.singleton_append] at h
  rw [freeChain_append_cons_of_used rfl, hpre, List.append_assoc, List.singleton_append,
    List.map_append, List.map_cons]
  obtain ⟨y, hy, hrest⟩ := h.behind
  obtain ⟨rfl, r, hr, hsuf⟩ := hrest
  rw [HeaderLayout.link_of_ne hpne, Option.some.injEq] at hr
  refine h.relink (fun x hx => ?_) (by rw [HeaderLayout.link_of_ne hene, he, hr]) ?_
  · obtain ⟨q, hq, rfl⟩ := List.mem_map.mp hx
    exact HeaderLayout.link_congr (hsame q (List.mem_append_left _ hq))
  · refine hsuf.congr fun x hx => ?_
    obtain ⟨q, hq, rfl⟩ := List.mem_map.mp hx
    exact HeaderLayout.link_congr (hsame q (List.mem_append_right _ hq))

/-- Two neighbours of the list become one node. It has the link of the second one. -/
theorem FreeChain.join (h : FreeChain L z m head (pre ++ p :: q :: suf)) (hp : p.free = true)
    (hq : q.free = true) (hnext : L.next m' p.start = L.next m q.start)
    (hsame : ∀ r ∈ frees pre ++ frees suf, L.next m' r.start = L.next m r.start) :
    FreeChain L z m' head (pre ++ p.join q :: suf) := by
  have hpne := h.start_ne (List.mem_append_right _ List.mem_cons_self) hp
  have hqne := h.start_ne
    (List.mem_append_right _ (List.mem_cons_of_mem _ List.mem_cons_self)) hq
  rw [freeChain_append_cons_of_free hp, frees_cons_of_free hq, List.map_cons] at h
  have hjoin : (p.join q).free = true := hp
  rw [freeChain_append_cons_of_free hjoin]
  obtain ⟨y, hy, hrest⟩ := h.behind
  obtain ⟨rfl, r, hr, hsuf⟩ := hrest
  rw [HeaderLayout.link_of_ne hqne, Option.some.injEq] at hr
  refine h.relink (fun x hx => ?_) (by rw [HeaderLayout.link_of_ne hpne, hnext, hr]) ?_
  · obtain ⟨d, hd, rfl⟩ := List.mem_map.mp hx
    exact HeaderLayout.link_congr (hsame d (List.mem_append_left _ hd))
  · refine hsuf.congr fun x hx => ?_
    obtain ⟨d, hd, rfl⟩ := List.mem_map.mp hx
    exact HeaderLayout.link_congr (hsame d (List.mem_append_right _ hd))

end

end

/-! ### The ring of the free pieces -/

/-- The nodes of a ring that starts at `z`, outside the arena. -/
def ringNodes (z : Nat) (ps : List Piece) : List Nat := z :: (frees ps).map Piece.start

/-- Every node has a link. -/
def HeaderLayout.ring (L : HeaderLayout) (m : Mem) (c : Nat) : Option Nat := some (L.next m c)

/-- The links lead from `z` through the free pieces and back to `z`. -/
def FreeCycle (L : HeaderLayout) (z : Nat) (m : Mem) (ps : List Piece) : Prop :=
  Seg (L.ring m) z (ringNodes z ps) z

section
variable {L : HeaderLayout} {m m' : Mem} {z r x : Nat} {u : Piece} {ps pre suf : List Piece}
  {zs : List Nat}

/-- The nodes of the ring are `z` and the starts of the free pieces. -/
theorem mem_ringNodes : x ∈ ringNodes z ps ↔ x = z ∨ ∃ p ∈ ps, p.free = true ∧ p.start = x := by
  rw [ringNodes, List.mem_cons, List.mem_map]
  simp only [mem_frees, and_assoc]

/-- The nodes of a part are nodes of the whole. -/
theorem ringNodes_left {qs : List Piece} (hx : x ∈ ringNodes z ps) :
    x ∈ ringNodes z (ps ++ qs) := by
  rw [mem_ringNodes] at hx ⊢
  exact hx.imp id fun ⟨p, hp, h⟩ => ⟨p, List.mem_append_left _ hp, h⟩

/-- The last free piece in front of a piece, as the arena has it and as the list of its free pieces
has it. -/
theorem lastFreeBelow_start {a : Arena} (hps : a.pieces = pre ++ u :: suf) :
    ((a.lastFreeBelow u.start).map Piece.start).getD z = lastStart z (frees pre) := by
  have ht := a.tiled
  rw [hps] at ht
  have hulen := (ht.mem_bounds (List.mem_append_right pre List.mem_cons_self)).2.1
  have hpre : (frees pre).filter (fun p => p.start < u.start) = frees pre := by
    refine List.filter_eq_self.mpr fun p hp => decide_eq_true ?_
    have hmem := (mem_frees.mp hp).1
    have hle := ht.before hmem
    have hplen := (ht.mem_bounds (List.mem_append_left (u :: suf) hmem)).2.1
    omega
  have hsuf : (frees (u :: suf)).filter (fun p => p.start < u.start) = [] := by
    refine List.filter_eq_nil_iff.mpr fun p hp hlt => ?_
    have hlt' := of_decide_eq_true hlt
    rcases List.mem_cons.mp (mem_frees.mp hp).1 with rfl | hmem
    · omega
    · have hle := ht.behind hmem
      omega
  rw [Arena.lastFreeBelow, hps, frees_append, List.filter_append, hpre, hsuf, List.append_nil]
  rfl

/-- The last free piece of all. It is the same fact at the end of the arena. -/
theorem lastFreeBelow_hi (a : Arena) :
    ((a.lastFreeBelow a.hi).map Piece.start).getD z = lastStart z (frees a.pieces) := by
  have hall : (frees a.pieces).filter (fun p => p.start < a.hi) = frees a.pieces := by
    refine List.filter_eq_self.mpr fun p hp => decide_eq_true ?_
    have hbounds := a.tiled.mem_bounds (mem_frees.mp hp).1
    omega
  rw [Arena.lastFreeBelow, hall]
  rfl

/-- The nodes around a piece in use are those in front of it and those behind it. -/
theorem ringNodes_append_cons_of_used (hu : u.free = false) :
    ringNodes z (pre ++ u :: suf) = ringNodes z pre ++ (frees suf).map Piece.start := by
  rw [ringNodes, frees_append, frees_cons_of_used hu, List.map_append]
  rfl

/-- The nodes around a free piece have the piece between them. -/
theorem ringNodes_append_cons_of_free (hu : u.free = true) :
    ringNodes z (pre ++ u :: suf)
      = ringNodes z pre ++ u.start :: (frees suf).map Piece.start := by
  rw [ringNodes, frees_append, frees_cons_of_free hu, List.map_append]
  rfl

/-- The last node is that of the last free piece, or `z`. So the ring can be opened there. -/
theorem ringNodes_concat (z : Nat) (ps : List Piece) :
    ∃ xs, ringNodes z ps = xs ++ [lastStart z (frees ps)] := by
  unfold ringNodes
  rcases lastStart_cases z (frees ps) with ⟨hnil, hlast⟩ | ⟨ds, e, heq, hlast⟩
  · refine ⟨[], ?_⟩
    rw [hlast, hnil]
    rfl
  · refine ⟨z :: ds.map Piece.start, ?_⟩
    rw [hlast, heq, List.map_append, List.map_singleton, List.cons_append]

/-- The nodes are in the order of their addresses. The node `z` is in front of the arena, and the
pieces are in order. -/
theorem ringNodes_sorted {lo hi : Nat} (ht : Tiled lo ps hi) (hz : z < lo) :
    (ringNodes z ps).Pairwise (· < ·) := by
  refine List.pairwise_cons.mpr ⟨fun x hx => ?_, ?_⟩
  · obtain ⟨p, hp, rfl⟩ := List.mem_map.mp hx
    have hbounds := ht.mem_bounds (mem_frees.mp hp).1
    omega
  · refine List.pairwise_map.mpr ((ht.pairwise.sublist List.filter_sublist).imp_of_mem ?_)
    intro p q hp _ hle
    have hbounds := ht.mem_bounds (mem_frees.mp hp).1
    omega

/-- The header of a node is apart from those of the pieces, or one of them. -/
theorem Laid.node_apart {lo hi : Nat} (h : Laid L m lo ps hi) (hz : z + L.width ≤ lo)
    (hx : x ∈ ringNodes z ps) (hu : u ∈ ps) : L.Apart x u.start := by
  rcases mem_ringNodes.mp hx with rfl | ⟨p, hp, -, rfl⟩
  · have hbounds := h.tiled.mem_bounds hu
    exact Or.inr (Or.inl (by omega))
  · exact h.apart hp hu

/-- The headers of the nodes are apart. So a write to one of them leaves the links of the others
alone. -/
theorem Laid.nodes_apart {lo hi y : Nat} (h : Laid L m lo ps hi) (hz : z + L.width ≤ lo)
    (hx : x ∈ ringNodes z ps) (hy : y ∈ ringNodes z ps) : L.Apart x y := by
  rcases mem_ringNodes.mp hy with rfl | ⟨q, hq, -, rfl⟩
  · rcases mem_ringNodes.mp hx with rfl | ⟨p, hp, -, rfl⟩
    · exact Or.inl rfl
    · have hbounds := h.tiled.mem_bounds hp
      exact Or.inr (Or.inr (by omega))
  · exact h.node_apart hz hx hq

/-- Behind the last node of the first part, the ring goes on to the second part. -/
theorem FreeCycle.behind (h : Seg (L.ring m) z (ringNodes z pre ++ zs) z) :
    Seg (L.ring m) (L.next m (lastStart z (frees pre))) zs z := by
  obtain ⟨xs, hxs⟩ := ringNodes_concat z pre
  rw [hxs, List.append_assoc, List.singleton_append] at h
  obtain ⟨y, hy, hrest⟩ := h.behind
  rw [HeaderLayout.ring, Option.some.injEq] at hy
  exact hy ▸ hrest

/-- Behind the last node of the first part, the ring may be led elsewhere. The links in front of
that node are as before. -/
theorem FreeCycle.relink {ys : List Nat} (h : Seg (L.ring m) z (ringNodes z pre ++ ys) z)
    (hsame : ∀ x ∈ ringNodes z pre, x ≠ lastStart z (frees pre) → L.next m' x = L.next m x)
    (hnodup : (ringNodes z pre).Nodup)
    (hzs : Seg (L.ring m') (L.next m' (lastStart z (frees pre))) zs z) :
    Seg (L.ring m') z (ringNodes z pre ++ zs) z := by
  obtain ⟨xs, hxs⟩ := ringNodes_concat z pre
  rw [hxs] at hsame hnodup
  rw [hxs, List.append_assoc, List.singleton_append] at h ⊢
  refine h.relink (fun x hx => ?_) rfl hzs
  unfold HeaderLayout.ring
  rw [hsame x (List.mem_append_left _ hx) fun heq => ?_]
  rw [List.nodup_append] at hnodup
  exact hnodup.2.2 x hx _ List.mem_cons_self heq

/-- A ring depends on the links of its nodes, as a list does. -/
theorem FreeCycle.congr (h : FreeCycle L z m ps)
    (hsame : ∀ x ∈ ringNodes z ps, L.next m' x = L.next m x) : FreeCycle L z m' ps :=
  Seg.congr h fun x hx => congrArg some (hsame x hx)

end

end SysProg.Lib
