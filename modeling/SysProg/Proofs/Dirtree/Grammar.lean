import SysProg.Lib.Logged
import SysProg.Dirtree.Grammar
import SysProg.Proofs.Dirtree.Submatch

/-!
# `SysProg.Proofs.Dirtree.Grammar`: the validation accepts the grammar

* `validateLoop_iff`: the loop of `validate_pattern` is an automaton, and `left` is the language of
  each of its states.
* `submatchLog_logs`: the offsets at which `submatch` is called, by induction over the calls.
* `validatePattern_iff_grammar`: the accepted patterns are the words of the grammar, and `submatch`
  starts at the boundaries of their elements.
-/

set_option autoImplicit false

namespace SysProg.Dirtree

open SysProg.Lib Computability

variable {pat w l : List UInt8} {c : UInt8} {m : Language UInt8}

/-! ### What may follow -/

/-- The rest of a pattern behind an atom. -/
def behindAtom : Language UInt8 := (1 + letter (· = star)) * element∗

/-- The rest of a pattern in a group, behind an item. -/
def inGroup : Language UInt8 :=
  (starred (letter Plain))∗ * (letter (· = rparen) * behindAtom)

/-- The rest of a pattern in a group, behind a character. -/
def behindInner : Language UInt8 := (1 + letter (· = star)) * inGroup

/-- The rest of a pattern behind the start of a group. -/
def atGroup : Language UInt8 := letter Plain * behindInner

/-- The empty word has no star in front, so what follows has to accept it. -/
theorem nil_mem_perhapsStar : [] ∈ (1 + letter (· = star)) * m ↔ [] ∈ m := by
  rw [mem_one_add_mul, or_iff_right nil_notMem_letter_mul]

/-- A word behind a star that may be missing: the first character is the star, or it belongs to what
follows. -/
theorem cons_mem_perhapsStar :
    c :: w ∈ (1 + letter (· = star)) * m ↔ c = star ∧ w ∈ m ∨ c :: w ∈ m := by
  rw [mem_one_add_mul, cons_mem_letter_mul]

/-- An element, and a sequence behind it. -/
theorem element_mul :
    element * element∗ = letter Plain * behindAtom + letter (· = lparen) * atGroup := by
  rw [element, starred, mul_assoc]
  change atomText * behindAtom = _
  simp only [atomText, groupContent, several, add_mul, mul_assoc, atGroup, behindInner, inGroup,
    starred]

/-- A pattern goes on with a plain character or with a group. -/
theorem cons_mem_elements : c :: w ∈ element∗ ↔
    Plain c ∧ w ∈ behindAtom ∨ c = lparen ∧ w ∈ atGroup := by
  rw [mem_kstar_iff, or_iff_left (List.cons_ne_nil c w), element_mul, Language.mem_add,
    cons_mem_letter_mul, cons_mem_letter_mul]

/-- Inside of a group there is one more plain character, or the end of the group. -/
theorem cons_mem_inGroup :
    c :: w ∈ inGroup ↔ Plain c ∧ w ∈ behindInner ∨ c = rparen ∧ w ∈ behindAtom := by
  rw [inGroup, mem_kstar_mul, cons_mem_letter_mul, ← inGroup, starred, mul_assoc,
    cons_mem_letter_mul, behindInner]

/-- A group that is open does not end with the pattern. -/
theorem nil_notMem_inGroup : [] ∉ inGroup := by
  rw [inGroup, mem_kstar_mul, ← inGroup, starred, mul_assoc]
  exact not_or.mpr ⟨nil_notMem_letter_mul, nil_notMem_letter_mul⟩

/-! ### The loop of `validate_pattern` -/

/-- The language of a state of the loop: what may be left when the byte before it is `prev`. -/
def left (prev : Option UInt8) : Bool → Language UInt8
  | false => if prev = none ∨ prev = some star then element∗ else behindAtom
  | true =>
      if prev = some lparen then atGroup else if prev = some star then inGroup else behindInner

/-- The states of the loop. The characters of a group are counted from its start on. -/
def Occurs (prev : Option UInt8) (groupLen : Nat) : Bool → Prop
  | false => prev ≠ some lparen
  | true => prev ≠ none ∧ (prev = some lparen ↔ groupLen = 0)

variable {prev : Option UInt8} {n : Nat} {g : Bool}

/-- The end of the pattern is outside of a group. -/
theorem nil_mem_left : [] ∈ left prev g ↔ g = false := by
  cases g with
  | false =>
      refine iff_of_true ?_ rfl
      rw [left]
      split
      · exact Language.nil_mem_kstar _
      · exact nil_mem_perhapsStar.mpr (Language.nil_mem_kstar _)
  | true =>
      refine iff_of_false ?_ Bool.noConfusion
      rw [left]
      split
      · exact nil_notMem_letter_mul
      · split
        · exact nil_notMem_inGroup
        · exact mt nil_mem_perhapsStar.mp nil_notMem_inGroup

/-- The next byte outside of a group. -/
theorem cons_mem_left_false : c :: w ∈ left prev false ↔
    Plain c ∧ w ∈ behindAtom ∨ c = lparen ∧ w ∈ atGroup ∨
      c = star ∧ prev ≠ none ∧ prev ≠ some star ∧ w ∈ element∗ := by
  rw [left]
  split
  case isTrue h =>
    rw [cons_mem_elements]
    tauto
  case isFalse h =>
    rw [behindAtom, cons_mem_perhapsStar, cons_mem_elements]
    tauto

/-- The next byte in a group. -/
theorem cons_mem_left_true : c :: w ∈ left prev true ↔
    Plain c ∧ w ∈ behindInner ∨ c = rparen ∧ prev ≠ some lparen ∧ w ∈ behindAtom ∨
      c = star ∧ prev ≠ some lparen ∧ prev ≠ some star ∧ w ∈ inGroup := by
  rw [left]
  split
  case isTrue h =>
    rw [atGroup, cons_mem_letter_mul]
    tauto
  case isFalse h =>
    split
    case isTrue hstar =>
      rw [cons_mem_inGroup]
      tauto
    case isFalse hstar =>
      rw [behindInner, cons_mem_perhapsStar, cons_mem_inGroup]
      tauto

/-- The four kinds of characters that the validator tells apart. -/
theorem kinds (c : UInt8) : c = lparen ∨ c = rparen ∨ c = star ∨ Plain c := by
  unfold Plain
  tauto

/-- A `(` is valid outside of a group, and a group starts that is empty so far. -/
theorem validateLoop_lparen : validateLoop prev g n (lparen :: l) = true ↔
    g = false ∧ validateLoop (some lparen) true 0 l = true := by
  rw [validateLoop, if_pos rfl]
  cases g <;> simp

/-- A `)` is valid inside of a group that is not empty, and the group ends. -/
theorem validateLoop_rparen : validateLoop prev g n (rparen :: l) = true ↔
    (g = true ∧ n ≠ 0) ∧ validateLoop (some rparen) false n l = true := by
  rw [validateLoop, if_neg (by decide), if_pos rfl]
  cases g <;> simp

/-- A `*` is valid behind a character that it can repeat. This is not the start of the pattern,
another `*` or a `(`. -/
theorem validateLoop_star : validateLoop prev g n (star :: l) = true ↔
    (prev ≠ none ∧ prev ≠ some star ∧ prev ≠ some lparen) ∧
      validateLoop (some star) g n l = true := by
  rw [validateLoop, if_neg (by decide), if_neg (by decide), if_pos rfl, ← not_or, ← not_or]
  split
  case isTrue h => exact iff_of_false Bool.false_ne_true fun hno => hno.1 h
  case isFalse h => exact (and_iff_right h).symm

/-- A plain character is always valid. Inside of a group it is counted. -/
theorem validateLoop_plain (hc : Plain c) :
    validateLoop prev g n (c :: l)
      = validateLoop (some c) g (if g then n + 1 else n) l := by
  rw [validateLoop, if_neg hc.1, if_neg hc.2.1, if_neg hc.2.2]

/-- A byte outside of a group. It has to be a plain one, a `(` or a star behind something, and the
loop goes on behind it. -/
theorem validateLoop_cons_false (h : Occurs prev n false)
    (ih : ∀ {prev n g}, Occurs prev n g → (validateLoop prev g n l = true ↔ l ∈ left prev g)) :
    validateLoop prev false n (c :: l) = true ↔ c :: l ∈ left prev false := by
  have hno : ¬Plain lparen ∧ ¬Plain rparen ∧ ¬Plain star := by simp [Plain]
  have hne : rparen ≠ lparen ∧ star ≠ lparen ∧ rparen ≠ star := by decide
  have hprev : prev ≠ some lparen := h
  rw [cons_mem_left_false]
  rcases kinds c with rfl | rfl | rfl | hc
  · have hnext : Occurs (some lparen) 0 true := ⟨Option.some_ne_none _, iff_of_true rfl rfl⟩
    have hleft : left (some lparen) true = atGroup := rfl
    rw [validateLoop_lparen, ih hnext, hleft]
    simp [hno, hne.2.1.symm]
  · rw [validateLoop_rparen]
    simp [hno, hne]
  · have hnext : Occurs (some star) n false := by simp [Occurs, hne]
    have hleft : left (some star) false = element∗ := rfl
    rw [validateLoop_star, ih hnext, hleft]
    simp [hno, hne, hprev, and_assoc]
  · have hnext : Occurs (some c) n false := by simp [Occurs, hc.1]
    have hleft : left (some c) false = behindAtom := by simp [left, hc.2.2]
    rw [validateLoop_plain hc, if_neg Bool.false_ne_true, ih hnext, hleft]
    simp [hc, hc.1, hc.2.2]

/-- A byte in a group. It has to be a plain one, a star behind one, or the `)` of a group that is
not empty. -/
theorem validateLoop_cons_true (h : Occurs prev n true)
    (ih : ∀ {prev n g}, Occurs prev n g → (validateLoop prev g n l = true ↔ l ∈ left prev g)) :
    validateLoop prev true n (c :: l) = true ↔ c :: l ∈ left prev true := by
  have hno : ¬Plain lparen ∧ ¬Plain rparen ∧ ¬Plain star := by simp [Plain]
  have hne : lparen ≠ rparen ∧ lparen ≠ star ∧ star ≠ rparen := by decide
  obtain ⟨hnone, hcount⟩ : prev ≠ none ∧ (prev = some lparen ↔ n = 0) := h
  rw [cons_mem_left_true]
  rcases kinds c with rfl | rfl | rfl | hc
  · rw [validateLoop_lparen]
    simp [hno, hne]
  · have hnext : Occurs (some rparen) n false := by simp [Occurs, hne.1.symm]
    have hleft : left (some rparen) false = behindAtom := rfl
    rw [validateLoop_rparen, ih hnext, hleft]
    simp [hno, hne.2.2.symm, hcount]
  · rw [validateLoop_star]
    by_cases hstart : prev = some lparen
    · simp [hno, hne, hstart]
    · have hnext : Occurs (some star) n true := by
        simp [Occurs, hne.2.1.symm, ← hcount, hstart]
      have hleft : left (some star) true = inGroup := rfl
      rw [ih hnext, hleft]
      simp [hno, hne, hnone, hstart]
  · have hnext : Occurs (some c) (n + 1) true := by simp [Occurs, hc.1]
    have hleft : left (some c) true = behindInner := by simp [left, hc.1, hc.2.2]
    rw [validateLoop_plain hc, if_pos rfl, ih hnext, hleft]
    simp [hc, hc.2.1, hc.2.2]

/-- The loop tells whether what is left is in the language of its state. -/
theorem validateLoop_iff (h : Occurs prev n g) :
    validateLoop prev g n l = true ↔ l ∈ left prev g := by
  induction l generalizing prev n g with
  | nil => rw [nil_mem_left, validateLoop, Bool.not_eq_true']
  | cons c l ih =>
      cases g with
      | false => exact validateLoop_cons_false h ih
      | true => exact validateLoop_cons_true h ih

/-- The accepted patterns. -/
theorem validatePattern_iff : validatePattern pat = true ↔ pat ∈ grammar := by
  rw [validatePattern, grammar, several, element_mul]
  cases pat with
  | nil =>
      refine iff_of_false Bool.false_ne_true ?_
      exact not_or.mpr ⟨nil_notMem_letter_mul, nil_notMem_letter_mul⟩
  | cons c pat =>
      have hstart : Occurs none 0 false := (Option.some_ne_none _).symm
      have hleft : left none false = element∗ := rfl
      rw [List.isEmpty_cons, if_neg Bool.false_ne_true, validateLoop_iff hstart, hleft,
        mem_kstar_iff, or_iff_left (List.cons_ne_nil c pat), element_mul]

/-! ### Elements as pieces -/

/-- The letters of a repetition. -/
theorem forall_mem_kstar {Q : UInt8 → Prop} (hm : ∀ v ∈ m, ∀ c ∈ v, Q c) (hw : w ∈ m∗) :
    ∀ c ∈ w, Q c := by
  obtain ⟨L, rfl, hL⟩ := Language.mem_kstar.mp hw
  intro c hc
  obtain ⟨v, hv, hcv⟩ := List.mem_flatten.mp hc
  exact hm v (hL v hv) c hcv

/-- The content of a group is not empty, and it has no group in it. -/
theorem groupContent_spec (hw : w ∈ groupContent) :
    w ≠ [] ∧ ∀ c ∈ w, c ≠ lparen ∧ c ≠ rparen := by
  have hitem : ∀ v ∈ starred (letter Plain), ∀ c ∈ v, c ≠ lparen ∧ c ≠ rparen := by
    intro v hv c hc
    obtain ⟨u, ⟨d, hd, rfl⟩, s, hs, rfl⟩ := Language.mem_mul.mp hv
    cases List.mem_append.mp hc with
    | inl hc =>
        rw [List.mem_singleton.mp hc]
        exact ⟨hd.1, hd.2.1⟩
    | inr hc =>
        rcases hs with rfl | ⟨e, rfl, rfl⟩
        · exact absurd hc List.not_mem_nil
        · rw [List.mem_singleton.mp hc]
          decide
  constructor
  · rintro rfl
    rw [groupContent, several, starred, mul_assoc] at hw
    exact nil_notMem_letter_mul hw
  · have hkstar : w ∈ (starred (letter Plain))∗ := mem_kstar_iff.mpr (Or.inl hw)
    exact forall_mem_kstar hitem hkstar

/-- An atom of the grammar. -/
theorem exists_atom (hw : w ∈ atomText) (h0 : 0 ∉ w) : ∃ a : Atom, a.WellFormed ∧ a.render = w := by
  cases hw with
  | inl hw =>
      obtain ⟨c, hc, rfl⟩ := hw
      have hc0 : c ≠ 0 := fun hc0 => h0 (hc0 ▸ List.mem_cons_self)
      exact ⟨.char c, ⟨⟨hc0, hc.1, hc.2.1⟩, hc.2.2⟩, rfl⟩
  | inr hw =>
      obtain ⟨u, ⟨v, ⟨d, rfl, rfl⟩, content, hcontent, rfl⟩, e, ⟨_, rfl, rfl⟩, rfl⟩ := hw
      obtain ⟨hne, hno⟩ := groupContent_spec hcontent
      refine ⟨.group content, ⟨hne, fun c hc => ⟨?_, hno c hc⟩⟩, rfl⟩
      rintro rfl
      exact h0 (by simp [hc])

/-- An element of the grammar. -/
theorem exists_piece (hw : w ∈ element) (h0 : 0 ∉ w) :
    ∃ p : Piece, p.atom.WellFormed ∧ p.render = w := by
  obtain ⟨u, hu, s, hs, rfl⟩ := Language.mem_mul.mp hw
  obtain ⟨a, ha, rfl⟩ := exists_atom hu fun hmem => h0 (List.mem_append_left s hmem)
  rcases hs with rfl | ⟨e, rfl, rfl⟩
  · exact ⟨⟨a, false⟩, ha, rfl⟩
  · exact ⟨⟨a, true⟩, ha, rfl⟩

/-- A sequence of elements of the grammar. -/
theorem exists_pieces {L : List (List UInt8)} (hL : ∀ w ∈ L, w ∈ element) (h0 : 0 ∉ L.flatten) :
    ∃ ps : List Piece, (∀ p ∈ ps, p.atom.WellFormed) ∧ render ps = L.flatten := by
  induction L with
  | nil => exact ⟨[], by simp, rfl⟩
  | cons w L ih =>
      rw [List.flatten_cons, List.mem_append, not_or] at h0
      obtain ⟨p, hp, hw⟩ := exists_piece (hL w List.mem_cons_self) h0.1
      obtain ⟨ps, hps, hrest⟩ := ih (fun v hv => hL v (List.mem_cons_of_mem w hv)) h0.2
      refine ⟨p :: ps, List.forall_mem_cons.mpr ⟨hp, hps⟩, ?_⟩
      rw [List.flatten_cons, ← hw, ← hrest]
      rfl

/-! ### Boundaries -/

variable {p len : Nat}

/-- A boundary is the end of the pattern, or a piece starts there. -/
theorem AtBoundary.split (h : AtBoundary pat p) (h0 : 0 ∉ pat) :
    charAt pat p = .ok 0 ∨ ∃ u ∈ element∗, ∃ q : Piece, q.atom.WellFormed ∧ q.render ∈ element ∧
      ∃ v ∈ element∗, pat = u ++ (q.render ++ v) ∧ u.length = p := by
  obtain ⟨u, hu, v, hv, rfl, rfl⟩ := h
  obtain ⟨L, rfl, hL⟩ := Language.mem_kstar.mp hv
  cases L with
  | nil => exact Or.inl (charAt_length u [])
  | cons w L =>
      have hw : 0 ∉ w := fun hmem => h0 (by simp [hmem])
      obtain ⟨q, hq, rfl⟩ := exists_piece (hL w List.mem_cons_self) hw
      refine Or.inr ⟨u, hu, q, hq, hL _ List.mem_cons_self, L.flatten, ?_, rfl, rfl⟩
      exact Language.join_mem_kstar fun y hy => hL y (List.mem_cons_of_mem _ hy)

/-- The byte behind an element without a star. -/
theorem charAt_elements (hw : w ∈ element∗) : ∃ d, charAt w 0 = .ok d ∧ d ≠ star := by
  cases w with
  | nil => exact ⟨0, rfl, by decide⟩
  | cons c w =>
      refine ⟨c, charAt_cons, ?_⟩
      rintro rfl
      rcases cons_mem_elements.mp hw with ⟨hplain, -⟩ | ⟨hopen, -⟩
      · exact hplain.2.2 rfl
      · exact absurd hopen (by decide)

/-- Where `submatch` goes on behind an element. That is the next boundary, behind the star if there
is one. -/
theorem AtBoundary.next (h : AtBoundary pat p) (h0 : 0 ∉ pat) {d : UInt8} {len : Int}
    (hc : charAt pat p = .ok c) (hc0 : c ≠ 0) (hlen : atomLen pat p c = .ok len)
    (hd : charAt pat (p + (if c = lparen then len + 2 else len)).toNat = .ok d) :
    AtBoundary pat ((p + (if c = lparen then len + 2 else len)).toNat +
      if d = star then 1 else 0) := by
  rcases h.split h0 with hend | ⟨u, hu, q, hq, hmem, v, hv, rfl, rfl⟩
  · exact absurd (Except.ok.inj (hc.symm.trans hend)) hc0
  · have hrender : q.render = q.atom.render ++ (if q.repeated then [star] else []) := rfl
    have hpat : u ++ (q.render ++ v)
        = u ++ (q.atom.render ++ ((if q.repeated then [star] else []) ++ v)) := by
      rw [hrender, List.append_assoc]
    obtain ⟨c', hc', -, hlen', hnext, -⟩ :=
      atom_reads hq u ((if q.repeated then [star] else []) ++ v)
    rw [← hpat] at hc' hlen'
    obtain rfl : c = c' := Except.ok.inj (hc.symm.trans hc')
    obtain rfl : len = q.atom.content.length := Except.ok.inj (hlen.symm.trans hlen')
    rw [hnext] at hd ⊢
    have hu' : u ++ q.render ∈ element∗ := append_mem_kstar hu hmem
    refine ⟨u ++ q.render, hu', v, hv, by rw [List.append_assoc], ?_⟩
    -- A star stands there just when it belongs to the element.
    have hread : d = star ↔ q.repeated = true := by
      rw [hpat, ← List.append_assoc, charAt_length] at hd
      cases hrep : q.repeated with
      | true =>
          rw [hrep, if_pos rfl, List.singleton_append, charAt_cons] at hd
          exact iff_of_true (Except.ok.inj hd).symm rfl
      | false =>
          obtain ⟨d', hd', hne⟩ := charAt_elements hv
          rw [hrep, if_neg Bool.false_ne_true, List.nil_append, hd'] at hd
          exact iff_of_false (Except.ok.inj hd ▸ hne) Bool.false_ne_true
    rw [hrender, ← List.append_assoc, List.length_append]
    by_cases hrep : q.repeated = true
    · rw [if_pos hrep, if_pos (hread.mpr hrep), List.length_singleton]
    · rw [if_neg hrep, if_neg (mt hread.mp hrep), List.length_nil]

/-- The loop of `submatch` at a group. It stops at the `)` of this group, as groups are not nested.
-/
theorem AtBoundary.scansGroup (h : AtBoundary pat p) (h0 : 0 ∉ pat)
    (hopen : charAt pat p = .ok lparen) : ScansGroup pat p := by
  rcases h.split h0 with hend | ⟨u, -, ⟨a, repeated⟩, hq, -, v, -, rfl, rfl⟩
  · rw [hopen] at hend
    exact absurd (Except.ok.inj hend) (by decide)
  · cases a with
    | char c =>
        have hc : charAt (u ++ (Piece.render ⟨.char c, repeated⟩ ++ v)) u.length = .ok c := by
          rw [charAt_length]
          exact charAt_cons
        exact absurd (Except.ok.inj (hc.symm.trans hopen)) hq.1.2.1
    | group l =>
        obtain ⟨hne, hl⟩ := hq
        obtain ⟨post, hpost⟩ : ∃ post, u ++ (Piece.render ⟨.group l, repeated⟩ ++ v)
            = u ++ lparen :: (l ++ rparen :: post) :=
          ⟨(if repeated then [star] else []) ++ v, by simp [Piece.render, Atom.render]⟩
        have hread (i : Nat) : charAt (u ++ (Piece.render ⟨.group l, repeated⟩ ++ v))
            (u.length + 1 + i) = charAt (l ++ rparen :: post) i := by
          rw [← charAt_append (u ++ [lparen]) (l ++ rparen :: post), hpost, List.append_cons u,
            List.length_append, List.length_singleton]
        refine ⟨l.length, ?_, List.length_pos_iff.mpr hne, ?_, fun i hi => ?_⟩
        · have hfuel : l.length + 1 < (u ++ lparen :: (l ++ rparen :: post)).length + 1 := by
            simp only [List.length_append, List.length_cons]
            omega
          have hscan := scanGroup_spec hl hfuel u post []
          rw [List.nil_append, List.length_nil, Nat.zero_add] at hscan
          rw [hpost, hscan]
        · rw [hread, charAt_length, charAt_cons]
        · have hchar : charAt (l ++ rparen :: post) i = .ok l[i] := by
            rw [charAt, if_pos (by rw [List.length_append]; omega)]
            simp [List.getD_eq_getElem?_getD, List.getElem?_append_left hi, hi]
          obtain ⟨-, hopen', hclose⟩ := hl l[i] (List.getElem_mem hi)
          rw [hread, hchar]
          exact ⟨fun h => hopen' (Except.ok.inj h), fun h => hclose (Except.ok.inj h)⟩

/-! ### The calls of `submatch` -/

variable {P : Nat → Prop} {str : List UInt8}

/-- The log of `submatch`. The offsets have a property that goes on from one element to the
next. -/
theorem submatchLog_logs
    (hP : ∀ {p c len d}, P p → charAt pat p = .ok c → c ≠ 0 → atomLen pat p c = .ok len →
      charAt pat (p + (if c = lparen then len + 2 else len)).toNat = .ok d →
      P ((p + (if c = lparen then len + 2 else len)).toNat + if d = star then 1 else 0))
    (fuel s : Nat) (hp : P p) :
    Logs (submatchLog str pat fuel s p) (submatch str pat fuel s p) P := by
  induction fuel generalizing s p with
  | zero => exact Logs.throw _
  | succ fuel ih =>
      rw [submatchLog, submatch]
      refine Logs.write hp (Logs.bind (Logs.lift _) fun c hc => ?_)
      refine Logs.ite (fun _ => Logs.pure true) fun hc0 => ?_
      refine Logs.bind (Logs.lift _) fun len hlen => ?_
      refine Logs.bind (Logs.lift _) fun d hd => ?_
      have hnext := hP hp hc hc0 hlen hd
      refine Logs.ite (fun hstar => ?_) fun hstar => ?_
      · rw [if_pos hstar] at hnext
        refine Logs.bind (ih s hnext) fun b _ => Logs.ite (fun _ => Logs.pure true) fun _ => ?_
        refine Logs.bind (Logs.lift _) fun b' _ => Logs.ite (fun _ => ?_) fun _ => Logs.pure false
        refine Logs.bind (ih _ hp) fun b'' _ => ?_
        exact Logs.ite (fun _ => Logs.pure true) fun _ => Logs.pure false
      · rw [if_neg hstar] at hnext
        refine Logs.bind (Logs.lift _) fun b _ => Logs.ite (fun _ => ?_) fun _ => Logs.pure false
        exact ih _ hnext

/-- The log of the loop of `is_match`. It adds what the calls of `submatch` write. -/
theorem isMatchLoopLog_logs
    (hcall : ∀ s, Logs (submatchLog str pat (matchFuel str pat) s 0)
      (submatch str pat (matchFuel str pat) s 0) P) (fuel i : Nat) :
    Logs (isMatchLoopLog str pat fuel i) (isMatchLoop str pat fuel i) P := by
  induction fuel generalizing i with
  | zero => exact Logs.throw _
  | succ fuel ih =>
      rw [isMatchLoopLog, isMatchLoop]
      refine Logs.bind (Logs.lift _) fun c _ => Logs.ite (fun _ => ?_) fun _ => hcall _
      refine Logs.bind (hcall i) fun b _ => Logs.ite (fun _ => Logs.pure true) fun _ => ?_
      exact ih (i + 1)

/-- The log is beside the answer, for any pattern. -/
theorem isMatchLog_answer (name pat : List UInt8) :
    (isMatchLog name pat).1 = isMatch name (some pat) := by
  have hcall (s : Nat) : Logs (submatchLog name pat (matchFuel name pat) s 0)
      (submatch name pat (matchFuel name pat) s 0) fun _ => True :=
    submatchLog_logs (fun _ _ _ _ _ => trivial) _ s trivial
  exact (isMatchLoopLog_logs hcall _ 0 []).1

/-- In an accepted pattern all calls of `submatch` are at boundaries. -/
theorem atBoundary_of_mem_log (h0 : 0 ∉ pat) (hpat : pat ∈ grammar) (name : List UInt8)
    (hp : p ∈ (isMatchLog name pat).2) : AtBoundary pat p := by
  have hstart : AtBoundary pat 0 := by
    refine ⟨[], Language.nil_mem_kstar _, pat, ?_, rfl, rfl⟩
    exact mem_kstar_iff.mpr (Or.inl hpat)
  have hcall (s : Nat) : Logs (submatchLog name pat (matchFuel name pat) s 0)
      (submatch name pat (matchFuel name pat) s 0) (AtBoundary pat) :=
    submatchLog_logs (fun hp hc hc0 hlen hd => hp.next h0 hc hc0 hlen hd) _ s hstart
  obtain ⟨-, hlog⟩ := isMatchLoopLog_logs hcall (name.length + 1) 0 []
  exact (hlog p hp).resolve_left List.not_mem_nil

/-- `validate_pattern` accepts the words of the grammar and no others. The filter with an accepted
pattern calls `submatch` at boundaries of elements only, for every name. Where a group starts
there, the loop of `submatch` finds the parenthesis that belongs to it, and the group is not
empty. -/
theorem validatePattern_iff_grammar (pat : List UInt8) (h0 : 0 ∉ pat) :
    (validatePattern pat = true ↔ pat ∈ grammar) ∧
      (validatePattern pat = true → ∀ name,
        (isMatchLog name pat).1 = isMatch name (some pat) ∧
          ∀ p ∈ (isMatchLog name pat).2,
            AtBoundary pat p ∧ (charAt pat p = .ok lparen → ScansGroup pat p)) := by
  refine ⟨validatePattern_iff, fun haccepted name => ⟨isMatchLog_answer name pat, ?_⟩⟩
  intro p hp
  have hboundary := atBoundary_of_mem_log h0 (validatePattern_iff.mp haccepted) name hp
  exact ⟨hboundary, hboundary.scansGroup h0⟩

/-- The pattern `a(b*)*c` and the name `ab`. There are calls in front of the group and behind
it. -/
theorem validatePattern_iff_grammar_group :
    ([97, 40, 98, 42, 41, 42, 99] : List UInt8) ∈ grammar ∧
      ScansGroup [97, 40, 98, 42, 41, 42, 99] 1 := by
  obtain ⟨hiff, hcalls⟩ := validatePattern_iff_grammar [97, 40, 98, 42, 41, 42, 99] (by decide)
  obtain ⟨-, hlog⟩ := hcalls (by decide) [97, 98]
  have hmem : 1 ∈ (isMatchLog [97, 98] [97, 40, 98, 42, 41, 42, 99]).2 := by
    have hall : (isMatchLog [97, 98] [97, 40, 98, 42, 41, 42, 99]).2 = [0, 0, 6, 1, 0] := by rfl
    rw [hall]
    decide
  exact ⟨hiff.mp (by decide), (hlog 1 hmem).2 rfl⟩

end SysProg.Dirtree
