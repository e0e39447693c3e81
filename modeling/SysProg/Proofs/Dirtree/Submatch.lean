import SysProg.Dirtree.PatternSpec

/-!
# `SysProg.Proofs.Dirtree.Submatch`: the matcher decides the pattern language

* `atom_reads`: what `submatch` finds out about the atom at the front of a pattern.
* `submatch_spec`: from any position of a pattern and of a string without NUL, `submatch`
  returns, and the answer is whether the rest of the string starts with a word of the rest of the
  pattern.
* `isMatch_spec`: `is_match` tries all suffixes.
-/

set_option autoImplicit false

namespace SysProg.Dirtree

open SysProg.Lib Computability

variable {u w pre post l : List UInt8} {c x : UInt8} {a : Atom} {ps : List Piece}

/-! ### Reads -/

/-- A read behind the front part of a string. -/
theorem charAt_append (u w : List UInt8) (i : Nat) :
    charAt (u ++ w) (u.length + i) = charAt w i := by
  unfold charAt
  rw [List.length_append]
  by_cases hlt : i < w.length
  · rw [if_pos (by omega), if_pos hlt, List.getD_eq_getElem?_getD, List.getD_eq_getElem?_getD,
      List.getElem?_append_right (by omega), Nat.add_sub_cancel_left]
  · rw [if_neg (by omega), if_neg hlt]
    by_cases heq : i = w.length
    · rw [if_pos (by omega), if_pos heq]
    · rw [if_neg (by omega), if_neg heq]

/-- The character behind a part of the text is the first one of the rest. -/
theorem charAt_length (u w : List UInt8) : charAt (u ++ w) u.length = charAt w 0 :=
  charAt_append u w 0

@[simp] theorem charAt_cons : charAt (c :: l) 0 = .ok c := by simp [charAt]

/-! ### `match_literal` -/

/-- `match_literal` compares the content with the string. It stops at the end of the string. -/
theorem matchLiteral_spec (hw : 0 ∉ w) (u pre post l : List UInt8) :
    ∃ b, matchLiteral (u ++ w) (pre ++ (l ++ post)) u.length pre.length l.length = .ok b ∧
      (b = true ↔ List.Forall₂ (fun c x => c = question ∨ x = c) l (w.take l.length)) := by
  -- Induction on the content, which moves from the pattern to `pre` byte by byte.
  induction l generalizing u w pre with
  | nil => exact ⟨true, rfl, by simp⟩
  | cons d l ih =>
      have hd : charAt (pre ++ (d :: l ++ post)) pre.length = .ok d := by
        rw [charAt_length]
        exact charAt_cons
      cases w with
      | nil =>
          refine ⟨false, ?_, by simp⟩
          rw [List.length_cons, matchLiteral, charAt_length]
          rfl
      | cons x w =>
          have hx : x ≠ 0 := fun h0 => hw (h0 ▸ List.mem_cons_self)
          have hread : charAt (u ++ x :: w) u.length = .ok x := by
            rw [charAt_length]
            exact charAt_cons
          rw [List.length_cons, matchLiteral, hread, hd]
          simp only [bind, Except.bind, hx, if_false]
          by_cases hne : d ≠ question ∧ x ≠ d
          · rw [if_pos hne]
            refine ⟨false, rfl, ?_⟩
            simp only [Bool.false_eq_true, List.take_succ_cons, List.forall₂_cons, false_iff]
            exact fun h => h.1.elim hne.1 hne.2
          · rw [if_neg hne]
            have hrest := ih (fun h0 => hw (List.mem_cons_of_mem x h0)) (u ++ [x]) (pre ++ [d])
            obtain ⟨b, hb, hiff⟩ := hrest
            refine ⟨b, ?_, ?_⟩
            · simpa using hb
            · have heq : d = question ∨ x = d := by
                rwa [not_and_or, not_not, not_not] at hne
              rw [hiff, List.take_succ_cons, List.forall₂_cons]
              exact ⟨fun h => ⟨heq, h⟩, fun h => h.2⟩

/-! ### Atoms -/

/-- The end of a group. The scan passes the content and stops at the first `)`, which closes the
group. -/
theorem scanGroup_spec (hl : ∀ c ∈ l, Inner c) {fuel : Nat} (hfuel : l.length + 1 < fuel)
    (pre post k : List UInt8) :
    scanGroup (pre ++ lparen :: (k ++ (l ++ rparen :: post))) pre.length fuel 1 k.length
      = .ok (k.length + l.length + 1) := by
  -- Induction on what is left of the content. The loop has passed `k`.
  induction l generalizing fuel k with
  | nil =>
      obtain ⟨fuel, rfl⟩ : ∃ n, fuel = n + 2 := ⟨fuel - 2, by simp at hfuel; omega⟩
      have hread : charAt (pre ++ lparen :: (k ++ ([] ++ rparen :: post)))
          (pre.length + 1 + k.length) = .ok rparen := by
        have heq : pre ++ lparen :: (k ++ ([] ++ rparen :: post))
            = (pre ++ lparen :: k) ++ rparen :: post := by simp
        have hlen : pre.length + 1 + k.length = (pre ++ lparen :: k).length := by
          simp only [List.length_append, List.length_cons]
          omega
        rw [heq, hlen, charAt_length, charAt_cons]
      have hbehind : ∃ c, charAt (pre ++ lparen :: (k ++ ([] ++ rparen :: post)))
          (pre.length + 1 + (k.length + 1)) = .ok c := by
        have heq : pre ++ lparen :: (k ++ ([] ++ rparen :: post))
            = (pre ++ lparen :: (k ++ [rparen])) ++ post := by simp
        have hlen : pre.length + 1 + (k.length + 1)
            = (pre ++ lparen :: (k ++ [rparen])).length := by
          simp only [List.length_append, List.length_cons, List.length_nil]
          omega
        rw [heq, hlen, charAt_length]
        cases post with
        | nil => exact ⟨0, rfl⟩
        | cons c post => exact ⟨c, charAt_cons⟩
      obtain ⟨c, hc⟩ := hbehind
      rw [scanGroup, hread]
      simp only [bind, Except.bind]
      rw [if_pos (by decide), if_neg (by decide), if_true, scanGroup, hc]
      simp only [bind, Except.bind, Nat.sub_self, Nat.lt_irrefl, and_false, if_false]
      rfl
  | cons d l ih =>
      obtain ⟨fuel, rfl⟩ : ∃ n, fuel = n + 1 := ⟨fuel - 1, by omega⟩
      rw [List.length_cons] at hfuel
      obtain ⟨h0, hopen, hclose⟩ := hl d List.mem_cons_self
      have hread : charAt (pre ++ lparen :: (k ++ (d :: l ++ rparen :: post)))
          (pre.length + 1 + k.length) = .ok d := by
        have heq : pre ++ lparen :: (k ++ (d :: l ++ rparen :: post))
            = (pre ++ lparen :: k) ++ d :: (l ++ rparen :: post) := by simp
        have hlen : pre.length + 1 + k.length = (pre ++ lparen :: k).length := by
          simp only [List.length_append, List.length_cons]
          omega
        rw [heq, hlen, charAt_length, charAt_cons]
      have hrest := ih (fun c hc => hl c (List.mem_cons_of_mem d hc))
        (show l.length + 1 < fuel by omega) (k ++ [d])
      rw [scanGroup, hread]
      simp only [bind, Except.bind]
      rw [if_pos ⟨h0, by decide⟩, if_neg hopen, if_neg hclose]
      have hlen : (k ++ [d]).length = k.length + 1 := by simp
      have heq : k ++ [d] ++ (l ++ rparen :: post) = k ++ (d :: l ++ rparen :: post) := by simp
      rw [hlen, heq] at hrest
      rw [hrest, List.length_cons]
      congr 1
      omega

/-- A word matches an atom when it has the same length and each of its characters matches. A `?`
matches any of them. -/
theorem Atom.mem_lang :
    w ∈ a.lang ↔ List.Forall₂ (fun c x => c = question ∨ x = c) a.content w := Iff.rfl

/-- All words of an atom are as long as its content. -/
theorem Atom.length_lang : ∀ v ∈ a.lang, v.length = a.content.length :=
  fun _ hv => (List.Forall₂.length_eq hv).symm

/-- What `submatch` reads of the atom at the front of a pattern: its first byte, its length, where
it ends, and whether the string starts with a word of it. -/
theorem atom_reads (ha : a.WellFormed) (pre post : List UInt8) :
    ∃ c, charAt (pre ++ (a.render ++ post)) pre.length = .ok c ∧ c ≠ 0 ∧
      atomLen (pre ++ (a.render ++ post)) pre.length c = .ok a.content.length ∧
      (pre.length + (if c = lparen then (a.content.length : Int) + 2 else a.content.length)).toNat
        = (pre ++ a.render).length ∧
      ∀ {u w : List UInt8}, 0 ∉ w → ∃ b, atomMatches (u ++ w) (pre ++ (a.render ++ post)) u.length
          pre.length c a.content.length = .ok b ∧
        (b = true ↔ w.take a.content.length ∈ a.lang) := by
  simp only [Atom.mem_lang]
  cases a with
  | char c =>
      obtain ⟨⟨h0, hopen, -⟩, -⟩ := ha
      refine ⟨c, ?_, h0, ?_, ?_, ?_⟩
      · rw [charAt_length]
        exact charAt_cons
      · rw [atomLen, if_neg hopen]
        rfl
      · rw [if_neg hopen, List.length_append]
        simp only [Atom.content, Atom.render, List.length_singleton]
        omega
      · intro u w hw
        rw [atomMatches, if_neg hopen, charAt_length]
        cases w with
        | nil => exact ⟨false, rfl, by simp [Atom.content]⟩
        | cons x w =>
            have hx : x ≠ 0 := fun h0 => hw (h0 ▸ List.mem_cons_self)
            rw [charAt_cons]
            exact ⟨_, rfl, by simp [Atom.content, hx]⟩
  | group l =>
      obtain ⟨-, hl⟩ := ha
      have heq : pre ++ ((Atom.group l).render ++ post)
          = pre ++ lparen :: ([] ++ (l ++ rparen :: post)) := by simp [Atom.render]
      refine ⟨lparen, ?_, by decide, ?_, ?_, ?_⟩
      · rw [charAt_length]
        exact charAt_cons
      · have hfuel : l.length + 1 < (pre ++ ((Atom.group l).render ++ post)).length + 1 := by
          simp only [Atom.render, List.length_append, List.length_cons, List.length_nil]
          omega
        have hscan := scanGroup_spec hl hfuel pre post []
        rw [← heq] at hscan
        rw [atomLen, if_pos rfl]
        simp only [List.length_nil, Nat.zero_add] at hscan
        rw [hscan]
        simp [Except.map, Atom.content]
      · rw [if_pos rfl, List.length_append]
        simp only [Atom.content, Atom.render, List.length_cons, List.length_append,
          List.length_nil]
        omega
      · intro u w hw
        have hmatch := matchLiteral_spec hw u (pre ++ [lparen]) (rparen :: post) l
        have heq' : pre ++ [lparen] ++ (l ++ rparen :: post)
            = pre ++ ((Atom.group l).render ++ post) := by simp [Atom.render]
        have hlen : (pre ++ [lparen]).length = pre.length + 1 := by simp
        rw [heq', hlen] at hmatch
        rw [atomMatches, if_pos rfl, Int.toNat_natCast]
        exact hmatch

/-! ### `submatch` -/

/-- A pattern does not start with a star. -/
theorem charAt_render_ne_star (hps : ∀ p ∈ ps, p.atom.WellFormed) :
    ∃ d, charAt (render ps) 0 = .ok d ∧ d ≠ star := by
  cases ps with
  | nil => exact ⟨0, rfl, by decide⟩
  | cons p ps =>
      have hp := hps p List.mem_cons_self
      have hcons : render (p :: ps) = p.atom.render ++ ((if p.repeated then [star] else []) ++
          render ps) := by
        simp [render, Piece.render]
      rw [hcons]
      cases ha : p.atom with
      | char c =>
          rw [ha] at hp
          exact ⟨c, charAt_cons, hp.2⟩
      | group l => exact ⟨lparen, charAt_cons, by decide⟩

/-- An atom takes at least one byte. -/
theorem Atom.WellFormed.length_pos (ha : a.WellFormed) : 0 < a.content.length := by
  cases a with
  | char c => exact Nat.one_pos
  | group l => exact List.length_pos_iff.mpr ha.1

/-- The text of a pattern is that of its pieces in order, each with its `*`. -/
theorem render_cons (p : Piece) (ps : List Piece) :
    render (p :: ps)
      = p.atom.render ++ ((if p.repeated then [star] else []) ++ render ps) := by
  simp [render, Piece.render]

/-- The language of a pattern without its first piece. -/
theorem lang_cons (p : Piece) (ps : List Piece) :
    lang (p :: ps) = (if p.repeated then p.atom.lang∗ else p.atom.lang) * lang ps := by
  simp [lang, Piece.lang]

/-- Behind a word of an atom the string goes on with what is left. -/
theorem step_eq {n : Nat} (hn : (w.take n).length = n) (u : List UInt8) :
    ((u.length : Int) + n).toNat = (u ++ w.take n).length ∧
      u ++ w = (u ++ w.take n) ++ w.drop n ∧ (w.drop n).length + n = w.length := by
  have hle : n ≤ w.length := by
    rw [← hn, List.length_take]
    exact Nat.min_le_right _ _
  refine ⟨?_, ?_, ?_⟩
  · rw [List.length_append, hn]
    omega
  · rw [List.append_assoc, List.take_append_drop]
  · rw [List.length_drop]
    omega

/-- `submatch` returns, and tells whether `P` holds. -/
def Decides (str pat : List UInt8) (fuel s p : Nat) (P : Prop) : Prop :=
  ∃ b, submatch str pat fuel s p = .ok b ∧ (b = true ↔ P)

/-- At a piece with a star, when the recursive calls decide. Without a round the rest of the
pattern is behind the star. After a round the whole pattern is left, and a shorter string. -/
theorem Decides.repeated {p : Piece} (hp : p.atom.WellFormed) (hrep : p.repeated = true)
    (hw : 0 ∉ w) {fuel : Nat} (u pre : List UInt8)
    (hnone : Decides (u ++ w) (pre ++ render (p :: ps)) fuel u.length
      ((pre ++ p.atom.render).length + 1) (HasPrefix (lang ps) w))
    (hround : w.take p.atom.content.length ∈ p.atom.lang →
      Decides (u ++ w) (pre ++ render (p :: ps)) fuel
        ((u.length : Int) + p.atom.content.length).toNat pre.length
        (HasPrefix (lang (p :: ps)) (w.drop p.atom.content.length))) :
    Decides (u ++ w) (pre ++ render (p :: ps)) (fuel + 1) u.length pre.length
      (HasPrefix (lang (p :: ps)) w) := by
  obtain ⟨c, hc, hc0, hlen, hnext, hmatch⟩ := atom_reads hp pre
    ((if p.repeated then [star] else []) ++ render ps)
  obtain ⟨b, hb, hbiff⟩ := hmatch (u := u) hw
  rw [← render_cons] at hc hlen hb
  have hstar : charAt (pre ++ render (p :: ps)) (pre ++ p.atom.render).length = .ok star := by
    have hpat : pre ++ render (p :: ps) = (pre ++ p.atom.render) ++ star :: render ps := by
      rw [render_cons, hrep]
      simp
    rw [hpat, charAt_length, charAt_cons]
  obtain ⟨b₁, hb₁, hb₁iff⟩ := hnone
  rw [lang_cons, hrep, if_pos rfl] at hround ⊢
  unfold Decides
  rw [hasPrefix_kstar_mul_of_length Atom.length_lang, ← hb₁iff, ← hbiff, submatch]
  simp only [hc, bind, Except.bind, if_neg hc0, hlen, hnext, hstar, if_true, hb₁, hb]
  cases b₁ with
  | true => exact ⟨true, rfl, by simp⟩
  | false =>
      cases b with
      | false => exact ⟨false, rfl, by simp⟩
      | true =>
          obtain ⟨b₂, hb₂, hb₂iff⟩ := hround (hbiff.mp rfl)
          simp only [hb₂, ← hb₂iff]
          cases b₂ with
          | true => exact ⟨true, rfl, by simp⟩
          | false => exact ⟨false, rfl, by simp⟩

/-- The same at a piece without a star. The atom is matched once, and the rest of the pattern has to
match behind it. -/
theorem Decides.once {p : Piece} (hp : p.atom.WellFormed) (hrep : p.repeated = false)
    (hps : ∀ q ∈ ps, q.atom.WellFormed) (hw : 0 ∉ w) {fuel : Nat} (u pre : List UInt8)
    (hrest : w.take p.atom.content.length ∈ p.atom.lang →
      Decides (u ++ w) (pre ++ render (p :: ps)) fuel
        ((u.length : Int) + p.atom.content.length).toNat (pre ++ p.atom.render).length
        (HasPrefix (lang ps) (w.drop p.atom.content.length))) :
    Decides (u ++ w) (pre ++ render (p :: ps)) (fuel + 1) u.length pre.length
      (HasPrefix (lang (p :: ps)) w) := by
  obtain ⟨c, hc, hc0, hlen, hnext, hmatch⟩ := atom_reads hp pre
    ((if p.repeated then [star] else []) ++ render ps)
  obtain ⟨b, hb, hbiff⟩ := hmatch (u := u) hw
  rw [← render_cons] at hc hlen hb
  obtain ⟨d, hd, hdne⟩ := charAt_render_ne_star hps
  have hread : charAt (pre ++ render (p :: ps)) (pre ++ p.atom.render).length = .ok d := by
    have hpat : pre ++ render (p :: ps) = (pre ++ p.atom.render) ++ render ps := by
      rw [render_cons, hrep]
      simp
    rw [hpat, charAt_length, hd]
  rw [lang_cons, hrep, if_neg Bool.false_ne_true]
  unfold Decides
  rw [hasPrefix_mul_of_length Atom.length_lang, ← hbiff, submatch]
  simp only [hc, bind, Except.bind, if_neg hc0, hlen, hnext, hread, if_neg hdne, hb]
  cases b with
  | false => exact ⟨false, rfl, by simp⟩
  | true =>
      obtain ⟨b₁, hb₁, hb₁iff⟩ := hrest (hbiff.mp rfl)
      exact ⟨b₁, by simp only [if_true, hb₁], by simp [hb₁iff]⟩

/-- From the position behind `pre` and `u`, `submatch` returns. It tells whether the rest of the
string starts with a word of the rest of the pattern. -/
theorem submatch_spec (hw : 0 ∉ w) (hps : ∀ p ∈ ps, p.atom.WellFormed) {fuel : Nat}
    (hfuel : (render ps).length + w.length < fuel) (u pre : List UInt8) :
    Decides (u ++ w) (pre ++ render ps) fuel u.length pre.length (HasPrefix (lang ps) w) := by
  -- A recursive call has less of the pattern left, or less of the string.
  induction fuel generalizing ps w u pre with
  | zero => omega
  | succ fuel ih =>
      cases ps with
      | nil =>
          refine ⟨true, ?_, iff_of_true rfl hasPrefix_one⟩
          rw [submatch, charAt_length]
          rfl
      | cons p ps =>
          have hp := hps p List.mem_cons_self
          have hrest : ∀ q ∈ ps, q.atom.WellFormed := fun q hq => hps q (List.mem_cons_of_mem p hq)
          have hpos := hp.length_pos
          have hw' : 0 ∉ w.drop p.atom.content.length := fun h0 => hw (List.mem_of_mem_drop h0)
          have hfuel' := hfuel
          rw [render_cons, List.length_append, List.length_append] at hfuel'
          have hrender : 0 < p.atom.render.length := by
            cases p.atom with
            | char c => exact Nat.one_pos
            | group l => exact Nat.succ_pos _
          cases hrep : p.repeated with
          | true =>
              rw [hrep] at hfuel'
              simp only [if_true, List.length_singleton] at hfuel'
              have hpat : pre ++ render (p :: ps)
                  = (pre ++ p.atom.render ++ [star]) ++ render ps := by
                rw [render_cons, hrep]
                simp
              refine Decides.repeated hp hrep hw u pre ?_ fun hmem => ?_
              · have hnone := ih hw hrest (by omega) u (pre ++ p.atom.render ++ [star])
                rwa [← hpat, List.length_append, List.length_singleton] at hnone
              · obtain ⟨hto, happend, hlength⟩ := step_eq (Atom.length_lang _ hmem) u
                have hround := ih hw' hps (show (render (p :: ps)).length +
                    (w.drop p.atom.content.length).length < fuel by omega)
                  (u ++ w.take p.atom.content.length) pre
                rwa [← happend, ← hto] at hround
          | false =>
              rw [hrep] at hfuel'
              simp only [Bool.false_eq_true, if_false, List.length_nil] at hfuel'
              have hpat : pre ++ render (p :: ps) = (pre ++ p.atom.render) ++ render ps := by
                rw [render_cons, hrep]
                simp
              refine Decides.once hp hrep hrest hw u pre fun hmem => ?_
              obtain ⟨hto, happend, hlength⟩ := step_eq (Atom.length_lang _ hmem) u
              have hbehind := ih hw' hrest (show (render ps).length +
                  (w.drop p.atom.content.length).length < fuel by omega)
                (u ++ w.take p.atom.content.length) (pre ++ p.atom.render)
              rwa [← happend, ← hto, ← hpat] at hbehind

/-! ### `is_match` -/

/-- The loop over the start positions, behind `u`. It tells whether some suffix of the rest starts
with a word of the pattern. -/
theorem isMatchLoop_spec (u : List UInt8) (hu : 0 ∉ u ++ w)
    (hps : ∀ p ∈ ps, p.atom.WellFormed) {fuel : Nat} (hfuel : w.length < fuel) :
    ∃ b, isMatchLoop (u ++ w) (render ps) fuel u.length = .ok b ∧
      (b = true ↔ ∃ v rest, w = v ++ rest ∧ HasPrefix (lang ps) rest) := by
  -- Induction on the rest of the string.
  induction w generalizing u fuel with
  | nil =>
      obtain ⟨fuel, rfl⟩ : ∃ n, fuel = n + 1 := ⟨fuel - 1, by omega⟩
      have hdepth : (render ps).length + ([] : List UInt8).length
          < matchFuel (u ++ []) (render ps) := by
        simp only [matchFuel, List.length_append, List.length_nil]
        omega
      obtain ⟨b, hb, hiff⟩ := submatch_spec List.not_mem_nil hps hdepth u []
      refine ⟨b, ?_, ?_⟩
      · have hlen : (u ++ []).length = u.length := by simp
        rw [isMatchLoop, charAt_length, hlen]
        exact hb
      · rw [hiff]
        constructor
        · exact fun h => ⟨[], [], rfl, h⟩
        · intro ⟨v, rest, hvr, h⟩
          rwa [(List.append_eq_nil_iff.mp hvr.symm).2] at h
  | cons x w ih =>
      obtain ⟨fuel, rfl⟩ : ∃ n, fuel = n + 1 := ⟨fuel - 1, by omega⟩
      have hw : 0 ∉ x :: w := fun h0 => hu (List.mem_append_right u h0)
      have hx : x ≠ 0 := fun h0 => hw (h0 ▸ List.mem_cons_self)
      have hdepth : (render ps).length + (x :: w).length
          < matchFuel (u ++ x :: w) (render ps) := by
        simp only [matchFuel, List.length_append]
        omega
      obtain ⟨b, hb, hiff⟩ := submatch_spec hw hps hdepth u []
      obtain ⟨b', hb', hiff'⟩ := ih (u ++ [x]) (by simpa using hu)
        (show w.length < fuel by simpa using hfuel)
      have hlen : (u ++ [x]).length = u.length + 1 := by simp
      rw [List.append_assoc, hlen] at hb'
      -- Either the string matches here, or behind its first byte.
      have hsplit : (∃ v rest, x :: w = v ++ rest ∧ HasPrefix (lang ps) rest) ↔
          HasPrefix (lang ps) (x :: w) ∨
            ∃ v rest, w = v ++ rest ∧ HasPrefix (lang ps) rest := by
        constructor
        · intro ⟨v, rest, hvr, h⟩
          cases v with
          | nil => exact Or.inl (hvr ▸ h)
          | cons y v => exact Or.inr ⟨v, rest, (List.cons.inj hvr).2, h⟩
        · rintro (h | ⟨v, rest, hvr, h⟩)
          · exact ⟨[], x :: w, rfl, h⟩
          · exact ⟨x :: v, rest, by rw [hvr, List.cons_append], h⟩
      rw [isMatchLoop, charAt_length, charAt_cons, hsplit, ← hiff, ← hiff']
      simp only [bind, Except.bind, ne_eq, hx, not_false_eq_true, if_true]
      rw [List.nil_append] at hb
      rw [show ([] : List UInt8).length = 0 from rfl] at hb
      cases b with
      | true => exact ⟨true, by rw [hb]; rfl, by simp⟩
      | false => exact ⟨b', by rw [hb]; exact hb', by simp⟩

/-- `is_match` returns. It tells whether some part of the string is in the language of the
pattern. -/
theorem isMatch_spec (hw : 0 ∉ w) (hps : ∀ p ∈ ps, p.atom.WellFormed) :
    ∃ b, isMatch w (some (render ps)) = .ok b ∧ (b = true ↔ HasInfix (lang ps) w) := by
  rw [hasInfix_iff]
  exact isMatchLoop_spec [] hw hps (Nat.lt_succ_self _)

end SysProg.Dirtree
