import SysProg.Shell.LexSpec

/-!
# `SysProg.Proofs.Shell.Renders`: renderings, character by character

What a rendering looks like from its first character on. `WordTail` and `QuoteTail` are the same for
the inside of a word and of a quoted segment, with the value that is already read.

* `renders_space`, `renders_operator`, `renders_text`: the three kinds of first characters.
* `wordTail_*`, `quoteTail_*`: the same inside a word and a quoted segment.
-/

set_option autoImplicit false

namespace SysProg.Shell

variable {behindWord : Bool} {c q : UInt8} {r v : List UInt8} {t : Token} {ts : List Token}
  {pieces : List WordPiece}

/-- A character that a word can start with, or go on with. -/
def IsText (c : UInt8) : Prop := isspace c = false ∧ ∀ t, operatorChar t ≠ some c

/-- The empty text is white space. It stands between two tokens that follow each other directly. -/
theorem isBlank_nil : IsBlank [] := fun _ hc => absurd hc List.not_mem_nil

/-- A quote of one of the two kinds. -/
def IsQuote (q : UInt8) : Prop := q = dquote ∨ q = squote

/-- No operator is white space. So the two tests of the lexer exclude each other, in whatever order
it makes them. -/
theorem isspace_of_operatorChar (h : operatorChar t = some c) : isspace c = false := by
  cases t with
  | word value => exact absurd h (by simp [operatorChar])
  | pipe | bg | redout | redin => exact Option.some.inj h ▸ (by decide)

/-- The operator token that a character stands for. -/
def operatorOf (c : UInt8) : Option Token :=
  if c = bar then some .pipe
  else if c = ampersand then some .bg
  else if c = greater then some .redout
  else if c = less then some .redin
  else none

/-- `operatorOf` is the table of the operators, read from the characters to the tokens. Each
operator is one character. -/
theorem operatorOf_eq_some_iff : operatorOf c = some t ↔ operatorChar t = some c := by
  constructor
  · intro h
    unfold operatorOf at h
    by_cases hbar : c = bar
    · rw [if_pos hbar] at h
      rw [← Option.some.inj h, hbar]
      rfl
    · rw [if_neg hbar] at h
      by_cases hampersand : c = ampersand
      · rw [if_pos hampersand] at h
        rw [← Option.some.inj h, hampersand]
        rfl
      · rw [if_neg hampersand] at h
        by_cases hgreater : c = greater
        · rw [if_pos hgreater] at h
          rw [← Option.some.inj h, hgreater]
          rfl
        · rw [if_neg hgreater] at h
          by_cases hless : c = less
          · rw [if_pos hless] at h
            rw [← Option.some.inj h, hless]
            rfl
          · rw [if_neg hless] at h
            contradiction
  · intro h
    cases t with
    | word value => exact absurd h (by simp [operatorChar])
    | pipe | bg | redout | redin => exact Option.some.inj h ▸ (by decide)

/-- Different operators have different characters. So a text tells which operator it starts with. -/
theorem operatorChar_inj {t' : Token} (h : operatorChar t = some c)
    (h' : operatorChar t' = some c) : t = t' := by
  rw [← operatorOf_eq_some_iff] at h h'
  rw [h] at h'
  exact Option.some.inj h'

/-- A quote is a character that a word can start with or go on with. It is no white space and no
operator. -/
theorem isText_of_isQuote (hq : IsQuote q) : IsText q := by
  have hnone : operatorOf q = none := by
    rcases hq with rfl | rfl <;> decide
  refine ⟨by rcases hq with rfl | rfl <;> decide, fun t ht => ?_⟩
  rw [← operatorOf_eq_some_iff, hnone] at ht
  contradiction

/-- A word starts with a character of this kind. It has a piece, and the text of a piece is never
empty: a plain character, or at least two quotes. -/
theorem text_head (hne : pieces ≠ []) (hp : ∀ p ∈ pieces, WordPiece.WellFormed p) :
    ∃ c l, pieces.flatMap WordPiece.text = c :: l ∧ IsText c := by
  cases pieces with
  | nil => exact absurd rfl hne
  | cons p ps =>
      rw [List.flatMap_cons]
      cases hpiece : p with
      | plain c =>
          have hplain : IsPlain c := by
            have := hp p List.mem_cons_self
            rwa [hpiece] at this
          exact ⟨c, _, rfl, hplain.1, hplain.2.1⟩
      | dquoted segment => exact ⟨dquote, _, rfl, isText_of_isQuote (Or.inl rfl)⟩
      | squoted segment => exact ⟨squote, _, rfl, isText_of_isQuote (Or.inr rfl)⟩

/-- The rest of a text behind a part of a word with the value `v`. -/
def WordTail (v r : List UInt8) (ts : List Token) : Prop :=
  ∃ (pieces : List WordPiece) (rest : List UInt8) (ts' : List Token),
    r = pieces.flatMap WordPiece.text ++ rest ∧
    (∀ p ∈ pieces, WordPiece.WellFormed p) ∧
    ts = .word (v ++ pieces.flatMap WordPiece.value) :: ts' ∧ Renders true rest ts'

/-- The rest of a text inside a segment that ends with the quote `q`. -/
def QuoteTail (q : UInt8) (v r : List UInt8) (ts : List Token) : Prop :=
  ∃ segment rest, r = segment ++ q :: rest ∧ q ∉ segment ∧ WordTail (v ++ segment) rest ts

/-! ### The first character of a rendering -/

/-- The empty text is the rendering of no token. Every token has at least one character. -/
theorem renders_nil : Renders behindWord [] ts ↔ ts = [] := by
  constructor
  · intro h
    generalize hw : ([] : List UInt8) = w at h
    cases h with
    | done => rfl
    | operator => exact absurd hw (by simp)
    | word _ _ hne hp _ =>
        obtain ⟨c, l, hcl, -⟩ := text_head hne hp
        exact absurd hw (by simp [hcl])
  · intro h
    rw [h]
    exact Renders.done isBlank_nil

/-- White space in front. It is skipped, and what follows is not directly behind a word any more. -/
theorem renders_space (hc : isspace c = true) :
    Renders behindWord (c :: r) ts ↔ Renders false r ts := by
  have hblank {ws : List UInt8} (h : IsBlank ws) : IsBlank (c :: ws) := by
    intro x hx
    cases hx with
    | head => exact hc
    | tail _ hx => exact h x hx
  constructor
  · intro h
    generalize hw : c :: r = w at h
    cases h with
    | @done _ ws hws =>
        rw [← hw] at hws
        exact Renders.done fun x hx => hws x (List.mem_cons_of_mem c hx)
    | @operator _ ws t d rest ts hws hd hrest =>
        cases ws with
        | nil =>
            have hcd : c = d := (List.cons.inj hw).1
            rw [hcd, isspace_of_operatorChar hd] at hc
            contradiction
        | cons x ws =>
            rw [(List.cons.inj hw).2]
            exact Renders.operator (fun y hy => hws y (List.mem_cons_of_mem x hy)) hd hrest
    | @word _ ws pieces rest ts hws _ hne hp hrest =>
        cases ws with
        | nil =>
            obtain ⟨d, l, hdl, htext⟩ := text_head hne hp
            rw [hdl] at hw
            have hcd : c = d := (List.cons.inj hw).1
            rw [hcd, htext.1] at hc
            contradiction
        | cons x ws =>
            rw [(List.cons.inj hw).2]
            exact Renders.word (fun y hy => hws y (List.mem_cons_of_mem x hy))
              (fun h => absurd h Bool.false_ne_true) hne hp hrest
  · intro h
    cases h with
    | done hws => exact Renders.done (hblank hws)
    | operator hws hd hrest => exact Renders.operator (hblank hws) hd hrest
    | word hws _ hne hp hrest =>
        exact Renders.word (hblank hws) (fun _ => List.cons_ne_nil _ _) hne hp hrest

/-- A rendering that starts with something else than white space starts with a token. It is an
operator or a word, and a word can only stand there if no other one is directly in front. -/
theorem renders_cons (hc : isspace c = false) (h : Renders behindWord (c :: r) ts) :
    (∃ t ts', operatorChar t = some c ∧ ts = t :: ts' ∧ Renders false r ts') ∨
      (behindWord = false ∧ IsText c ∧ WordTail [] (c :: r) ts) := by
  -- No blank starts with this character.
  have hblank {ws l : List UInt8} {d : UInt8} (hw : c :: r = d :: ws ++ l)
      (hws : IsBlank (d :: ws)) : False := by
    have hd := hws d List.mem_cons_self
    rw [← (List.cons.inj hw).1, hc] at hd
    contradiction
  generalize hw : c :: r = w at h
  cases h with
  | done hws =>
      rw [← hw] at hws
      exact (hblank (l := []) (List.append_nil _).symm hws).elim
  | @operator _ ws t d rest ts' hws hd hrest =>
      cases ws with
      | nil =>
          obtain ⟨rfl, rfl⟩ := List.cons.inj hw
          exact Or.inl ⟨t, ts', hd, rfl, hrest⟩
      | cons x ws => exact (hblank hw hws).elim
  | @word _ ws pieces rest ts' hws hbehind hne hp hrest =>
      cases ws with
      | nil =>
          obtain ⟨d, l, hdl, htext⟩ := text_head hne hp
          rw [List.nil_append, hdl] at hw
          rw [(List.cons.inj hw).1]
          refine Or.inr ⟨?_, htext, pieces, rest, ts', ?_, hp, rfl, hrest⟩
          · rw [← Bool.not_eq_true]
            exact fun h => hbehind h rfl
          · rw [List.nil_append, hdl]
      | cons x ws => exact (hblank hw hws).elim

/-- An operator in front. It is a token of its own, and a word may follow it directly. -/
theorem renders_operator (hc : operatorChar t = some c) :
    Renders behindWord (c :: r) ts ↔ ∃ ts', ts = t :: ts' ∧ Renders false r ts' := by
  constructor
  · intro h
    rcases renders_cons (isspace_of_operatorChar hc) h with
      ⟨t', ts', hc', rfl, hrest⟩ | ⟨-, htext, -⟩
    · exact ⟨ts', by rw [operatorChar_inj hc hc'], hrest⟩
    · exact absurd hc (htext.2 t)
  · rintro ⟨ts', rfl, h⟩
    exact Renders.operator isBlank_nil hc h

/-- Directly behind a word there is no other word. Two words without white space or an operator
between them are one word. -/
theorem not_renders_text (hc : IsText c) : ¬ Renders true (c :: r) ts := by
  intro h
  rcases renders_cons hc.1 h with ⟨t, ts', hc', -⟩ | ⟨hbehind, -⟩
  · exact hc.2 t hc'
  · contradiction

/-- A character of a word in front. A word starts there, with an empty value so far. -/
theorem renders_text (hc : IsText c) : Renders false (c :: r) ts ↔ WordTail [] (c :: r) ts := by
  constructor
  · intro h
    rcases renders_cons hc.1 h with ⟨t, ts', hc', -⟩ | ⟨-, -, h⟩
    · exact absurd hc' (hc.2 t)
    · exact h
  · intro ⟨pieces, rest, ts', hr, hp, hts, hrest⟩
    have hne : pieces ≠ [] := by
      intro hnil
      rw [hnil, List.flatMap_nil, List.nil_append] at hr
      rw [← hr] at hrest
      exact not_renders_text hc hrest
    rw [hr, hts]
    exact Renders.word isBlank_nil (fun h => absurd h Bool.false_ne_true) hne hp hrest

/-! ### Inside a word -/

/-- A word ends in front of any other character. There is no more piece to take, so its value is the
token. -/
theorem wordTail_of_not_text (hr : ∀ c l, r = c :: l → ¬ IsText c) :
    WordTail v r ts ↔ ∃ ts', ts = .word v :: ts' ∧ Renders true r ts' := by
  constructor
  · intro ⟨pieces, rest, ts', hpieces, hp, hts, hrest⟩
    have hnil : pieces = [] := by
      by_contra hne
      obtain ⟨c, l, hcl, htext⟩ := text_head hne hp
      exact hr c (l ++ rest) (by rw [hpieces, hcl, List.cons_append]) htext
    rw [hnil, List.flatMap_nil, List.nil_append] at hpieces
    rw [hnil, List.flatMap_nil, List.append_nil] at hts
    rw [hpieces]
    exact ⟨ts', hts, hrest⟩
  · intro ⟨ts', hts, hrest⟩
    exact ⟨[], r, ts', rfl, by simp, by simpa using hts, hrest⟩

/-- A word ends with the text. It is the last token. -/
theorem wordTail_nil : WordTail v [] ts ↔ ts = [.word v] := by
  rw [wordTail_of_not_text (by simp)]
  simp only [renders_nil, exists_eq_right]

/-- A word ends in front of white space. What follows may start with a word again. -/
theorem wordTail_space (hc : isspace c = true) :
    WordTail v (c :: r) ts ↔ ∃ ts', ts = .word v :: ts' ∧ Renders false r ts' := by
  rw [wordTail_of_not_text]
  · simp only [renders_space hc]
  · intro d l hdl htext
    rw [(List.cons.inj hdl).1, htext.1] at hc
    contradiction

/-- A word ends in front of an operator, which is the token behind it. What follows the operator may
start with a word again. -/
theorem wordTail_operator (hc : operatorChar t = some c) :
    WordTail v (c :: r) ts ↔ ∃ ts', ts = .word v :: t :: ts' ∧ Renders false r ts' := by
  rw [wordTail_of_not_text]
  · simp only [renders_operator hc]
    constructor
    · rintro ⟨ts', hts, ts'', rfl, h⟩
      exact ⟨ts'', hts, h⟩
    · intro ⟨ts'', hts, h⟩
      exact ⟨t :: ts'', hts, ts'', rfl, h⟩
  · intro d l hdl htext
    rw [(List.cons.inj hdl).1] at hc
    exact htext.2 t hc

/-- The piece at the front of a word, for each of its characters. A word does not end in front of
such a character, so the piece is there. -/
theorem wordTail_cons (hc : IsText c) :
    WordTail v (c :: r) ts ↔ ∃ p rest, WordPiece.WellFormed p ∧ c :: r = p.text ++ rest ∧
      WordTail (v ++ p.value) rest ts := by
  constructor
  · intro ⟨pieces, rest, ts', hr, hp, hts, hrest⟩
    cases pieces with
    | nil =>
        rw [List.flatMap_nil, List.nil_append] at hr
        rw [← hr] at hrest
        exact absurd hrest (not_renders_text hc)
    | cons p ps =>
        refine ⟨p, ps.flatMap WordPiece.text ++ rest, hp p List.mem_cons_self, ?_,
          ps, rest, ts', rfl, fun p' hp' => hp p' (List.mem_cons_of_mem p hp'), ?_, hrest⟩
        · rw [hr, List.flatMap_cons, List.append_assoc]
        · rw [hts, List.flatMap_cons, List.append_assoc]
  · intro ⟨p, rest, hp, hr, ps, rest', ts', hrest, hps, hts, h⟩
    refine ⟨p :: ps, rest', ts', ?_, ?_, ?_, h⟩
    · rw [hr, hrest, List.flatMap_cons, List.append_assoc]
    · intro p' hp'
      cases hp' with
      | head => exact hp
      | tail _ hp' => exact hps p' hp'
    · rw [hts, List.flatMap_cons, List.append_assoc]

/-- A plain character is a piece of its own, and it goes to the end of the value. -/
theorem wordTail_plain (hc : IsPlain c) : WordTail v (c :: r) ts ↔ WordTail (v ++ [c]) r ts := by
  rw [wordTail_cons ⟨hc.1, hc.2.1⟩]
  constructor
  · intro ⟨p, rest, hp, hr, h⟩
    cases p with
    | plain d =>
        obtain ⟨hcd, hr⟩ := List.cons.inj hr
        rw [hr, hcd]
        exact h
    | dquoted segment => exact absurd (List.cons.inj hr).1 hc.2.2.1
    | squoted segment => exact absurd (List.cons.inj hr).1 hc.2.2.2
  · exact fun h => ⟨.plain c, r, hc, rfl, h⟩

/-- A quote opens a segment. The piece is the whole segment, up to the next quote of the same kind.
-/
theorem wordTail_quote (hq : IsQuote q) : WordTail v (q :: r) ts ↔ QuoteTail q v r ts := by
  have hne : dquote ≠ squote := by decide
  rw [wordTail_cons (isText_of_isQuote hq)]
  constructor
  · intro ⟨p, rest, hp, hr, h⟩
    cases p with
    | plain d =>
        rw [(List.cons.inj hr).1] at hq
        exact hq.elim (fun h => absurd h hp.2.2.1) (fun h => absurd h hp.2.2.2)
    | dquoted segment =>
        obtain ⟨rfl, rfl⟩ := List.cons.inj hr
        exact ⟨segment, rest, List.append_assoc _ _ _, hp, h⟩
    | squoted segment =>
        obtain ⟨rfl, rfl⟩ := List.cons.inj hr
        exact ⟨segment, rest, List.append_assoc _ _ _, hp, h⟩
  · intro ⟨segment, rest, hr, hsegment, h⟩
    rcases hq with rfl | rfl
    · exact ⟨.dquoted segment, rest, hsegment, by simp [WordPiece.text, hr], h⟩
    · exact ⟨.squoted segment, rest, hsegment, by simp [WordPiece.text, hr], h⟩

/-! ### Inside a quoted segment -/

/-- A segment that is not closed has no rendering. This is the quote error of the lexer. -/
theorem quoteTail_nil : ¬ QuoteTail q v [] ts := by
  rintro ⟨segment, rest, h, -⟩
  exact absurd h (by simp)

/-- The closing quote ends the segment, and the word goes on behind it. The value stays as it is. -/
theorem quoteTail_close : QuoteTail q v (q :: r) ts ↔ WordTail v r ts := by
  constructor
  · intro ⟨segment, rest, hr, hsegment, h⟩
    cases segment with
    | nil =>
        rw [(List.cons.inj hr).2]
        simpa using h
    | cons d segment =>
        rw [(List.cons.inj hr).1] at hsegment
        exact absurd List.mem_cons_self hsegment
  · exact fun h => ⟨[], r, rfl, List.not_mem_nil, by simpa using h⟩

/-- Any other character inside of the segment goes to the end of the value, also white space, an
operator or the other quote. -/
theorem quoteTail_cons (hc : c ≠ q) :
    QuoteTail q v (c :: r) ts ↔ QuoteTail q (v ++ [c]) r ts := by
  constructor
  · intro ⟨segment, rest, hr, hsegment, h⟩
    cases segment with
    | nil => exact absurd (List.cons.inj hr).1 hc
    | cons d segment =>
        obtain ⟨rfl, rfl⟩ := List.cons.inj hr
        refine ⟨segment, rest, rfl, fun hmem => hsegment (List.mem_cons_of_mem c hmem), ?_⟩
        simpa using h
  · intro ⟨segment, rest, hr, hsegment, h⟩
    refine ⟨c :: segment, rest, by rw [hr, List.cons_append], ?_, by simpa using h⟩
    rw [List.mem_cons, not_or]
    exact ⟨Ne.symm hc, hsegment⟩

end SysProg.Shell
