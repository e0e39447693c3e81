import SysProg.Decomment.Segments

/-!
# `SysProg.Proofs.Decomment.Output`: the comments are removed

Between two segments the machine is not always in the state `normal`: it may hold back a `/`, and
it may be in a line comment whose newline is still to come. `Ready` says in which states it can be,
given what follows, and `step_of_ready` says that the next byte hides the difference.

* `run_first`: the machine over one segment.
* `exists_cuts`: each text can be cut.
* `decomment_stdout`: the standard output is the cut text with the comments replaced.
-/

set_option autoImplicit false

namespace SysProg.Decomment

variable {m : Machine} {text rest body : List UInt8} {s : Segment} {segments : List Segment}
  {c q : UInt8}

@[simp] theorem Machine.putchar_output (m : Machine) (c : UInt8) :
    (m.putchar c).output = m.output ++ [c] := rfl

@[simp] theorem Machine.putchar_state (m : Machine) (c : UInt8) :
    (m.putchar c).state = m.state := rfl

@[simp] theorem Machine.goto_output (m : Machine) (state : State) :
    (m.goto state).output = m.output := rfl

@[simp] theorem Machine.goto_state (m : Machine) (state : State) :
    (m.goto state).state = state := rfl

/-- The line number does not matter to the rest. -/
@[simp] theorem step_state (m : Machine) (c : UInt8) : (step m c).state = (dispatch m c).state := by
  unfold step
  by_cases hc : c = newline <;> simp [hc]

@[simp] theorem step_output (m : Machine) (c : UInt8) :
    (step m c).output = (dispatch m c).output := by
  unfold step
  by_cases hc : c = newline <;> simp [hc]

/-! ### Inside of a segment -/

/-- The inside of a block comment. Behind a star the next byte may not be a slash. -/
theorem run_block (h : (m.state = .inBlockComment ∧ ¬ close <:+: body) ∨
      (m.state = .blockCommentStar ∧ ¬ close <:+: star :: body)) :
    ((body.foldl step m).state = .inBlockComment ∨
        (body.foldl step m).state = .blockCommentStar) ∧
      (body.foldl step m).output = m.output ++ body.filter (· = newline) := by
  induction body generalizing m with
  | nil => exact ⟨h.imp And.left And.left, by simp⟩
  | cons c body ih =>
      rw [List.foldl_cons]
      -- The step keeps the condition for what is left.
      have hstep : (((step m c).state = .inBlockComment ∧ ¬ close <:+: body) ∨
            ((step m c).state = .blockCommentStar ∧ ¬ close <:+: star :: body)) ∧
          (step m c).output = m.output ++ [c].filter (· = newline) := by
        rcases h with ⟨hstate, hclose⟩ | ⟨hstate, hclose⟩
        · have hbody : ¬ close <:+: body := fun h => hclose (List.infix_cons h)
          by_cases hstar : c = star
          · subst hstar
            have hne : star ≠ newline := by decide
            exact ⟨Or.inr (by simp [dispatch, hstate, hclose]), by simp [dispatch, hstate, hne]⟩
          · by_cases hline : c = newline
            · subst hline
              simp [dispatch, hstate, hstar, hbody]
            · simp [dispatch, hstate, hstar, hline, hbody]
        · have hbody : ¬ close <:+: body :=
            fun h => hclose (List.infix_cons (List.infix_cons h))
          have hslash : c ≠ slash := by
            intro hc
            rw [hc] at hclose
            exact hclose (List.prefix_append close body).isInfix
          by_cases hstar : c = star
          · subst hstar
            have hnext : ¬ close <:+: star :: body := fun h => hclose (List.infix_cons h)
            have hne : star ≠ newline := by decide
            exact ⟨Or.inr (by simp [dispatch, hstate, hnext, hslash]),
              by simp [dispatch, hstate, hslash, hne]⟩
          · by_cases hline : c = newline
            · subst hline
              simp [dispatch, hstate, hslash, hstar, hbody]
            · simp [dispatch, hstate, hslash, hstar, hline, hbody]
      obtain ⟨hstate, hout⟩ := ih hstep.1
      refine ⟨hstate, ?_⟩
      rw [hout, hstep.2, List.append_assoc, ← List.filter_append, List.singleton_append]

/-- The inside of a line comment. -/
theorem run_line (hstate : m.state = .inLineComment) (hbody : newline ∉ body) :
    (body.foldl step m).state = .inLineComment ∧ (body.foldl step m).output = m.output := by
  induction body generalizing m with
  | nil => exact ⟨hstate, rfl⟩
  | cons c body ih =>
      have hc : c ≠ newline := fun hc => hbody (hc ▸ List.mem_cons_self)
      have hstep : (step m c).state = .inLineComment ∧ (step m c).output = m.output := by
        simp [dispatch, hstate, hc]
      obtain ⟨hstate', hout⟩ := ih hstep.1 (fun h => hbody (List.mem_cons_of_mem c h))
      rw [List.foldl_cons]
      exact ⟨hstate', by rw [hout, hstep.2]⟩

/-- The state inside of a literal. -/
def literalState (q : UInt8) : State := if q = dquote then .inString else .inChar

/-- The state behind a backslash. -/
def escapeState (q : UInt8) : State := if q = dquote then .stringEscape else .charEscape

/-- What the machine does in a literal is the same for both quotes. It copies the byte, and a
backslash or the closing quote changes the state. -/
theorem dispatch_literal (hq : IsQuote q) (hstate : m.state = literalState q) :
    (dispatch m c).output = m.output ++ [c] ∧
      (dispatch m c).state = if c = q then .normal
        else if c = backslash then escapeState q else literalState q := by
  have hquotes : squote ≠ dquote := by decide
  rcases hq with rfl | rfl
  · unfold dispatch
    rw [hstate]
    by_cases hc : c = dquote
    · simp [literalState, hc]
    · by_cases hback : c = backslash
      · subst hback
        simp [literalState, escapeState, hc]
      · simp [literalState, hc, hback, hstate]
  · unfold dispatch
    rw [hstate]
    by_cases hc : c = squote
    · simp [literalState, hquotes, hc]
    · by_cases hback : c = backslash
      · subst hback
        simp [literalState, escapeState, hquotes, hc]
      · simp [literalState, hquotes, hc, hback, hstate]

/-- The character behind a backslash in a literal. It is printed whatever it is, and the literal
goes on. -/
theorem dispatch_escape (hq : IsQuote q) (hstate : m.state = escapeState q) :
    (dispatch m c).output = m.output ++ [c] ∧ (dispatch m c).state = literalState q := by
  have hquotes : squote ≠ dquote := by decide
  unfold dispatch
  rw [hstate]
  rcases hq with rfl | rfl <;> simp [literalState, escapeState, hquotes]

/-- The inside of a literal. Every byte is copied, and a backslash takes the next byte with it, so
an escaped quote does not end the literal. -/
theorem run_literal (hq : IsQuote q) (hbody : Unquoted q body) (hstate : m.state = literalState q) :
    (body.foldl step m).state = literalState q ∧
      (body.foldl step m).output = m.output ++ body := by
  induction hbody generalizing m with
  | nil => exact ⟨hstate, by simp⟩
  | @plain c body hne hback _ ih =>
      obtain ⟨hout, hnext⟩ := dispatch_literal (c := c) hq hstate
      rw [if_neg hne, if_neg hback, ← step_state] at hnext
      obtain ⟨hstate', hout'⟩ := ih hnext
      rw [List.foldl_cons]
      refine ⟨hstate', ?_⟩
      rw [hout', step_output, hout, List.append_assoc, List.singleton_append]
  | @escape c body _ ih =>
      have hne : backslash ≠ q := by
        rcases hq with rfl | rfl <;> decide
      obtain ⟨hout, hnext⟩ := dispatch_literal (c := backslash) hq hstate
      rw [if_neg hne, if_pos rfl, ← step_state] at hnext
      obtain ⟨hout₂, hnext₂⟩ := dispatch_escape (c := c) hq hnext
      rw [← step_state] at hnext₂
      obtain ⟨hstate', hout'⟩ := ih hnext₂
      rw [List.foldl_cons, List.foldl_cons]
      refine ⟨hstate', ?_⟩
      rw [hout', step_output, hout₂, step_output, hout]
      simp

/-- A trailing backslash of an open literal is copied as well. -/
theorem run_openLiteral (hq : IsQuote q)
    (hbody : Unquoted q body ∨ ∃ b, body = b ++ [backslash] ∧ Unquoted q b)
    (hstate : m.state = literalState q) :
    ((body.foldl step m).state = literalState q ∨ (body.foldl step m).state = escapeState q) ∧
      (body.foldl step m).output = m.output ++ body := by
  rcases hbody with hbody | ⟨b, rfl, hbody⟩
  · obtain ⟨hstate', hout⟩ := run_literal hq hbody hstate
    exact ⟨Or.inl hstate', hout⟩
  · have hne : backslash ≠ q := by
      rcases hq with rfl | rfl <;> decide
    obtain ⟨hstate', hout⟩ := run_literal hq hbody hstate
    obtain ⟨hout', hnext⟩ := dispatch_literal (c := backslash) hq hstate'
    rw [if_neg hne, if_pos rfl] at hnext
    rw [List.foldl_append, List.foldl_cons, List.foldl_nil, step_state, step_output, hout', hout,
      List.append_assoc]
    exact ⟨Or.inr hnext, rfl⟩

/-! ### Between two segments -/

/-- The output, with the slash that is held back. -/
def flushed (m : Machine) : List UInt8 :=
  if m.state = .slash then m.output ++ [slash] else m.output

/-- The machine is between two segments, and `rest` is what follows. -/
def Ready (m : Machine) (rest : List UInt8) : Prop :=
  match m.state with
  | .normal => True
  | .slash => rest.head? ≠ some star ∧ rest.head? ≠ some slash
  | .inLineComment => rest = [] ∨ rest.head? = some newline
  | _ => rest = []

/-- In the normal state no character is held back. So the output is complete, whatever comes next.
-/
theorem ready_of_normal (h : m.state = .normal) (rest : List UInt8) : Ready m rest := by
  rw [Ready, h]
  exact True.intro

/-- In all states but one nothing is held back. -/
theorem flushed_of_ne (h : m.state ≠ .slash) : flushed m = m.output := if_neg h

/-- The next byte is handled as in the state `normal`. Behind a slash the machine has to write the
slash first, and then the byte is a new start. -/
theorem step_of_ready (h : Ready m (c :: rest)) :
    step m c = step { m with state := .normal, output := flushed m } c := by
  unfold Ready at h
  have hdispatch : dispatch m c = dispatch { m with state := .normal, output := flushed m } c := by
    obtain ⟨state, lineCur, lineCom, output⟩ := m
    cases state with
    | normal => rfl
    | slash =>
        simp only [List.head?_cons, ne_eq, Option.some.injEq] at h
        by_cases hd : c = dquote
        · simp [dispatch, flushed, Machine.putchar, Machine.goto, hd, dquote, star, slash]
        · by_cases hs : c = squote
          · simp [dispatch, flushed, Machine.putchar, Machine.goto, hs, squote, dquote, star, slash]
          · simp [dispatch, flushed, Machine.putchar, Machine.goto, hd, hs, h.1, h.2]
    | inLineComment =>
        have hc : c = newline := by simpa using h
        simp [dispatch, flushed, Machine.putchar, Machine.goto, hc, newline, slash, dquote, squote]
    | inBlockComment | blockCommentStar | inString | stringEscape | inChar | charEscape =>
        exact absurd h (List.cons_ne_nil c rest)
  unfold step
  rw [hdispatch]

/-- At the end of the input the slash is written. -/
theorem finish_stdout (m : Machine) : (finish m).stdout = flushed m := by
  obtain ⟨state, lineCur, lineCom, output⟩ := m
  cases state <;> rfl

/-- At the end of the input any state will do. -/
theorem ready_nil (m : Machine) : Ready m [] := by
  unfold Ready
  cases m.state <;> simp

/-! ### One segment -/

/-- From the state `normal` a quote opens a literal. -/
theorem step_quote (hq : IsQuote q) (hstate : m.state = .normal) :
    (step m q).state = literalState q ∧ (step m q).output = m.output ++ [q] := by
  have hslash : dquote ≠ slash ∧ squote ≠ slash ∧ squote ≠ dquote := by decide
  rw [step_state, step_output]
  unfold dispatch
  rw [hstate]
  rcases hq with rfl | rfl <;> simp [literalState, hslash]

/-- From the state `normal` a comment mark writes the space. -/
theorem step_mark (hstate : m.state = .normal) :
    (step (step m slash) star).state = .inBlockComment ∧
      (step (step m slash) star).output = m.output ++ [space] ∧
      (step (step m slash) slash).state = .inLineComment ∧
      (step (step m slash) slash).output = m.output ++ [space] := by
  have hfirst : (step m slash).state = .slash ∧ (step m slash).output = m.output := by
    rw [step_state, step_output]
    simp [dispatch, hstate]
  have hne : slash ≠ star := by decide
  generalize step m slash = m₁ at hfirst ⊢
  simp [dispatch, hfirst.1, hfirst.2, hne]

/-- A segment that starts the text is a part of it, and not an empty one. -/
theorem First.text_eq (h : First text s rest) : text = s.text ++ rest ∧ s.text ≠ [] := by
  cases h <;> simp [Segment.text]

/-- The machine in the state `normal` over one segment. There is one case for each kind of segment,
and the machine is ready for the next one behind it. -/
theorem run_first_normal (h : First text s rest) (hstate : m.state = .normal) :
    Ready (s.text.foldl step m) rest ∧
      flushed (s.text.foldl step m) = m.output ++ s.replaced := by
  obtain ⟨hblock, hblockOut, hline, hlineOut⟩ := step_mark hstate
  have hmarks : slash ≠ newline ∧ star ≠ newline ∧ star ≠ slash := by decide
  cases h with
  | @block body rest hclose =>
      obtain ⟨hin, hout⟩ := run_block (Or.inl ⟨hblock, hclose⟩)
      -- The star, from either of the two states, and then the slash.
      have hend : (step (step (body.foldl step (step (step m slash) star)) star) slash).state
            = .normal ∧
          (step (step (body.foldl step (step (step m slash) star)) star) slash).output
            = m.output ++ [space] ++ body.filter (· = newline) := by
        rw [← hblockOut, ← hout]
        rcases hin with hin | hin <;> simp [dispatch, hin, hmarks]
      have hrun : (Segment.block (slash :: star :: (body ++ close))).text.foldl step m
          = step (step (body.foldl step (step (step m slash) star)) star) slash := by
        simp [Segment.text, close]
      rw [hrun]
      refine ⟨ready_of_normal hend.1 rest, ?_⟩
      rw [flushed_of_ne (by rw [hend.1]; decide), hend.2]
      simp [Segment.replaced, close, hmarks]
  | @openBlock body hclose =>
      obtain ⟨hin, hout⟩ := run_block (Or.inl ⟨hblock, hclose⟩)
      refine ⟨ready_nil _, ?_⟩
      simp only [Segment.text, List.foldl_cons]
      rw [flushed_of_ne (by rcases hin with hin | hin <;> rw [hin] <;> decide), hout, hblockOut]
      simp [Segment.replaced, hmarks]
  | @line body rest hbody hrest =>
      obtain ⟨hin, hout⟩ := run_line hline hbody
      have hnone : body.filter (· = newline) = [] := by
        rw [List.filter_eq_nil_iff]
        intro c hc
        simp only [decide_eq_true_eq]
        exact fun heq => hbody (heq ▸ hc)
      simp only [Segment.text, List.foldl_cons]
      refine ⟨by rw [Ready, hin]; exact hrest, ?_⟩
      rw [flushed_of_ne (by rw [hin]; decide), hout, hlineOut]
      simp [Segment.replaced, hmarks, hnone]
  | @literal q body rest hq hbody =>
      obtain ⟨hopen, hopenOut⟩ := step_quote hq hstate
      obtain ⟨hin, hout⟩ := run_literal hq hbody hopen
      obtain ⟨hlast, hend⟩ := dispatch_literal (c := q) hq hin
      rw [if_pos rfl, ← step_state] at hend
      simp only [Segment.text, List.foldl_cons, List.foldl_append, List.foldl_nil]
      refine ⟨ready_of_normal hend rest, ?_⟩
      rw [flushed_of_ne (by rw [hend]; decide), step_output, hlast, hout, hopenOut]
      simp [Segment.replaced]
  | @openLiteral q body hq hbody =>
      obtain ⟨hopen, hopenOut⟩ := step_quote hq hstate
      obtain ⟨hin, hout⟩ := run_openLiteral hq hbody hopen
      have hslash : (body.foldl step (step m q)).state ≠ .slash := by
        rcases hq with rfl | rfl <;> rcases hin with hin | hin <;> rw [hin] <;> decide
      refine ⟨ready_nil _, ?_⟩
      simp only [Segment.text, List.foldl_cons]
      rw [flushed_of_ne hslash, hout, hopenOut]
      simp [Segment.replaced]
  | @single c rest hquote hrest =>
      unfold IsQuote at hquote
      rw [not_or] at hquote
      simp only [Segment.text, List.foldl_cons, List.foldl_nil, Segment.replaced]
      by_cases hc : c = slash
      · -- The slash is held back.
        subst hc
        have hheld : (step m slash).state = .slash ∧ (step m slash).output = m.output := by
          rw [step_state, step_output]
          simp [dispatch, hstate]
        refine ⟨by rw [Ready, hheld.1]; exact hrest rfl, ?_⟩
        rw [flushed, if_pos hheld.1, hheld.2]
      · have hcopy : (step m c).state = .normal ∧ (step m c).output = m.output ++ [c] := by
          rw [step_state, step_output]
          simp [dispatch, hstate, hc, hquote]
        refine ⟨ready_of_normal hcopy.1 rest, ?_⟩
        rw [flushed_of_ne (by rw [hcopy.1]; decide), hcopy.2]

/-- The machine over one segment, from any state between two segments. -/
theorem run_first (h : First text s rest) (hready : Ready m text) :
    Ready (s.text.foldl step m) rest ∧
      flushed (s.text.foldl step m) = flushed m ++ s.replaced := by
  obtain ⟨htext, hne⟩ := h.text_eq
  cases hs : s.text with
  | nil => exact absurd hs hne
  | cons c l =>
      rw [htext, hs, List.cons_append] at hready
      have hrun := run_first_normal (m := { m with state := .normal, output := flushed m }) h rfl
      rw [hs, List.foldl_cons] at hrun
      rw [List.foldl_cons, step_of_ready hready]
      exact hrun

/-- The machine over all segments. -/
theorem run_cuts (h : Cuts text segments) (hready : Ready m text) :
    flushed (text.foldl step m) = flushed m ++ segments.flatMap Segment.replaced := by
  -- Induction on the segments. `run_first` is the step.
  induction h generalizing m with
  | done => simp
  | @next text s rest segments hfirst _ ih =>
      obtain ⟨hready', hflushed⟩ := run_first hfirst hready
      rw [hfirst.text_eq.1, List.foldl_append, ih hready', hflushed, List.flatMap_cons,
        List.append_assoc]

/-! ### Each text can be cut -/

/-- The first `*/`, or there is none. -/
theorem exists_close (text : List UInt8) :
    (∃ body rest, text = body ++ close ++ rest ∧ ¬ close <:+: body) ∨ ¬ close <:+: text := by
  induction text with
  | nil => exact Or.inr (by simp [close])
  | cons c text ih =>
      by_cases hhead : close <+: c :: text
      · obtain ⟨rest, hrest⟩ := hhead
        exact Or.inl ⟨[], rest, hrest.symm, by simp [close]⟩
      · rcases ih with ⟨body, rest, htext, hbody⟩ | hnone
        · refine Or.inl ⟨c :: body, rest, by rw [htext]; rfl, fun hinf => ?_⟩
          rcases List.infix_cons_iff.mp hinf with hpre | hinf
          · apply hhead
            rw [htext, List.append_assoc, ← List.cons_append]
            exact hpre.trans (List.prefix_append _ _)
          · exact hbody hinf
        · exact Or.inr fun hinf => (List.infix_cons_iff.mp hinf).elim hhead hnone

/-- The closing quote, or there is none. The induction is on the text, and a backslash takes the
next byte with it. -/
theorem exists_quote (q : UInt8) (text : List UInt8) :
    (∃ body rest, text = body ++ q :: rest ∧ Unquoted q body) ∨ Unquoted q text ∨
      ∃ b, text = b ++ [backslash] ∧ Unquoted q b := by
  -- A backslash is taken together with the byte behind it.
  induction hlen : text.length using Nat.strongRecOn generalizing text with
  | _ n ih =>
      cases text with
      | nil => exact Or.inr (Or.inl Unquoted.nil)
      | cons c text =>
          rw [List.length_cons] at hlen
          by_cases hc : c = q
          · exact Or.inl ⟨[], text, by rw [hc]; rfl, Unquoted.nil⟩
          · by_cases hback : c = backslash
            · cases text with
              | nil => exact Or.inr (Or.inr ⟨[], by rw [hback]; rfl, Unquoted.nil⟩)
              | cons d text =>
                  rw [List.length_cons] at hlen
                  rw [hback]
                  rcases ih text.length (by omega) text rfl with
                    ⟨body, rest, rfl, h⟩ | h | ⟨b, rfl, h⟩
                  · exact Or.inl ⟨backslash :: d :: body, rest, rfl, h.escape⟩
                  · exact Or.inr (Or.inl h.escape)
                  · exact Or.inr (Or.inr ⟨backslash :: d :: b, rfl, h.escape⟩)
            · rcases ih text.length (by omega) text rfl with ⟨body, rest, rfl, h⟩ | h | ⟨b, rfl, h⟩
              · exact Or.inl ⟨c :: body, rest, rfl, h.plain hc hback⟩
              · exact Or.inr (Or.inl (h.plain hc hback))
              · exact Or.inr (Or.inr ⟨c :: b, rfl, h.plain hc hback⟩)

/-- The end of the line. -/
theorem exists_newline (text : List UInt8) :
    ∃ body rest, text = body ++ rest ∧ newline ∉ body ∧
      (rest = [] ∨ rest.head? = some newline) := by
  induction text with
  | nil => exact ⟨[], [], rfl, List.not_mem_nil, Or.inl rfl⟩
  | cons c text ih =>
      by_cases hc : c = newline
      · exact ⟨[], c :: text, rfl, List.not_mem_nil, Or.inr (by rw [hc]; rfl)⟩
      · obtain ⟨body, rest, rfl, hbody, hrest⟩ := ih
        refine ⟨c :: body, rest, rfl, fun hmem => ?_, hrest⟩
        cases List.mem_cons.mp hmem with
        | inl heq => exact hc heq.symm
        | inr hmem => exact hbody hmem

/-- A text that is not empty starts with some segment. So every input can be cut, one segment after
the other. -/
theorem exists_first (c : UInt8) (text : List UInt8) : ∃ s rest, First (c :: text) s rest := by
  by_cases hquote : IsQuote c
  · rcases exists_quote c text with ⟨body, rest, rfl, hbody⟩ | hbody
    · exact ⟨_, rest, First.literal hquote hbody⟩
    · exact ⟨_, [], First.openLiteral hquote hbody⟩
  · by_cases hc : c = slash
    · subst hc
      by_cases hstar : text.head? = some star
      · obtain ⟨l, rfl⟩ := List.head?_eq_some_iff.mp hstar
        rcases exists_close l with ⟨body, rest, rfl, hbody⟩ | hbody
        · exact ⟨_, rest, First.block hbody⟩
        · exact ⟨_, [], First.openBlock hbody⟩
      · by_cases hslash : text.head? = some slash
        · obtain ⟨l, rfl⟩ := List.head?_eq_some_iff.mp hslash
          obtain ⟨body, rest, rfl, hbody, hrest⟩ := exists_newline l
          exact ⟨_, rest, First.line hbody hrest⟩
        · exact ⟨_, text, First.single hquote fun _ => ⟨hstar, hslash⟩⟩
    · exact ⟨_, text, First.single hquote fun h => absurd h hc⟩

/-- Each text can be cut into segments. -/
theorem exists_cuts (text : List UInt8) : ∃ segments, Cuts text segments := by
  induction hlen : text.length using Nat.strongRecOn generalizing text with
  | _ n ih =>
      cases text with
      | nil => exact ⟨[], Cuts.done⟩
      | cons c text =>
          obtain ⟨s, rest, hfirst⟩ := exists_first c text
          obtain ⟨htext, hne⟩ := hfirst.text_eq
          have hlt : rest.length < n := by
            have hpos := List.length_pos_iff.mpr hne
            rw [htext, List.length_append] at hlen
            omega
          obtain ⟨segments, hcuts⟩ := ih rest.length hlt rest rfl
          exact ⟨s :: segments, Cuts.next hfirst hcuts⟩

/-- The standard output is the input, cut into segments from left to right, with each comment
replaced by a space and its newlines. -/
theorem decomment_stdout (input : List UInt8) :
    (∃ segments, Cuts input segments) ∧
      ∀ segments, Cuts input segments →
        segments.flatMap Segment.text = input ∧
          (decomment input).stdout = segments.flatMap Segment.replaced := by
  refine ⟨exists_cuts input, fun segments hcuts => ⟨?_, ?_⟩⟩
  · induction hcuts with
    | done => rfl
    | next hfirst _ ih => rw [List.flatMap_cons, ih, ← hfirst.text_eq.1]
  · rw [decomment, finish_stdout]
    exact run_cuts hcuts (by simp [Ready, Machine.init])

end SysProg.Decomment
