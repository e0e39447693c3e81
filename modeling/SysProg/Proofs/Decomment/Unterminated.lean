import Mathlib.Data.List.Induction
import SysProg.Decomment.Unterminated
import SysProg.Proofs.Decomment.Output

/-!
# `SysProg.Proofs.Decomment.Unterminated`: the report of an unterminated comment

* `run_cuts_inComment`: the loop ends in a comment when the last segment is an open one.
* `run_openBlock`: it has then the line of that segment.
* `run_stepInt`: the counters of the type `int` are the wrapped ones.
* `unterminated_reported`: the exit code and the message.
-/

set_option autoImplicit false

namespace SysProg.Decomment

variable {m : Machine} {text rest body input before : List UInt8} {s : Segment}
  {left segments : List Segment} {c q : UInt8}

/-! ### The line numbers -/

@[simp] theorem dispatch_lineCur (m : Machine) (c : UInt8) :
    (dispatch m c).lineCur = m.lineCur := by
  unfold dispatch Machine.putchar Machine.goto
  cases m.state <;> dsimp only <;> (repeat' split) <;> rfl

/-- Only the mark `/*` sets the line of the comment. -/
theorem dispatch_lineCom (m : Machine) (c : UInt8) :
    (dispatch m c).lineCom = if m.state = .slash ∧ c = star then m.lineCur else m.lineCom := by
  unfold dispatch Machine.putchar Machine.goto
  cases hstate : m.state <;> simp only [reduceCtorEq, false_and, true_and, if_false] <;>
    split_ifs <;> rfl

@[simp] theorem step_lineCom (m : Machine) (c : UInt8) :
    (step m c).lineCom = (dispatch m c).lineCom := by
  unfold step
  by_cases hc : c = newline <;> simp [hc]

/-- A character moves the line counter on if it is a newline, whatever the state of the machine is.
-/
theorem step_lineCur (m : Machine) (c : UInt8) :
    (step m c).lineCur = m.lineCur + [c].count newline := by
  unfold step
  by_cases hc : c = newline <;> simp [hc]

/-- The current line is the number of newlines so far. -/
theorem run_lineCur (m : Machine) (text : List UInt8) :
    (text.foldl step m).lineCur = m.lineCur + text.count newline := by
  induction text generalizing m with
  | nil => simp
  | cons c text ih =>
      have hcount : (c :: text).count newline = [c].count newline + text.count newline := by
        rw [← List.count_append, List.singleton_append]
      rw [List.foldl_cons, ih, step_lineCur, hcount, Int.natCast_add, Int.add_assoc]

/-- The line of the comment stays as it is inside of the comment. -/
theorem run_block_lineCom (hstate : m.state = .inBlockComment) (hbody : ¬ close <:+: body) :
    (body.foldl step m).lineCom = m.lineCom := by
  induction body using List.reverseRecOn with
  | nil => rfl
  | append_singleton body c ih =>
      have hprefix : ¬ close <:+: body :=
        fun h => hbody (h.trans (List.prefix_append body [c]).isInfix)
      obtain ⟨hin, -⟩ := run_block (Or.inl ⟨hstate, hprefix⟩)
      have hslash : (body.foldl step m).state ≠ .slash := by
        rcases hin with hin | hin <;> rw [hin] <;> decide
      rw [List.foldl_append, List.foldl_cons, List.foldl_nil, step_lineCom, dispatch_lineCom,
        if_neg (fun h => hslash h.1)]
      exact ih hprefix

/-! ### The end of the input -/

@[simp] theorem inComment_iff {state : State} :
    state.InComment ↔ state = .inBlockComment ∨ state = .blockCommentStar := by
  cases state <;> simp [State.InComment]

/-- After a segment the machine is in a comment when the segment is an open one. -/
theorem run_first_inComment (h : First text s rest) (hstate : m.state = .normal) :
    (s.text.foldl step m).state.InComment ↔ s.IsOpen := by
  obtain ⟨hblock, -, hline, -⟩ := step_mark hstate
  cases h with
  | @block body rest hclose =>
      obtain ⟨hin, -⟩ := run_block (Or.inl ⟨hblock, hclose⟩)
      have hend : (step (step (body.foldl step (step (step m slash) star)) star) slash).state
          = .normal := by
        rcases hin with hin | hin <;> simp +decide [dispatch, hin]
      have hrun : (Segment.block (slash :: star :: (body ++ close))).text.foldl step m
          = step (step (body.foldl step (step (step m slash) star)) star) slash := by
        simp [Segment.text, close]
      have hinfix : close <:+: body ++ close := (List.suffix_append body close).isInfix
      rw [hrun, hend]
      simp [Segment.IsOpen, hinfix]
  | @openBlock body hclose =>
      obtain ⟨hin, -⟩ := run_block (Or.inl ⟨hblock, hclose⟩)
      simp [Segment.text, Segment.IsOpen, hclose, hin]
  | @line body rest hbody hrest =>
      obtain ⟨hin, -⟩ := run_line hline hbody
      simp [Segment.text, Segment.IsOpen, hin]
  | @literal q body rest hq hbody =>
      obtain ⟨hopen, -⟩ := step_quote hq hstate
      obtain ⟨hin, -⟩ := run_literal hq hbody hopen
      obtain ⟨-, hend⟩ := dispatch_literal (c := q) hq hin
      rw [if_pos rfl] at hend
      simp [Segment.text, Segment.IsOpen, hend]
  | @openLiteral q body hq hbody =>
      obtain ⟨hopen, -⟩ := step_quote hq hstate
      obtain ⟨hin, -⟩ := run_openLiteral hq hbody hopen
      have hout : ¬ (body.foldl step (step m q)).state.InComment := by
        rcases hq with rfl | rfl <;> rcases hin with hin | hin <;> rw [hin] <;>
          simp +decide [literalState, escapeState]
      simpa [Segment.text, Segment.IsOpen] using hout
  | @single c rest hquote hrest =>
      simp only [IsQuote, not_or] at hquote
      by_cases hc : c = slash
      · simp [Segment.text, Segment.IsOpen, dispatch, hstate, hc]
      · simp [Segment.text, Segment.IsOpen, dispatch, hstate, hc, hquote]

/-- Any state between two segments will do. -/
theorem run_first_ready (h : First text s rest) (hready : Ready m text) :
    s.text.foldl step m = s.text.foldl step { m with state := .normal, output := flushed m } := by
  obtain ⟨htext, hne⟩ := h.text_eq
  cases hs : s.text with
  | nil => exact absurd hs hne
  | cons c l =>
      rw [htext, hs, List.cons_append] at hready
      rw [List.foldl_cons, List.foldl_cons, step_of_ready hready]

/-- Nothing follows an open comment. -/
theorem First.rest_of_isOpen (h : First text s rest) (hopen : s.IsOpen) : rest = [] := by
  cases h with
  | @block body rest hclose =>
      obtain ⟨body', heq, hclose'⟩ := hopen
      simp only [List.cons.injEq, true_and] at heq
      rw [← heq] at hclose'
      exact absurd (List.suffix_append body close).isInfix hclose'
  | openBlock | openLiteral => rfl
  | line | literal | single => exact absurd hopen (by simp [Segment.IsOpen])

/-- Nothing but the last segment decides whether the loop ends in a comment. The segments in front
of it are closed. -/
theorem run_cuts_inComment (h : Cuts text segments) (hready : Ready m text)
    (hout : ¬ m.state.InComment) :
    (text.foldl step m).state.InComment ↔ ∃ left s, segments = left ++ [s] ∧ s.IsOpen := by
  induction h generalizing m with
  | done => simpa using hout
  | @next text s rest segments hfirst hcuts ih =>
      have hstate : (s.text.foldl step m).state.InComment ↔ s.IsOpen := by
        rw [run_first_ready hfirst hready]
        exact run_first_inComment hfirst rfl
      rw [hfirst.text_eq.1, List.foldl_append]
      by_cases hopen : s.IsOpen
      · -- The comment takes all that is left.
        obtain rfl := hfirst.rest_of_isOpen hopen
        cases hcuts with
        | done => exact iff_of_true (hstate.mpr hopen) ⟨[], s, rfl, hopen⟩
        | next hfirst' =>
            have hnil := hfirst'.text_eq
            simp only [List.nil_eq, List.append_eq_nil_iff] at hnil
            exact absurd hnil.1.1 hnil.2
      · rw [ih (run_first hfirst hready).1 (mt hstate.mp hopen)]
        constructor
        · rintro ⟨left, t, rfl, ht⟩
          exact ⟨s :: left, t, rfl, ht⟩
        · rintro ⟨left, t, heq, ht⟩
          cases left with
          | nil =>
              obtain ⟨rfl, rfl⟩ := List.cons.inj heq
              exact absurd ht hopen
          | cons s' left =>
              obtain ⟨rfl, rfl⟩ := List.cons.inj heq
              exact ⟨left, t, rfl, ht⟩

/-! ### The line of the comment -/

/-- A cut text in two parts. -/
theorem Cuts.split (h : Cuts text (left ++ segments)) (hready : Ready m text) :
    ∃ rest, text = left.flatMap Segment.text ++ rest ∧ Cuts rest segments ∧
      Ready ((left.flatMap Segment.text).foldl step m) rest := by
  induction left generalizing m text with
  | nil => exact ⟨text, rfl, h, hready⟩
  | cons s left ih =>
      cases h with
      | @next _ _ rest _ hfirst hcuts =>
          obtain ⟨rest', htext, hcuts', hready'⟩ := ih hcuts (run_first hfirst hready).1
          refine ⟨rest', ?_, hcuts', ?_⟩
          · rw [hfirst.text_eq.1, htext, List.flatMap_cons, List.append_assoc]
          · rw [List.flatMap_cons, List.foldl_append]
            exact hready'

/-- The open comment notes the line in which it starts. -/
theorem run_openBlock (hready : Ready m (slash :: rest)) (hbody : ¬ close <:+: body) :
    ((slash :: star :: body).foldl step m).lineCom = m.lineCur := by
  have hmark := step_mark (m := { m with state := .normal, output := flushed m }) rfl
  have hheld : (step { m with state := .normal, output := flushed m } slash).state = .slash := by
    simp [dispatch]
  rw [List.foldl_cons, List.foldl_cons, step_of_ready hready, run_block_lineCom hmark.1 hbody,
    step_lineCom, dispatch_lineCom, if_pos ⟨hheld, rfl⟩, step_lineCur]
  simp +decide

/-- What is known at the end of an input that ends in a comment. The state is one of the comment,
and the line of its start has been kept. -/
theorem EndsInComment.run (h : EndsInComment input before) :
    (∃ body, input = before ++ slash :: star :: body) ∧
      (input.foldl step Machine.init).state.InComment ∧
      (input.foldl step Machine.init).lineCom = 1 + before.count newline := by
  obtain ⟨left, s, hcuts, hopen, rfl⟩ := h
  have hready : Ready Machine.init input := ready_of_normal rfl input
  have hin := (run_cuts_inComment hcuts hready (by simp [Machine.init])).mpr ⟨left, s, rfl, hopen⟩
  obtain ⟨rest, rfl, hlast, hready'⟩ := hcuts.split hready
  cases s with
  | line | literal | single => exact absurd hopen (by simp [Segment.IsOpen])
  | block text =>
      obtain ⟨body, rfl, hbody⟩ := hopen
      have hrest : rest = slash :: star :: body := by
        cases hlast with
        | next hfirst hnil =>
            cases hnil
            simpa [Segment.text] using hfirst.text_eq.1
      subst hrest
      refine ⟨⟨body, rfl⟩, hin, ?_⟩
      rw [List.foldl_append, run_openBlock hready' hbody, run_lineCur]
      rfl

/-! ### The counters of the type `int` -/

/-- The machine with its counters in 32 bits. -/
def Machine.wrap (m : Machine) : Machine :=
  { m with lineCur := int m.lineCur, lineCom := int m.lineCom }

/-- The handlers do not look at the line counters, so a counter that is reduced to an `int` makes no
difference to them. -/
theorem dispatch_wrap (m : Machine) (c : UInt8) : dispatch m.wrap c = (dispatch m c).wrap := by
  obtain ⟨state, lineCur, lineCom, output⟩ := m
  unfold dispatch Machine.putchar Machine.goto Machine.wrap
  cases state <;> dsimp only <;> (repeat' split) <;> rfl

/-- A step of the machine with `int` counters is the step with exact ones, reduced. -/
theorem stepInt_wrap (m : Machine) (c : UInt8) : stepInt m.wrap c = (step m c).wrap := by
  have hline : int (int (dispatch m c).lineCur + 1) = int ((dispatch m c).lineCur + 1) :=
    Int.bmod_add_bmod
  unfold stepInt step
  rw [dispatch_wrap]
  by_cases hc : c = newline
  · simp only [hc, if_true, Machine.wrap] at hline ⊢
    rw [hline]
  · simp only [hc, if_false]

/-- The loop with `int`s follows the loop without a bound. -/
theorem run_stepInt (m : Machine) (text : List UInt8) :
    text.foldl stepInt m.wrap = (text.foldl step m).wrap := by
  induction text generalizing m with
  | nil => rfl
  | cons c text ih => rw [List.foldl_cons, List.foldl_cons, stepInt_wrap, ih]

/-- So the whole run with `int` counters ends in the state of the exact run, reduced. -/
theorem decommentInt_eq (input : List UInt8) :
    decommentInt input = finish (input.foldl step Machine.init).wrap := by
  rw [← run_stepInt]
  rfl

/-- A comment starts in one of the lines. -/
theorem count_lt_lineCount (before body : List UInt8) :
    before.count newline < lineCount (before ++ slash :: star :: body) := by
  unfold lineCount
  rw [List.count_append]
  by_cases hlast : (before ++ slash :: star :: body).getLast? = some newline
  · -- The newline at the end comes behind the mark.
    have hmem : newline ∈ body := by
      have hbody : (slash :: star :: body).getLast? = some newline := by
        simpa [List.getLast?_append] using hlast
      have hmem : newline ∈ slash :: star :: body := List.mem_of_getLast? hbody
      simpa +decide using hmem
    have hpos : 0 < (slash :: star :: body).count newline :=
      List.count_pos_iff.mpr (by simp [hmem])
    omega
  · rw [if_neg (by simpa using hlast)]
    omega

/-- `finish` reports the comment that is still open. -/
theorem finish_inComment (h : m.state.InComment) :
    (finish m).exitCode = 1 ∧
      (finish m).stderr
        = "Error: line " ++ toString m.lineCom ++ ": unterminated comment\n" := by
  unfold finish
  rcases inComment_iff.mp h with h | h <;> rw [h] <;> exact ⟨rfl, rfl⟩

/-- Outside of a comment the end of the input is a success, and nothing is reported. -/
theorem finish_of_not_inComment (h : ¬ m.state.InComment) :
    (finish m).exitCode = 0 ∧ (finish m).stderr = "" := by
  unfold finish
  cases hstate : m.state with
  | inBlockComment | blockCommentStar => exact absurd (inComment_iff.mpr (by simp [hstate])) h
  | normal | slash | inLineComment | inString | stringEscape | inChar | charEscape =>
      exact ⟨rfl, rfl⟩

/-- The exit code is a failure, and the message is written, when the input ends in a block
comment, and the line is the one in which the comment starts. -/
theorem unterminated_reported (input : List UInt8) (hlines : lineCount input < 2 ^ 31) :
    ((decommentInt input).exitCode = 1 ↔ ∃ before, EndsInComment input before) ∧
      (∀ before, EndsInComment input before →
        (decommentInt input).stderr = "Error: line " ++ toString (1 + before.count newline) ++
          ": unterminated comment\n") ∧
      ((¬ ∃ before, EndsInComment input before) →
        (decommentInt input).exitCode = 0 ∧ (decommentInt input).stderr = "") := by
  rw [decommentInt_eq]
  by_cases hends : ∃ before, EndsInComment input before
  · obtain ⟨before₀, hbefore₀⟩ := hends
    obtain ⟨hcode, herror⟩ :=
      finish_inComment (m := (input.foldl step Machine.init).wrap) hbefore₀.run.2.1
    refine ⟨iff_of_true hcode ⟨before₀, hbefore₀⟩, fun before h => ?_,
      fun hnone => absurd ⟨before₀, hbefore₀⟩ hnone⟩
    obtain ⟨⟨body, hinput⟩, -, hline⟩ := h.run
    -- The line fits into an `int`.
    have hlt := count_lt_lineCount before body
    rw [← hinput] at hlt
    have hint : (input.foldl step Machine.init).wrap.lineCom
        = ((1 + before.count newline : Nat) : Int) := by
      show int (input.foldl step Machine.init).lineCom = _
      rw [hline, int, Int.bmod_eq_of_le (by omega) (by omega)]
      rfl
    rw [herror, hint]
    rfl
  · have hout : ¬ (input.foldl step Machine.init).state.InComment := by
      obtain ⟨segments, hcuts⟩ := exists_cuts input
      rw [run_cuts_inComment hcuts (ready_of_normal rfl input) (by simp [Machine.init])]
      rintro ⟨left, s, rfl, hopen⟩
      exact hends ⟨_, left, s, hcuts, hopen, rfl⟩
    have herror := finish_of_not_inComment (m := (input.foldl step Machine.init).wrap) hout
    refine ⟨iff_of_false ?_ hends, fun before h => absurd ⟨before, h⟩ hends, fun _ => herror⟩
    rw [herror.1]
    decide

/-- The mark in the string does not count. The comment starts in the second line. -/
theorem unterminated_reported_second :
    (decommentInt [dquote, slash, star, dquote, newline, slash, star, newline]).stderr
      = "Error: line 2: unterminated comment\n" := by
  have hcuts : Cuts [dquote, slash, star, dquote, newline, slash, star, newline]
      [.literal [dquote, slash, star, dquote], .single newline,
        .block [slash, star, newline]] := by
    have hbody : Unquoted dquote [slash, star] :=
      .plain (by decide) (by decide) (.plain (by decide) (by decide) .nil)
    exact .next (.literal (Or.inl rfl) hbody) (.next
      (.single (by unfold IsQuote; decide) (by decide)) (.next (.openBlock (by decide)) .done))
  exact (unterminated_reported _ (by decide)).2.1 [dquote, slash, star, dquote, newline]
    ⟨[.literal [dquote, slash, star, dquote], .single newline], .block [slash, star, newline],
      hcuts, ⟨[newline], rfl, by decide⟩, rfl⟩

end SysProg.Decomment
