import Mathlib.Data.List.Induction
import SysProg.Decomment.Lines
import SysProg.Proofs.Decomment.Output

/-!
# `SysProg.Proofs.Decomment.Idempotent`: decommenting twice

The second run reads what the first one writes. It stays in step with the first run: it is in the
same literal, or in the state `normal`, and it writes the same bytes. So it never comes to a
comment: a text with a comment gets shorter.

* `inStep_run`: the second run on what the first one has written so far.
* `decomment_idempotent`: the whole output.
-/

set_option autoImplicit false

namespace SysProg.Decomment

variable {m m' : Machine} {text rest : List UInt8} {s : Segment} {segments : List Segment}
  {c : UInt8}

/-- `emits` is what `dispatch` writes. The two have the same cases, for each state and each kind of
byte. -/
theorem dispatch_output_eq (m : Machine) (c : UInt8) :
    (dispatch m c).output = m.output ++ (emits m.state c).map Prod.fst := by
  unfold dispatch
  cases m.state with
  | normal =>
      by_cases hslash : c = slash
      · simp [emits, hslash]
      · by_cases hd : c = dquote
        · simp +decide [emits, hd]
        · by_cases hs : c = squote <;> simp +decide [emits, hslash, hd, hs]
  | slash =>
      by_cases hstar : c = star
      · simp [emits, hstar]
      · by_cases hslash : c = slash
        · simp +decide [emits, hslash]
        · by_cases hd : c = dquote
          · simp +decide [emits, hd]
          · by_cases hs : c = squote <;> simp +decide [emits, hstar, hslash, hd, hs]
  | inBlockComment =>
      by_cases hstar : c = star
      · simp +decide [emits, hstar]
      · by_cases hline : c = newline <;> simp +decide [emits, hstar, hline]
  | blockCommentStar =>
      by_cases hslash : c = slash
      · simp +decide [emits, hslash]
      · by_cases hstar : c = star
        · simp +decide [emits, hstar]
        · by_cases hline : c = newline <;> simp +decide [emits, hslash, hstar, hline]
  | inLineComment => by_cases hline : c = newline <;> simp [emits, hline]
  | inString =>
      by_cases hd : c = dquote
      · simp [emits, hd]
      · by_cases hback : c = backslash <;> simp +decide [emits, hd, hback]
  | stringEscape => simp [emits]
  | inChar =>
      by_cases hs : c = squote
      · simp [emits, hs]
      · by_cases hback : c = backslash <;> simp +decide [emits, hs, hback]
  | charEscape => simp [emits]

/-- The state of the second run. -/
def State.second : State → State
  | .normal | .slash | .inBlockComment | .blockCommentStar | .inLineComment => .normal
  | .inString => .inString
  | .stringEscape => .stringEscape
  | .inChar => .inChar
  | .charEscape => .charEscape

/-- The second run has read what the first one has written so far. -/
structure InStep (m m' : Machine) : Prop where
  state : m'.state = m.state.second
  output : m'.output = m.output

/-- From the state `normal` a byte that is neither a slash nor a quote is copied. -/
theorem step_plain (hstate : m.state = .normal) (hslash : c ≠ slash) (hd : c ≠ dquote)
    (hs : c ≠ squote) : (step m c).state = .normal ∧ (step m c).output = m.output ++ [c] := by
  simp [dispatch, hstate, hslash, hd, hs]

/-- A slash in front of a byte that does not make it a comment is written when that byte is. -/
theorem step_slash (hstate : m.state = .normal) (hstar : c ≠ star) (hslash : c ≠ slash) :
    (step (step m slash) c).state
        = (if c = dquote then .inString else if c = squote then .inChar else .normal) ∧
      (step (step m slash) c).output = m.output ++ [slash, c] := by
  have hfirst : (step m slash).state = .slash ∧ (step m slash).output = m.output := by
    simp [dispatch, hstate]
  generalize step m slash = m₁ at hfirst ⊢
  obtain ⟨hstate₁, hout₁⟩ := hfirst
  by_cases hd : c = dquote
  · simp +decide [dispatch, hstate₁, hout₁, hd]
  · by_cases hs : c = squote <;> simp +decide [dispatch, hstate₁, hout₁, hd, hs, hstar, hslash]

/-- The second run copies what the first one writes for a byte, and it stays in step. -/
theorem run_emits (h : m'.state = m.state.second) (c : UInt8) :
    (((emits m.state c).map Prod.fst).foldl step m').state = (step m c).state.second ∧
      (((emits m.state c).map Prod.fst).foldl step m').output
        = m'.output ++ (emits m.state c).map Prod.fst := by
  rw [step_state]
  unfold dispatch
  cases hm : m.state with
  | normal =>
      rw [hm] at h
      by_cases hslash : c = slash
      · simp [emits, hslash, State.second, h]
      · by_cases hd : c = dquote
        · simp +decide [emits, hd, dispatch, State.second, h]
        · by_cases hs : c = squote
          · simp +decide [emits, hs, dispatch, State.second, h]
          · obtain ⟨hstate, hout⟩ := step_plain h hslash hd hs
            simp [emits, hslash, hd, hs, hstate, hout, State.second, hm, -step_state, -step_output]
  | slash =>
      rw [hm] at h
      by_cases hstar : c = star
      · simp +decide [emits, hstar, dispatch, State.second, h]
      · by_cases hslash : c = slash
        · simp +decide [emits, hslash, dispatch, State.second, h]
        · -- The slash was held back, and both bytes come now.
          obtain ⟨hstate, hout⟩ := step_slash h hstar hslash
          by_cases hd : c = dquote
          · simp_all +decide [emits, State.second, -step_state, -step_output]
          · by_cases hs : c = squote <;>
              simp_all +decide [emits, State.second, -step_state, -step_output]
  | inBlockComment =>
      rw [hm] at h
      by_cases hline : c = newline
      · simp +decide [emits, hline, dispatch, State.second, h, hm]
      · by_cases hstar : c = star <;> simp +decide [emits, hline, hstar, State.second, h, hm]
  | blockCommentStar =>
      rw [hm] at h
      by_cases hline : c = newline
      · simp +decide [emits, hline, dispatch, State.second, h]
      · by_cases hslash : c = slash
        · simp +decide [emits, hslash, State.second, h]
        · by_cases hstar : c = star <;>
            simp +decide [emits, hline, hslash, hstar, State.second, h, hm]
  | inLineComment =>
      rw [hm] at h
      by_cases hline : c = newline
      · simp +decide [emits, hline, dispatch, State.second, h]
      · simp [emits, hline, State.second, h, hm]
  | inString =>
      rw [hm] at h
      by_cases hd : c = dquote
      · simp [emits, hd, dispatch, State.second, h]
      · by_cases hback : c = backslash <;>
          simp +decide [emits, hd, hback, dispatch, State.second, h, hm]
  | stringEscape =>
      rw [hm] at h
      simp [emits, dispatch, State.second, h]
  | inChar =>
      rw [hm] at h
      by_cases hs : c = squote
      · simp [emits, hs, dispatch, State.second, h]
      · by_cases hback : c = backslash <;>
          simp +decide [emits, hs, hback, dispatch, State.second, h, hm]
  | charEscape =>
      rw [hm] at h
      simp [emits, dispatch, State.second, h]

/-- The step lemma. The second run reads what the first one writes. -/
theorem InStep.step (h : InStep m m') (c : UInt8) :
    InStep (step m c) (((emits m.state c).map Prod.fst).foldl Decomment.step m') := by
  obtain ⟨hstate, hout⟩ := run_emits h.state c
  refine ⟨hstate, ?_⟩
  rw [hout, h.output, step_output, dispatch_output_eq]

/-- The run lemma. -/
theorem inStep_run (input : List UInt8) :
    InStep (input.foldl step Machine.init)
      ((input.foldl step Machine.init).output.foldl step Machine.init) := by
  induction input using List.reverseRecOn with
  | nil => exact ⟨rfl, rfl⟩
  | append_singleton input c ih =>
      have hnext := ih.step c
      rw [← List.foldl_append, ← dispatch_output_eq, ← step_output] at hnext
      rw [List.foldl_append, List.foldl_cons, List.foldl_nil]
      exact hnext

/-- The second run gives the same output, and it succeeds. The output has no comment, so nothing is
replaced and nothing is open at the end. -/
theorem decomment_stdout_again (input : List UInt8) :
    decomment (decomment input).stdout = ⟨(decomment input).stdout, "", 0⟩ := by
  have hin := inStep_run input
  unfold decomment
  generalize input.foldl step Machine.init = m at hin ⊢
  obtain ⟨hstate, hout⟩ := hin
  rw [finish_stdout m]
  by_cases hslash : m.state = .slash
  · -- The slash at the end is held back again.
    rw [hslash] at hstate
    have hlast : (step (m.output.foldl step Machine.init) slash).state = .slash ∧
        (step (m.output.foldl step Machine.init) slash).output = m.output := by
      simp [dispatch, hstate, hout, State.second]
    rw [flushed, if_pos hslash, List.foldl_append, List.foldl_cons, List.foldl_nil, finish,
      hlast.1, hlast.2]
  · rw [flushed_of_ne hslash, finish]
    generalize m.output.foldl step Machine.init = m' at hstate hout ⊢
    rw [hstate, hout]
    cases hm : m.state <;> rfl

/-! ### No comment is left -/

/-- The mark of a comment is longer than the space for it. -/
theorem length_comment_lt (hc : c ≠ newline) (body : List UInt8) :
    (space :: (slash :: c :: body).filter (· = newline)).length
      < (slash :: c :: body).length := by
  have hle := List.length_filter_le (· = newline) body
  have hslash : slash ≠ newline := by decide
  simp only [List.filter_cons, List.length_cons, hslash, hc, decide_false, Bool.false_eq_true,
    if_false]
  omega

/-- A segment stays as it is, or it gets shorter. -/
theorem First.replaced_eq_or_lt (h : First text s rest) :
    s.replaced = s.text ∨ s.replaced.length < s.text.length := by
  cases h with
  | @block body rest _ => exact Or.inr (length_comment_lt (by decide) (body ++ close))
  | @openBlock body _ => exact Or.inr (length_comment_lt (by decide) body)
  | @line body rest _ _ => exact Or.inr (length_comment_lt (by decide) body)
  | literal _ _ | openLiteral _ _ | single _ _ => exact Or.inl rfl

/-- A text does not get longer, and when it keeps its length it has no comment. -/
theorem Cuts.replaced_length (h : Cuts text segments) :
    (segments.flatMap Segment.replaced).length ≤ text.length ∧
      ((segments.flatMap Segment.replaced).length = text.length →
        ∀ s ∈ segments, s.replaced = s.text) := by
  induction h with
  | done => simp
  | @next text s rest segments hfirst _ ih =>
      have hlen : text.length = s.text.length + rest.length := by
        rw [hfirst.text_eq.1, List.length_append]
      rw [List.flatMap_cons, List.length_append]
      rcases hfirst.replaced_eq_or_lt with heq | hlt
      · rw [heq]
        refine ⟨by omega, fun htotal => ?_⟩
        exact List.forall_mem_cons.mpr ⟨heq, ih.2 (by omega)⟩
      · exact ⟨by omega, fun htotal => by omega⟩

/-- Decommenting is idempotent. The second run writes what it reads and it succeeds, in whatever
state the first one has ended. It is in a literal where the first one was, and there is no comment
to remove. -/
theorem decomment_idempotent (input : List UInt8) :
    (decomment (decomment input).stdout).stdout = (decomment input).stdout ∧
      (decomment (decomment input).stdout).exitCode = 0 ∧
      (decomment (decomment input).stdout).stderr = "" ∧
      (∀ n, InStep ((input.take n).foldl step Machine.init)
        (((input.take n).foldl step Machine.init).output.foldl step Machine.init)) ∧
      ∀ segments, Cuts (decomment input).stdout segments → ∀ s ∈ segments, s.replaced = s.text := by
  have hagain := decomment_stdout_again input
  rw [hagain]
  refine ⟨rfl, rfl, rfl, fun n => inStep_run (input.take n), fun segments hcuts => ?_⟩
  apply hcuts.replaced_length.2
  have hrun := run_cuts hcuts (ready_of_normal (m := Machine.init) rfl _)
  rw [← finish_stdout, ← decomment, hagain] at hrun
  exact congrArg List.length hrun.symm

end SysProg.Decomment
