import Mathlib.Data.List.Induction
import SysProg.Proofs.Decomment.Idempotent

/-!
# `SysProg.Proofs.Decomment.Lines`: the line numbers

`LinesKept` is kept when a byte is copied, when a byte that is no newline is dropped, and when a
space is written. These are the three things that the loop does. While a slash is held back, the
relation holds of the input in front of the slash as well, and this says that the slash comes out on
its own line.

* `kept_run`: the invariant holds after each prefix.
* `lines_preserved`: and so it does at the end.
-/

set_option autoImplicit false

namespace SysProg.Decomment

variable {m : Machine} {input text output : List UInt8} {copies : List (UInt8 × Option Nat)}
  {c : UInt8} {k : Nat}

/-! ### Lines -/

/-- What comes behind a byte does not change its line. -/
theorem lineOf_append (hk : k ≤ text.length) (t : List UInt8) :
    lineOf (text ++ t) k = lineOf text k := by
  rw [lineOf, lineOf, List.take_append_of_le_length hk]

/-- The line of the byte behind the text. -/
theorem lineOf_length (text t : List UInt8) :
    lineOf (text ++ t) text.length = 1 + text.count newline := by
  rw [lineOf, List.take_left']
  rfl

namespace LinesKept

/-- The output is as long as its trace. -/
theorem length_eq (h : LinesKept text output copies) : output.length = copies.length := by
  rw [← h.bytes, List.length_map]

/-- The positions are in the input. -/
theorem position_lt (h : LinesKept text output copies) {i : Nat}
    (hi : i ∈ copies.filterMap Prod.snd) : i < text.length := by
  rw [List.mem_filterMap] at hi
  obtain ⟨⟨b, source⟩, hmem, rfl⟩ := hi
  obtain ⟨k, hk⟩ := List.mem_iff_getElem?.mp hmem
  exact (List.getElem?_eq_some_iff.mp (h.copied k b i hk).1).1

/-- A copy stays what it is when more is read and more is written. -/
theorem copied_append (h : LinesKept text output copies) (t t' : List UInt8) {b : UInt8} {i : Nat}
    (hk : copies[k]? = some (b, some i)) :
    (text ++ t)[i]? = some b ∧ lineOf (output ++ t') k = lineOf (text ++ t) i := by
  obtain ⟨hbyte, hline⟩ := h.copied k b i hk
  have hi : i < text.length := (List.getElem?_eq_some_iff.mp hbyte).1
  have hlt : k < copies.length := (List.getElem?_eq_some_iff.mp hk).1
  rw [← h.length_eq] at hlt
  rw [List.getElem?_append_left hi, lineOf_append (Nat.le_of_lt hlt),
    lineOf_append (Nat.le_of_lt hi)]
  exact ⟨hbyte, hline⟩

/-- A byte that is no newline may be dropped. -/
theorem skip (h : LinesKept text output copies) (hc : c ≠ newline) :
    LinesKept (text ++ [c]) output copies where
  newlines := by simp [h.newlines, hc]
  bytes := h.bytes
  copied k b i hk := by simpa using h.copied_append [c] [] hk
  ordered := h.ordered
  spaces := h.spaces

/-- A comment becomes a space. -/
theorem comment (h : LinesKept text output copies) :
    LinesKept text (output ++ [space]) (copies ++ [(space, none)]) where
  newlines := by simp +decide [h.newlines]
  bytes := by simp [h.bytes]
  copied k b i hk := by
    rw [List.getElem?_append] at hk
    split at hk
    · simpa using h.copied_append [] [space] hk
    · simp [List.getElem?_singleton] at hk
  ordered := by simpa using h.ordered
  spaces b hb := by
    rcases List.mem_append.mp hb with hb | hb
    · exact h.spaces b hb
    · simpa using hb

/-- The next byte of the input is copied. It goes to the output on the line that it has in the
input. -/
theorem copy (h : LinesKept text output copies) (c : UInt8) :
    LinesKept (text ++ [c]) (output ++ [c]) (copies ++ [(c, some text.length)]) where
  newlines := by simp [h.newlines]
  bytes := by simp [h.bytes]
  copied k b i hk := by
    by_cases hlt : k < copies.length
    · rw [List.getElem?_append_left hlt] at hk
      exact h.copied_append [c] [c] hk
    · -- The copy is the last byte of both, and there are as many newlines in front of it.
      obtain ⟨rfl, rfl, rfl⟩ : k = output.length ∧ c = b ∧ text.length = i := by
        have hlen := (List.getElem?_eq_some_iff.mp hk).1
        rw [List.length_append, List.length_singleton] at hlen
        obtain rfl : k = copies.length := by omega
        simpa [h.length_eq] using hk
      rw [lineOf_length, lineOf_length, h.newlines]
      exact ⟨by simp, rfl⟩
  ordered := by
    rw [List.filterMap_append, List.pairwise_append]
    refine ⟨h.ordered, by simp, fun i hi j hj => ?_⟩
    obtain rfl : j = text.length := by simpa using hj
    exact h.position_lt hi
  spaces b hb := by
    rcases List.mem_append.mp hb with hb | hb
    · exact h.spaces b hb
    · simp at hb

end LinesKept

/-! ### One step -/

/-- A step drops its byte, or copies it, or puts a space for the mark of a comment, or copies it
behind the slash that was held back. Only the second and the last may write a newline. -/
theorem emits_cases (state : State) (c : UInt8) :
    (emits state c = [] ∧ c ≠ newline) ∨
    (emits state c = [(c, .read)] ∧ state ≠ .slash) ∨
    (emits state c = [(space, .comment)] ∧ c ≠ newline) ∨
    (emits state c = [(slash, .held), (c, .read)] ∧ state = .slash) := by
  cases state with
  | normal => by_cases hslash : c = slash <;> simp +decide [emits, hslash]
  | slash =>
      by_cases hstar : c = star
      · simp +decide [emits, hstar]
      · by_cases hslash : c = slash <;> simp +decide [emits, hstar, hslash]
  | inBlockComment | blockCommentStar | inLineComment =>
      by_cases hline : c = newline <;> simp [emits, hline]
  | inString | stringEscape | inChar | charEscape => simp [emits]

/-- A slash is held back in the state `normal` only. -/
theorem held_of_state (h : (step m c).state = .slash) : m.state = .normal ∧ c = slash := by
  rw [step_state] at h
  unfold dispatch at h
  split at h
  case h_1 hnormal =>
    by_cases hslash : c = slash
    · exact ⟨hnormal, hslash⟩
    · rw [if_neg hslash] at h
      split_ifs at h <;> simp_all
  -- No other state leads there.
  all_goals (try split_ifs at h) <;> simp_all

/-- The trace of one more byte. -/
theorem traceFrom_append (input rest : List UInt8) (m : Machine) (n : Nat) :
    traceFrom m n (input ++ rest) =
      traceFrom m n input ++ traceFrom (input.foldl step m) (n + input.length) rest := by
  induction input generalizing m n with
  | nil => simp [traceFrom]
  | cons c input ih =>
      rw [List.cons_append, traceFrom, traceFrom, ih, List.append_assoc, List.foldl_cons,
        List.length_cons, Nat.add_right_comm, Nat.add_assoc]

/-- One more character. It adds what the state at that point emits for it, at its own position. -/
theorem trace_snoc (input : List UInt8) (c : UInt8) :
    trace (input ++ [c]) =
      trace input ++ (emits (input.foldl step Machine.init).state c).map
        (fun e => (e.1, e.2.position input.length)) := by
  rw [trace, traceFrom_append]
  simp [trace, traceFrom]

/-- The invariant of the loop. -/
structure Kept (input : List UInt8) (m : Machine) : Prop where
  lines : LinesKept input m.output (trace input)
  held : m.state = .slash → ∃ text, input = text ++ [slash] ∧
    LinesKept text m.output (trace input)

/-- The step lemma. A byte is copied, held back, or replaced by a space or by nothing, and a newline
in a comment is kept. -/
theorem Kept.step (h : Kept input (input.foldl step Machine.init)) (c : UInt8) :
    Kept (input ++ [c]) ((input ++ [c]).foldl step Machine.init) := by
  have htrace := trace_snoc input c
  rw [List.foldl_append, List.foldl_cons, List.foldl_nil]
  generalize input.foldl Decomment.step Machine.init = m at h htrace ⊢
  have hout : (Decomment.step m c).output = m.output ++ (emits m.state c).map Prod.fst := by
    rw [step_output, dispatch_output_eq]
  refine ⟨?_, fun hstate => ?_⟩
  · rw [hout, htrace]
    rcases emits_cases m.state c with ⟨he, hc⟩ | ⟨he, _⟩ | ⟨he, hc⟩ | ⟨he, hslash⟩
    · simpa [he] using h.lines.skip hc
    · simpa [he, Source.position] using h.lines.copy c
    · simpa [he, Source.position] using (h.lines.skip hc).comment
    · -- The slash is the last byte that was read.
      obtain ⟨text, rfl, hheld⟩ := h.held hslash
      simpa [he, Source.position] using (hheld.copy slash).copy c
  · obtain ⟨hnormal, rfl⟩ := held_of_state hstate
    refine ⟨input, rfl, ?_⟩
    rw [hout, htrace]
    simpa [hnormal, emits] using h.lines

/-- The run lemma. -/
theorem kept_run (input : List UInt8) : Kept input (input.foldl step Machine.init) := by
  induction input using List.reverseRecOn with
  | nil =>
      refine ⟨⟨rfl, rfl, ?_, List.Pairwise.nil, ?_⟩, fun h => by cases h⟩
      · intro k b i hk
        simp [trace, traceFrom] at hk
      · intro b hb
        simp [trace, traceFrom] at hb
  | append_singleton input c ih => exact ih.step c

/-- The line numbers are preserved, at the end and after each prefix of the input. -/
theorem lines_preserved (input : List UInt8) :
    LinesKept input (decomment input).stdout (stdoutTrace input) ∧
      ∀ n, LinesKept (input.take n) ((input.take n).foldl step Machine.init).output
        (trace (input.take n)) := by
  refine ⟨?_, fun n => (kept_run (input.take n)).lines⟩
  have h := kept_run input
  rw [decomment, finish_stdout, stdoutTrace]
  by_cases hslash : (input.foldl step Machine.init).state = .slash
  · obtain ⟨text, htext, hheld⟩ := h.held hslash
    rw [flushed, if_pos hslash, if_pos hslash, htext, List.length_append, List.length_singleton,
      Nat.add_sub_cancel, ← htext]
    have hcopy := hheld.copy slash
    rw [← htext] at hcopy
    exact hcopy
  · rw [flushed_of_ne hslash, if_neg hslash, List.append_nil]
    exact h.lines

end SysProg.Decomment
