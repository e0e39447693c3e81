import SysProg.Proofs.Shell.Renders

/-!
# `SysProg.Proofs.Shell.Lex`: the lexer reads the renderings

`scan` is the lexer without its indices and buffers. It is what connects the code with `Renders`.

* `scan_iff`: in each of the four states `scan` finds the tokens of a rendering.
* `lexSwitch_scan`, `lexLoop_scan`: `lex_line` does what `scan` does, when there is memory.
* `lexLoop_returns`: on any line `lex_line` returns, and keeps to its arrays.
* `lexLine_grammar`: both together.
-/

set_option autoImplicit false

namespace SysProg.Shell

variable {c q : UInt8} {r v w : List UInt8} {t : Token} {ts : List Token} {vars : LexVars}
  {mem : Nat → Bool} {line : List UInt8} {fuel : Nat}

/-! ### The scanner -/

/-- The tokens that the lexer finds from a state on, in a text without a newline or NUL. -/
def scan : LexState → List UInt8 → List UInt8 → Option (List Token)
  | .start, _, [] => some []
  | .inWord, v, [] => some [.word v]
  | .inDquote, _, [] => none
  | .inQuote, _, [] => none
  | .start, v, c :: r =>
      if isspace c then scan .start v r
      else match operatorOf c with
        | some t => (scan .start v r).map (t :: ·)
        | none =>
            if c = dquote then scan .inDquote v r
            else if c = squote then scan .inQuote v r
            else scan .inWord (v ++ [c]) r
  | .inWord, v, c :: r =>
      if isspace c then (scan .start [] r).map (.word v :: ·)
      else match operatorOf c with
        | some t => (scan .start [] r).map (.word v :: t :: ·)
        | none =>
            if c = dquote then scan .inDquote v r
            else if c = squote then scan .inQuote v r
            else scan .inWord (v ++ [c]) r
  | .inDquote, v, c :: r => if c = dquote then scan .inWord v r else scan .inDquote (v ++ [c]) r
  | .inQuote, v, c :: r => if c = squote then scan .inWord v r else scan .inQuote (v ++ [c]) r

/-- A character that is no space, no operator and no quote is plain. These are the four tests of the
lexer, in the order in which it makes them. -/
theorem isPlain_of (hspace : isspace c = false) (hop : operatorOf c = none) (hd : c ≠ dquote)
    (hs : c ≠ squote) : IsPlain c := by
  refine ⟨hspace, fun t ht => ?_, hd, hs⟩
  rw [← operatorOf_eq_some_iff, hop] at ht
  contradiction

/-- The tokens are those of a rendering. There is one statement for each state, and they are proved
together, as one state leads to the others. In the start state the buffer is empty. -/
theorem scan_iff (r : List UInt8) :
    (∀ ts, scan .start [] r = some ts ↔ Renders false r ts) ∧
      (∀ v ts, scan .inWord v r = some ts ↔ WordTail v r ts) ∧
      (∀ v ts, scan .inDquote v r = some ts ↔ QuoteTail dquote v r ts) ∧
      ∀ v ts, scan .inQuote v r = some ts ↔ QuoteTail squote v r ts := by
  -- Induction on the text, in all states at once.
  induction r with
  | nil =>
      refine ⟨fun ts => ?_, fun v ts => ?_, fun v ts => ?_, fun v ts => ?_⟩
      · rw [renders_nil, scan, Option.some.injEq, eq_comm]
      · rw [wordTail_nil, scan, Option.some.injEq, eq_comm]
      · simp only [scan, quoteTail_nil, reduceCtorEq]
      · simp only [scan, quoteTail_nil, reduceCtorEq]
  | cons c r ih =>
      obtain ⟨hstart, hword, hdquote, hsquote⟩ := ih
      have hmap (f : List Token → List Token) (ts : List Token) :
          (scan .start [] r).map f = some ts ↔ ∃ ts', ts = f ts' ∧ Renders false r ts' := by
        simp only [Option.map_eq_some_iff, hstart]
        exact ⟨fun ⟨ts', h, he⟩ => ⟨ts', he.symm, h⟩, fun ⟨ts', he, h⟩ => ⟨ts', h, he.symm⟩⟩
      -- Between words and inside a word, the characters of a word are handled alike.
      have htext (v : List UInt8) (ts : List Token) (hspace : isspace c = false)
          (hop : operatorOf c = none) :
          (if c = dquote then scan .inDquote v r
            else if c = squote then scan .inQuote v r
            else scan .inWord (v ++ [c]) r) = some ts ↔ WordTail v (c :: r) ts := by
        by_cases hd : c = dquote
        · rw [if_pos hd, hdquote, hd, wordTail_quote (Or.inl rfl)]
        · rw [if_neg hd]
          by_cases hs : c = squote
          · rw [if_pos hs, hsquote, hs, wordTail_quote (Or.inr rfl)]
          · rw [if_neg hs, hword, wordTail_plain (isPlain_of hspace hop hd hs)]
      refine ⟨fun ts => ?_, fun v ts => ?_, fun v ts => ?_, fun v ts => ?_⟩
      · rw [scan]
        cases hspace : isspace c with
        | true => rw [if_pos rfl, hstart, renders_space hspace]
        | false =>
            rw [if_neg Bool.false_ne_true]
            cases hop : operatorOf c with
            | some t => rw [hmap, renders_operator (operatorOf_eq_some_iff.mp hop)]
            | none =>
                have hc : IsText c := ⟨hspace, fun t ht => by
                  rw [← operatorOf_eq_some_iff, hop] at ht
                  contradiction⟩
                rw [renders_text hc]
                exact htext [] ts hspace hop
      · rw [scan]
        cases hspace : isspace c with
        | true => rw [if_pos rfl, hmap, wordTail_space hspace]
        | false =>
            rw [if_neg Bool.false_ne_true]
            cases hop : operatorOf c with
            | some t => rw [hmap, wordTail_operator (operatorOf_eq_some_iff.mp hop)]
            | none => exact htext v ts hspace hop
      · rw [scan]
        by_cases hd : c = dquote
        · rw [if_pos hd, hword, hd, quoteTail_close]
        · rw [if_neg hd, hdquote, quoteTail_cons hd]
      · rw [scan]
        by_cases hs : c = squote
        · rw [if_pos hs, hword, hs, quoteTail_close]
        · rw [if_neg hs, hsquote, quoteTail_cons hs]

/-! ### One character -/

/-- A character that does not end the line. -/
def InLine (c : UInt8) : Prop := ¬ (c = newline ∨ c = 0)

/-- What both unquoted states do with a character of a word. -/
def textFlow (vars : LexVars) (c : UInt8) : Except Fault Flow :=
  if c = dquote then .ok (.more { vars with state := .inDquote })
  else if c = squote then .ok (.more { vars with state := .inQuote })
  else putValue vars c .inWord

/-- The four operators and their characters. No other character is one. -/
theorem operator_cases (h : operatorOf c = some t) :
    t = .pipe ∧ c = bar ∨ t = .bg ∧ c = ampersand ∨ t = .redout ∧ c = greater ∨
      t = .redin ∧ c = less := by
  have hchar := operatorOf_eq_some_iff.mp h
  cases t with
  | word value => exact absurd hchar (by simp [operatorChar])
  | pipe => exact Or.inl ⟨rfl, (Option.some.inj hchar).symm⟩
  | bg => exact Or.inr (Or.inl ⟨rfl, (Option.some.inj hchar).symm⟩)
  | redout => exact Or.inr (Or.inr (Or.inl ⟨rfl, (Option.some.inj hchar).symm⟩))
  | redin => exact Or.inr (Or.inr (Or.inr ⟨rfl, (Option.some.inj hchar).symm⟩))

/-- A character that is no operator is none of the four characters. The `switch` of the source tests
them one by one. -/
theorem operatorOf_eq_none (h : operatorOf c = none) :
    c ≠ bar ∧ c ≠ ampersand ∧ c ≠ greater ∧ c ≠ less := by
  have hne (t : Token) : operatorChar t ≠ some c := by
    rw [Ne, ← operatorOf_eq_some_iff, h]
    simp
  exact ⟨fun hc => hne .pipe (hc ▸ rfl), fun hc => hne .bg (hc ▸ rfl),
    fun hc => hne .redout (hc ▸ rfl), fun hc => hne .redin (hc ▸ rfl)⟩

/-- The start state inside of the line. A space is skipped and an operator is a token of its own.
Anything else begins a word or a quoted segment. -/
theorem lexSwitch_start (hstate : vars.state = .start) (hc : InLine c) :
    lexSwitch mem vars c =
      if isspace c then toStart vars
      else match operatorOf c with
        | some t => addToken mem t vars toStart
        | none => textFlow vars c := by
  unfold lexSwitch
  rw [hstate]
  dsimp only
  rw [if_neg hc]
  by_cases hspace : isspace c = true
  · rw [if_pos hspace, if_pos hspace]
  · rw [if_neg hspace, if_neg hspace]
    cases hop : operatorOf c with
    | some t =>
        rcases operator_cases hop with ⟨rfl, rfl⟩ | ⟨rfl, rfl⟩ | ⟨rfl, rfl⟩ | ⟨rfl, rfl⟩
        · rfl
        · rfl
        · rfl
        · rfl
    | none =>
        obtain ⟨hbar, hampersand, hgreater, hless⟩ := operatorOf_eq_none hop
        rw [if_neg hbar, if_neg hampersand, if_neg hgreater, if_neg hless]
        rfl

/-- The word state inside of the line. A space ends the word, and an operator ends it and is a token
behind it. Anything else goes on with the word as in the start state. -/
theorem lexSwitch_inWord (hstate : vars.state = .inWord) (hc : InLine c) :
    lexSwitch mem vars c =
      if isspace c then addWord mem vars resetToStart
      else match operatorOf c with
        | some t => addWord mem vars fun vars => addToken mem t vars resetToStart
        | none => textFlow vars c := by
  unfold lexSwitch
  rw [hstate]
  dsimp only
  rw [if_neg hc]
  by_cases hspace : isspace c = true
  · rw [if_pos hspace, if_pos hspace]
  · rw [if_neg hspace, if_neg hspace]
    cases hop : operatorOf c with
    | some t =>
        rcases operator_cases hop with ⟨rfl, rfl⟩ | ⟨rfl, rfl⟩ | ⟨rfl, rfl⟩ | ⟨rfl, rfl⟩
        · rfl
        · rfl
        · rfl
        · rfl
    | none =>
        obtain ⟨hbar, hampersand, hgreater, hless⟩ := operatorOf_eq_none hop
        rw [if_neg hbar, if_neg hgreater, if_neg hless, if_neg hampersand]
        rfl

/-- What a state inside of quotes `q` does with a character. -/
def quoteFlow (q : UInt8) (vars : LexVars) (c : UInt8) : Except Fault Flow :=
  if c = q then .ok (.more { vars with state := .inWord }) else putValue vars c vars.state

/-- Inside of double quotes. Only the same quote ends the segment, so spaces, operators and single
quotes go into the word. -/
theorem lexSwitch_inDquote (hstate : vars.state = .inDquote) (hc : InLine c) :
    lexSwitch mem vars c = quoteFlow dquote vars c := by
  unfold lexSwitch quoteFlow
  rw [hstate]
  dsimp only
  rw [if_neg hc]

/-- Inside of single quotes. It is the state of the double quotes with the other character. -/
theorem lexSwitch_inQuote (hstate : vars.state = .inQuote) (hc : InLine c) :
    lexSwitch mem vars c = quoteFlow squote vars c := by
  unfold lexSwitch quoteFlow
  rw [hstate]
  dsimp only
  rw [if_neg hc]

/-- The variables behind a step, and the tokens that it has added. -/
structure Stepped (vars vars' : LexVars) (added : List Token) : Prop where
  index_eq : vars'.index = vars.index
  tokens_eq : vars'.tokens = vars.tokens ++ added
  length_le : vars'.value.length ≤ vars.value.length + 1
  value_of_start : vars'.state = .start → vars'.value = []

/-- The flow goes on with the next character, and `scan` with it. -/
def Follows (vars : LexVars) (c : UInt8) (flow : Except Fault Flow) : Prop :=
  ∃ vars' added, flow = .ok (.more vars') ∧ Stepped vars vars' added ∧
    ∀ w, scan vars.state vars.value (c :: w)
      = (scan vars'.state vars'.value w).map (added ++ ·)

/-- A step that adds no token. The buffer grows by at most one character, and what `scan` does with
the character is what the step did. -/
theorem Follows.quiet {vars' : LexVars} (hindex : vars'.index = vars.index)
    (htokens : vars'.tokens = vars.tokens) (hlen : vars'.value.length ≤ vars.value.length + 1)
    (hstart : vars'.state = .start → vars'.value = [])
    (hscan : ∀ w, scan vars.state vars.value (c :: w) = scan vars'.state vars'.value w) :
    Follows vars c (.ok (.more vars')) := by
  refine ⟨vars', [], rfl, ⟨hindex, by rw [htokens, List.append_nil], hlen, hstart⟩, fun w => ?_⟩
  have hid : (fun ts : List Token => [] ++ ts) = id := rfl
  rw [hscan, hid, Option.map_id, id]

/-- The character goes into the buffer. There is room for it, as the buffer is not longer than the
part of the line that is read. -/
theorem Follows.putValue {state : LexState} (hlen : vars.value.length < maxLineSize)
    (hne : state ≠ .start)
    (hscan : ∀ w, scan vars.state vars.value (c :: w) = scan state (vars.value ++ [c]) w) :
    Follows vars c (putValue vars c state) := by
  rw [Shell.putValue, if_pos hlen]
  exact Follows.quiet rfl rfl (by simp) (fun h => absurd h hne) hscan

/-- A character of a word, in the two unquoted states. A quote opens a quoted segment and leaves the
buffer as it is, and any other character goes into the buffer. -/
theorem Follows.text (hlen : vars.value.length < maxLineSize)
    (hstate : vars.state = .start ∨ vars.state = .inWord) (hspace : isspace c = false)
    (hop : operatorOf c = none) : Follows vars c (textFlow vars c) := by
  have hscan (w : List UInt8) : scan vars.state vars.value (c :: w) =
      if c = dquote then scan .inDquote vars.value w
      else if c = squote then scan .inQuote vars.value w
      else scan .inWord (vars.value ++ [c]) w := by
    rcases hstate with hstate | hstate <;> rw [hstate, scan, hspace, hop] <;> rfl
  unfold textFlow
  by_cases hd : c = dquote
  · rw [if_pos hd]
    exact Follows.quiet rfl rfl (Nat.le_succ _) (fun h => by contradiction)
      fun w => by rw [hscan, if_pos hd]
  · rw [if_neg hd]
    by_cases hs : c = squote
    · rw [if_pos hs]
      exact Follows.quiet rfl rfl (Nat.le_succ _) (fun h => by contradiction)
        fun w => by rw [hscan, if_neg hd, if_pos hs]
    · rw [if_neg hs]
      exact Follows.putValue hlen (by decide) fun w => by rw [hscan, if_neg hd, if_neg hs]

/-- A character inside of quotes. The closing quote goes back to the word state, so the word goes on
behind it, and any other character goes into the buffer. -/
theorem Follows.quote (hlen : vars.value.length < maxLineSize) (hne : vars.state ≠ .start)
    (hscan : ∀ w, scan vars.state vars.value (c :: w) =
      if c = q then scan .inWord vars.value w else scan vars.state (vars.value ++ [c]) w) :
    Follows vars c (quoteFlow q vars c) := by
  unfold quoteFlow
  by_cases hq : c = q
  · rw [if_pos hq]
    exact Follows.quiet rfl rfl (Nat.le_succ _) (fun h => by contradiction)
      fun w => by rw [hscan, if_pos hq]
  · rw [if_neg hq]
    exact Follows.putValue hlen hne fun w => by rw [hscan, if_neg hq]

/-- A character inside of the line, when there is memory. In each of the four states the step of the
lexer is the step of `scan`, and the buffer and the tokens stay in step with it. -/
theorem lexSwitch_scan (hmem : ∀ n, mem n = true) (vars : LexVars)
    (hlen : vars.value.length < maxLineSize) (hstart : vars.state = .start → vars.value = [])
    (hc : InLine c) : Follows vars c (lexSwitch mem vars c) := by
  cases hstate : vars.state with
  | start =>
      rw [lexSwitch_start hstate hc]
      cases hspace : isspace c with
      | true =>
          exact Follows.quiet rfl rfl (Nat.le_succ _) (fun _ => hstart hstate)
            fun w => by rw [hstate, scan, hspace]; rfl
      | false =>
          cases hop : operatorOf c with
          | some t =>
              refine ⟨{ vars with tokens := vars.tokens ++ [t], state := .start }, [t],
                by simp only [Bool.false_eq_true, if_false, addToken, hmem, if_true, toStart],
                ⟨rfl, rfl, Nat.le_succ _, fun _ => hstart hstate⟩, fun w => ?_⟩
              rw [hstate, scan, hspace, hop]
              rfl
          | none => exact Follows.text hlen (Or.inl hstate) hspace hop
  | inWord =>
      rw [lexSwitch_inWord hstate hc]
      cases hspace : isspace c with
      | true =>
          refine ⟨{ vars with
              tokens := vars.tokens ++ [.word vars.value], value := [], state := .start },
            [.word vars.value],
            by simp only [if_true, addWord, hlen, addToken, hmem, resetToStart],
            ⟨rfl, rfl, Nat.zero_le _, fun _ => rfl⟩, fun w => ?_⟩
          rw [hstate, scan, hspace]
          rfl
      | false =>
          cases hop : operatorOf c with
          | some t =>
              refine ⟨{ vars with
                  tokens := vars.tokens ++ [.word vars.value] ++ [t], value := [],
                  state := .start },
                [.word vars.value, t],
                by simp only [Bool.false_eq_true, if_false, addWord, hlen, addToken, hmem, if_true,
                  resetToStart],
                ⟨rfl, List.append_assoc _ _ _, Nat.zero_le _, fun _ => rfl⟩, fun w => ?_⟩
              rw [hstate, scan, hspace, hop]
              rfl
          | none => exact Follows.text hlen (Or.inr hstate) hspace hop
  | inDquote =>
      rw [lexSwitch_inDquote hstate hc]
      exact Follows.quote hlen (by rw [hstate]; decide) fun w => by rw [hstate, scan]
  | inQuote =>
      rw [lexSwitch_inQuote hstate hc]
      exact Follows.quote hlen (by rw [hstate]; decide) fun w => by rw [hstate, scan]

/-- The end of the line. Outside of quotes it ends the last word, if there is one, and the lexer
returns success. In a quoted segment it is an error. -/
theorem lexSwitch_end (hmem : ∀ n, mem n = true) (vars : LexVars)
    (hlen : vars.value.length < maxLineSize) (hc : c = newline ∨ c = 0) :
    (∀ ts, scan vars.state vars.value [] = some ts →
        lexSwitch mem vars c = .ok (.done .success (vars.tokens ++ ts))) ∧
      (scan vars.state vars.value [] = none →
        lexSwitch mem vars c = .ok (.done .qerror vars.tokens)) := by
  unfold lexSwitch
  cases hstate : vars.state with
  | start =>
      refine ⟨fun ts hts => ?_, fun hnone => by contradiction⟩
      rw [← Option.some.inj hts, List.append_nil]
      exact if_pos hc
  | inWord =>
      refine ⟨fun ts hts => ?_, fun hnone => by contradiction⟩
      rw [← Option.some.inj hts]
      simp only [if_pos hc, addWord, hlen, addToken, hmem, if_true]
  | inDquote =>
      have hd : c ≠ dquote := by
        rcases hc with rfl | rfl <;> decide
      refine ⟨fun ts hts => by contradiction, fun _ => ?_⟩
      simp only [if_neg hd, if_pos hc]
  | inQuote =>
      have hs : c ≠ squote := by
        rcases hc with rfl | rfl <;> decide
      refine ⟨fun ts hts => by contradiction, fun _ => ?_⟩
      simp only [if_neg hs, if_pos hc]

/-! ### The loop -/

/-- The read of the next character of the line. The part `u` is read already, so the character is
the first one of the rest, or the NUL behind the line. -/
theorem readLine_append (u r : List UInt8) (hlen : u.length < maxLineSize) :
    readLine (u ++ r) u.length = .ok (r.headD 0) := by
  rw [readLine, if_neg (Nat.not_le_of_lt hlen)]
  cases r with
  | nil =>
      rw [List.append_nil, if_neg (Nat.lt_irrefl _), if_pos rfl]
      rfl
  | cons c r =>
      rw [if_pos (by rw [List.length_append, List.length_cons]; omega)]
      simp

/-- A character inside of the line belongs to its text. The text stops at the first newline or NUL.
-/
theorem lineText_cons_of_inLine (hc : InLine c) : lineText (c :: r) = c :: lineText r := by
  unfold InLine at hc
  rw [not_or] at hc
  simp [lineText, hc]

/-- At a newline or a NUL the text of the line is empty. The same holds when nothing is left, as a
NUL stands behind the line. -/
theorem lineText_of_end (hr : r.headD 0 = newline ∨ r.headD 0 = 0) : lineText r = [] := by
  cases r with
  | nil => rfl
  | cons c r =>
      rw [List.headD_cons] at hr
      rcases hr with rfl | rfl <;> simp [lineText]

/-- From any point of the line the loop finds the tokens that `scan` finds. The induction is on the
fuel, and at each character `lexSwitch_scan` or `lexSwitch_end` says what the step does. -/
theorem lexLoop_scan (hmem : ∀ n, mem n = true) (vars : LexVars) (u r : List UInt8)
    (hindex : vars.index = u.length)
    (hlen : u.length + (lineText r).length < maxLineSize) (hvalue : vars.value.length ≤ u.length)
    (hstart : vars.state = .start → vars.value = []) (hfuel : (lineText r).length < fuel) :
    (∀ ts, scan vars.state vars.value (lineText r) = some ts →
        lexLoop mem (u ++ r) fuel vars = .ok (.success, vars.tokens ++ ts)) ∧
      (scan vars.state vars.value (lineText r) = none →
        ∃ tokens, lexLoop mem (u ++ r) fuel vars = .ok (.qerror, tokens)) := by
  -- Induction on the fuel. The characters that are read move from `r` to `u`.
  induction fuel generalizing vars u r with
  | zero => omega
  | succ fuel ih =>
      have hne : vars.index ≠ maxLineSize := by omega
      rw [lexLoop, if_neg hne, hindex, readLine_append u r (by omega)]
      simp only [bind, Except.bind]
      by_cases hend : r.headD 0 = newline ∨ r.headD 0 = 0
      · obtain ⟨hsuccess, hqerror⟩ := lexSwitch_end hmem { vars with index := u.length + 1 }
          (show vars.value.length < maxLineSize by omega) hend
        rw [lineText_of_end hend]
        refine ⟨fun ts hts => ?_, fun hnone => ⟨vars.tokens, ?_⟩⟩
        · rw [hsuccess ts hts]
          rfl
        · rw [hqerror hnone]
          rfl
      · cases r with
        | nil => exact absurd (Or.inr rfl) hend
        | cons c r =>
            rw [List.headD_cons] at hend ⊢
            rw [lineText_cons_of_inLine hend, List.length_cons] at hlen hfuel
            obtain ⟨vars', added, hswitch, hstepped, hscan⟩ :=
              lexSwitch_scan hmem { vars with index := u.length + 1 }
                (show vars.value.length < maxLineSize by omega) hstart hend
            have hu : (u ++ [c]).length = u.length + 1 := by simp
            have hvalue' := hstepped.length_le
            have hnext := ih vars' (u ++ [c]) r (by rw [hstepped.index_eq, hu])
              (by rw [hu]; omega) (by rw [hu]; exact Nat.le_trans hvalue' (by simpa using hvalue))
              hstepped.value_of_start (by omega)
            have hline : u ++ [c] ++ r = u ++ c :: r := by simp
            rw [hline] at hnext
            rw [lineText_cons_of_inLine hend, hscan, hswitch]
            refine ⟨fun ts hts => ?_, fun hnone => ?_⟩
            · obtain ⟨ts', hts', rfl⟩ := Option.map_eq_some_iff.mp hts
              have h := hnext.1 ts' hts'
              rw [hstepped.tokens_eq, List.append_assoc] at h
              exact h
            · exact hnext.2 (Option.map_eq_none_iff.mp hnone)

/-! ### No line leads out of the arrays -/

/-- The step returns. If the loop goes on, the character was not the terminator. -/
def Safe (vars : LexVars) (c : UInt8) (flow : Except Fault Flow) : Prop :=
  (∃ result tokens, flow = .ok (.done result tokens)) ∨
    (c ≠ 0 ∧ ∃ vars', flow = .ok (.more vars') ∧ vars'.index = vars.index ∧
      vars'.value.length ≤ vars.value.length + 1)

/-- A token without a text is added. With memory the step goes on as `next` says, and without memory
it returns the allocation error. Both are safe. -/
theorem safe_addToken {next : LexVars → Except Fault Flow} {vars₀ : LexVars}
    (h : Safe vars₀ c (next { vars with tokens := vars.tokens ++ [t] })) :
    Safe vars₀ c (addToken mem t vars next) := by
  unfold addToken
  by_cases hmem : mem vars.tokens.length = true
  · rw [if_pos hmem]
    exact h
  · rw [if_neg hmem]
    exact Or.inl ⟨_, _, rfl⟩

/-- The word in the buffer is added as a token. The NUL behind the word is written into the buffer
first, and there is room for it. -/
theorem safe_addWord {next : LexVars → Except Fault Flow} {vars₀ : LexVars}
    (hlen : vars.value.length < maxLineSize)
    (h : Safe vars₀ c (next { vars with tokens := vars.tokens ++ [.word vars.value] })) :
    Safe vars₀ c (addWord mem vars next) := by
  rw [addWord, if_pos hlen]
  exact safe_addToken h

/-- The loop goes on with the next character. As the character is inside of the line, the terminator
is still ahead. -/
theorem safe_more {vars' : LexVars} (hc : InLine c) (hindex : vars'.index = vars.index)
    (hvalue : vars'.value.length ≤ vars.value.length + 1) : Safe vars c (.ok (.more vars')) :=
  Or.inr ⟨fun h => hc (Or.inr h), vars', rfl, hindex, hvalue⟩

/-- The character is put into the buffer. There is room for it, so the write is inside of the array.
-/
theorem safe_putValue (hlen : vars.value.length < maxLineSize) (hc : InLine c)
    (state : LexState) : Safe vars c (putValue vars c state) := by
  rw [putValue, if_pos hlen]
  exact safe_more hc rfl (by simp)

/-- Both unquoted states are safe on a character of a word. They put it into the buffer, or they
skip the quote. -/
theorem safe_textFlow (hlen : vars.value.length < maxLineSize) (hc : InLine c) :
    Safe vars c (textFlow vars c) := by
  unfold textFlow
  by_cases hd : c = dquote
  · rw [if_pos hd]
    exact safe_more hc rfl (Nat.le_succ _)
  · rw [if_neg hd]
    by_cases hs : c = squote
    · rw [if_pos hs]
      exact safe_more hc rfl (Nat.le_succ _)
    · rw [if_neg hs]
      exact safe_putValue hlen hc _

/-- Both quoted states are safe inside of the line. They put the character into the buffer, or they
skip the closing quote. -/
theorem safe_quoteFlow (hlen : vars.value.length < maxLineSize) (hc : InLine c) (q : UInt8) :
    Safe vars c (quoteFlow q vars c) := by
  unfold quoteFlow
  by_cases hq : c = q
  · rw [if_pos hq]
    exact safe_more hc rfl (Nat.le_succ _)
  · rw [if_neg hq]
    exact safe_putValue hlen hc _

/-- The end of the line, with and without memory. Every state returns there, and the only write is
the NUL behind the last word. -/
theorem lexSwitch_safe_end (mem : Nat → Bool) (hlen : vars.value.length < maxLineSize)
    (hc : c = newline ∨ c = 0) : Safe vars c (lexSwitch mem vars c) := by
  have hd : c ≠ dquote := by
    rcases hc with rfl | rfl <;> decide
  have hs : c ≠ squote := by
    rcases hc with rfl | rfl <;> decide
  unfold lexSwitch
  cases hstate : vars.state with
  | start =>
      dsimp only
      rw [if_pos hc]
      exact Or.inl ⟨_, _, rfl⟩
  | inWord =>
      dsimp only
      rw [if_pos hc]
      exact safe_addWord hlen (Or.inl ⟨_, _, rfl⟩)
  | inDquote =>
      dsimp only
      rw [if_neg hd, if_pos hc]
      exact Or.inl ⟨_, _, rfl⟩
  | inQuote =>
      dsimp only
      rw [if_neg hs, if_pos hc]
      exact Or.inl ⟨_, _, rfl⟩

/-- Each step is safe, with and without memory. The cases are those of the `switch`: the end of the
line, the two unquoted states and the two quoted ones. -/
theorem lexSwitch_safe (mem : Nat → Bool) (vars : LexVars) (c : UInt8)
    (hlen : vars.value.length < maxLineSize) :
    Safe vars c (lexSwitch mem vars c) := by
  by_cases hend : c = newline ∨ c = 0
  · exact lexSwitch_safe_end mem hlen hend
  · have hc : InLine c := hend
    cases hstate : vars.state with
    | start =>
        rw [lexSwitch_start hstate hc]
        by_cases hspace : isspace c = true
        · rw [if_pos hspace]
          exact safe_more hc rfl (Nat.le_succ _)
        · rw [if_neg hspace]
          cases operatorOf c with
          | some t => exact safe_addToken (safe_more hc rfl (Nat.le_succ _))
          | none => exact safe_textFlow hlen hc
    | inWord =>
        rw [lexSwitch_inWord hstate hc]
        by_cases hspace : isspace c = true
        · rw [if_pos hspace]
          exact safe_addWord hlen (safe_more hc rfl (Nat.zero_le _))
        · rw [if_neg hspace]
          cases operatorOf c with
          | some t => exact safe_addWord hlen (safe_addToken (safe_more hc rfl (Nat.zero_le _)))
          | none => exact safe_textFlow hlen hc
    | inDquote =>
        rw [lexSwitch_inDquote hstate hc]
        exact safe_quoteFlow hlen hc dquote
    | inQuote =>
        rw [lexSwitch_inQuote hstate hc]
        exact safe_quoteFlow hlen hc squote

/-- The loop returns from each point of the line that it can get to. At the length of the array it
stops with the error for a long line, and it does not pass the terminator, so it reads nothing
behind it. -/
theorem lexLoop_returns (vars : LexVars) (u r : List UInt8) (hindex : vars.index = u.length)
    (hle : u.length ≤ maxLineSize) (hvalue : vars.value.length ≤ u.length)
    (hfuel : maxLineSize < u.length + fuel) :
    ∃ result, lexLoop mem (u ++ r) fuel vars = .ok result := by
  induction fuel generalizing vars u r with
  | zero => omega
  | succ fuel ih =>
      rw [lexLoop]
      by_cases hmax : vars.index = maxLineSize
      · rw [if_pos hmax]
        exact ⟨_, rfl⟩
      · rw [if_neg hmax, hindex, readLine_append u r (by omega)]
        simp only [bind, Except.bind]
        have hsafe := lexSwitch_safe mem { vars with index := u.length + 1 } (r.headD 0)
          (show vars.value.length < maxLineSize by omega)
        rcases hsafe with ⟨result, tokens, hdone⟩ | ⟨hc, vars', hmore, hindex', hvalue'⟩
        · rw [hdone]
          exact ⟨_, rfl⟩
        · rw [hmore]
          cases r with
          | nil => exact absurd rfl hc
          | cons c r =>
              have hu : (u ++ [c]).length = u.length + 1 := by simp
              have hline : u ++ [c] ++ r = u ++ c :: r := by simp
              rw [← hline]
              exact ih vars' (u ++ [c]) r (by rw [hindex', hu]) (by omega)
                (by rw [hu]; exact Nat.le_trans hvalue' (by simpa using hvalue)) (by omega)

/-- The lexer recognizes the token grammar. On any line it returns without a read or a write behind
the end of an array. When there is memory and the newline or NUL comes soon enough, it returns the
tokens of which the line is a rendering, or the quote error if there are none. -/
theorem lexLine_grammar (mem : Nat → Bool) (line : List UInt8) (oTokens : List Token) :
    (∃ result, lexLine mem line oTokens = .ok result) ∧
      ((∀ n, mem n = true) → (lineText line).length < maxLineSize →
        (∀ ts, lexLine mem line oTokens = .ok (.success, oTokens ++ ts) ↔
          Renders false (lineText line) ts) ∧
        ((∃ tokens, lexLine mem line oTokens = .ok (.qerror, tokens)) ↔
          ∀ ts, ¬ Renders false (lineText line) ts)) := by
  refine ⟨?_, fun hmem hlen => ?_⟩
  · exact lexLoop_returns ⟨.start, 0, [], oTokens⟩ [] line rfl (Nat.zero_le _)
      (Nat.le_refl _) (by simp)
  · obtain ⟨hsuccess, hqerror⟩ := lexLoop_scan hmem ⟨.start, 0, [], oTokens⟩ [] line rfl
      (by simpa using hlen) (Nat.le_refl _) (fun _ => rfl)
      (show (lineText line).length < maxLineSize + 1 by omega)
    obtain ⟨hrenders, -⟩ := scan_iff (lineText line)
    have hrun : lexLine mem line oTokens
        = lexLoop mem ([] ++ line) (maxLineSize + 1) ⟨.start, 0, [], oTokens⟩ := rfl
    rw [hrun]
    simp only [← hrenders]
    -- The scanner either finds tokens or it does not.
    cases hscan : scan .start [] (lineText line) with
    | some ts =>
        rw [hsuccess ts hscan]
        refine ⟨fun ts' => ?_, ?_⟩
        · simp [List.append_cancel_left_eq]
        · simp
    | none =>
        obtain ⟨tokens, hrun⟩ := hqerror hscan
        rw [hrun]
        simp

/-- The line `a"b c"|d''` with memory for all tokens. A quoted segment goes on with the word in
front of it, and an empty one adds nothing to `d`. -/
theorem lexLine_grammar_quotes :
    Renders false [97, 34, 98, 32, 99, 34, 124, 100, 39, 39]
      [.word [97, 98, 32, 99], .pipe, .word [100]] := by
  obtain ⟨hrenders, -⟩ := (lexLine_grammar (fun _ => true)
    [97, 34, 98, 32, 99, 34, 124, 100, 39, 39, 10] []).2 (fun _ => rfl) (by decide)
  exact (hrenders _).mp rfl

end SysProg.Shell
