import SysProg.Shell.Stages
import SysProg.Proofs.Shell.Syntax

/-!
# `SysProg.Proofs.Shell.Stages`: the checker and the executor agree

The tokens of a command are those of its segments. The passes of the executor find them again.

* `countPipe_command`, `checkBg_command`: how many segments there are, and whether there is a `&`.
* `splitSegments_command`: the bounds of the segments.
* `buildCommandPartial_segment`: the arguments and the files of one segment.
* `stages_of_accepted`: all passes together.
-/

set_option autoImplicit false

namespace SysProg.Shell

variable {oTokens ts l : List Token} {segments rest : List Segment} {s : Segment} {bg : Bool}
  {items : List Item} {t : Token} {i n start : Nat} {segs : List (Nat × Nat)} {vars : BuildVars}
  {openOk : Redirect → Bool}

/-! ### The tokens of a segment -/

/-- An item is a word or a redirection with its word, so it has no `|`. -/
theorem Item.pipe_notMem (item : Item) : Token.pipe ∉ item.tokens := by
  cases item <;> simp [Item.tokens]

/-- An item has no `&` either. The tokens `|` and `&` stand between and behind the segments only. -/
theorem Item.bg_notMem (item : Item) : Token.bg ∉ item.tokens := by
  cases item <;> simp [Item.tokens]

/-- A segment has no `|`. So the loop that splits the line passes it without a cut. -/
theorem Segment.pipe_notMem (s : Segment) : Token.pipe ∉ s.tokens := by
  simp [Segment.tokens, Item.pipe_notMem]

/-- A segment has no `&`. So the only `&` of a command is the one at its end. -/
theorem Segment.bg_notMem (s : Segment) : Token.bg ∉ s.tokens := by
  simp [Segment.tokens, Item.bg_notMem]

/-! ### Counting -/

/-- `count_pipe` counts the `|` of the list. It is the loop of the source, and the other side is the
count of the library. -/
theorem countPipe_eq_count (ts : List Token) : countPipe ts = ts.count .pipe := by
  induction ts with
  | nil => rfl
  | cons t ts ih =>
      rw [countPipe, ih]
      by_cases ht : t = .pipe
      · rw [if_pos ht, ht, List.count_cons_self]
      · rw [if_neg ht, List.count_cons_of_ne ht]

/-- `check_bg` looks for a `&` anywhere in the list, and stops at the first one. -/
theorem checkBg_eq_true_iff : checkBg ts = true ↔ Token.bg ∈ ts := by
  induction ts with
  | nil => simp [checkBg]
  | cons t ts ih =>
      rw [checkBg, List.mem_cons]
      by_cases ht : t = .bg
      · simp [ht]
      · rw [if_neg ht, ih, or_iff_right (Ne.symm ht)]

/-- Behind the first segment there is one `|` for each of the others. -/
theorem count_pipe_behindPipes (segments : List Segment) :
    (behindPipes segments).count .pipe = segments.length := by
  induction segments with
  | nil => rfl
  | cons s segments ih =>
      rw [behindPipes, List.flatMap_cons, List.count_append, ← behindPipes, ih,
        List.count_cons_self, List.count_eq_zero.mpr s.pipe_notMem, List.length_cons]
      omega

/-- There is one `|` less than there are segments. So `count_pipe` and the checker agree on the
number of the commands. -/
theorem countPipe_command (h : Command segments bg oTokens) :
    countPipe oTokens + 1 = segments.length := by
  obtain ⟨w, items, rest, ts, hsegments, -⟩ := h.head
  have hbackground : Token.pipe ∉ background bg := by
    cases bg <;> simp [background]
  rw [countPipe_eq_count, h.tokens_eq, List.count_append, List.count_eq_zero.mpr hbackground,
    hsegments, pipeline_cons, List.count_append, count_pipe_behindPipes,
    List.count_eq_zero.mpr (Segment.pipe_notMem _), List.length_cons]
  omega

/-- There is no `&` between the segments. With `check_bg` it can only be the last token. -/
theorem bg_notMem_pipeline (hne : segments ≠ []) : Token.bg ∉ pipeline segments := by
  obtain ⟨s, rest, hsegments⟩ := List.exists_cons_of_ne_nil hne
  rw [hsegments, pipeline_cons, List.mem_append, mem_behindPipes (by decide), not_or]
  exact ⟨s.bg_notMem, fun ⟨s', _, hmem⟩ => s'.bg_notMem hmem⟩

/-- `check_bg` finds the final `&`. In front of it there is no other one. -/
theorem checkBg_command (h : Command segments bg oTokens) : checkBg oTokens = bg := by
  rw [Bool.eq_iff_iff, checkBg_eq_true_iff, h.tokens_eq, List.mem_append,
    or_iff_right (bg_notMem_pipeline h.ne_nil)]
  cases bg <;> simp [background]

/-- A `&` is the last token, when it is there. `check_bg` does not test where it stands, and the
checker has done so. -/
theorem getLast?_command (h : Command segments bg oTokens) :
    checkBg oTokens = true ↔ oTokens.getLast? = some .bg := by
  constructor
  · intro htrue
    rw [checkBg_command h] at htrue
    rw [h.tokens_eq, htrue, background, List.getLast?_concat]
  · intro hlast
    exact checkBg_eq_true_iff.mpr (List.mem_of_getLast? hlast)

/-- The tokens in front of the `&`. The executor subtracts one from the length if the job runs in
the background. -/
theorem totalTokens_command (h : Command segments bg oTokens) :
    totalTokens oTokens bg = (pipeline segments).length := by
  rw [totalTokens, h.tokens_eq]
  cases bg with
  | true => simp [background]
  | false => simp [background]

/-! ### The split -/

/-- The bounds of the segments, when the first one starts at `start`. -/
def boundsOf (start : Nat) : List Segment → List (Nat × Nat)
  | [] => []
  | s :: rest =>
      (start, start + s.tokens.length) :: boundsOf (start + s.tokens.length + 1) rest

/-- Every segment has its bounds. So there are as many stages as segments. -/
theorem length_boundsOf (start : Nat) (segments : List Segment) :
    (boundsOf start segments).length = segments.length := by
  induction segments generalizing start with
  | nil => rfl
  | cons s segments ih => rw [boundsOf, List.length_cons, List.length_cons, ih]

/-- The token at an index inside of the list. `dynarray_get` asserts that the index is in bounds,
and here it is. -/
theorem dynarrayGet_append (u : List Token) (t : Token) (post : List Token) :
    dynarrayGet (u ++ t :: post) u.length = .ok t := by
  simp [dynarrayGet]

/-- The loop passes the tokens of a segment. Without a `|` no bounds are added, and the start of the
segment stays. -/
theorem splitLoop_segment (hl : Token.pipe ∉ l) (u post : List Token) (n start : Nat)
    (segs : List (Nat × Nat)) :
    splitLoop (u ++ (l ++ post)) (l.length + n) u.length start segs
      = splitLoop (u ++ (l ++ post)) n (u ++ l).length start segs := by
  induction l generalizing u with
  | nil => simp
  | cons t l ih =>
      have ht : t ≠ .pipe := fun ht => hl (ht ▸ List.mem_cons_self)
      have hrest := ih (fun hmem => hl (List.mem_cons_of_mem t hmem)) (u ++ [t])
      have heq : u ++ [t] ++ (l ++ post) = u ++ (t :: l ++ post) := by simp
      have hlen : (t :: l).length + n = l.length + n + 1 := by
        rw [List.length_cons]
        omega
      have hu : (u ++ [t]).length = u.length + 1 := List.length_append
      rw [heq, hu] at hrest
      have hget : dynarrayGet (u ++ (t :: l ++ post)) u.length = .ok t := dynarrayGet_append u t _
      rw [hlen, splitLoop, hget]
      simp only [bind, Except.bind, if_neg ht, hrest]
      simp

/-- The first segment, and the `|` behind it. It is the step of the induction over the segments. -/
theorem pipeline_cons₂ (s s' : Segment) (rest : List Segment) :
    pipeline (s :: s' :: rest) = s.tokens ++ .pipe :: pipeline (s' :: rest) := by
  rw [pipeline_cons, pipeline_cons, behindPipes, List.flatMap_cons]
  rfl

/-- The loop over a pipeline, and the segment that is added behind it. The induction is on the
segments: each `|` ends the bounds of one and starts those of the next. -/
theorem splitLoop_pipeline (u post : List Token) (s : Segment) (rest : List Segment)
    (segs : List (Nat × Nat)) (hsegs : segs.length + rest.length < maxProcPerJob) :
    ∃ segs' start, splitLoop (u ++ (pipeline (s :: rest) ++ post)) (pipeline (s :: rest)).length
        u.length u.length segs = .ok (segs', start) ∧ segs'.length < maxProcPerJob ∧
      segs' ++ [(start, u.length + (pipeline (s :: rest)).length)]
        = segs ++ boundsOf u.length (s :: rest) := by
  -- Induction on the segments. A segment and the `|` behind it move to `u`.
  induction rest generalizing s u segs with
  | nil =>
      refine ⟨segs, u.length, ?_, by simpa using hsegs, ?_⟩
      · have hloop := splitLoop_segment s.pipe_notMem u post 0 u.length segs
        rw [pipeline_cons, behindPipes, List.flatMap_nil, List.append_nil]
        exact hloop
      · rw [pipeline_cons, behindPipes, List.flatMap_nil, List.append_nil]
        rfl
  | cons s' rest ih =>
      have hlen : segs.length < maxProcPerJob := by
        rw [List.length_cons] at hsegs
        omega
      have hloop := splitLoop_segment s.pipe_notMem u
        (.pipe :: (pipeline (s' :: rest) ++ post)) ((pipeline (s' :: rest)).length + 1) u.length
        segs
      obtain ⟨segs', start, hrun, hlen', hbounds⟩ := ih (u ++ s.tokens ++ [.pipe]) s'
        (segs ++ [(u.length, (u ++ s.tokens).length)])
        (by rw [List.length_append, List.length_singleton]; rw [List.length_cons] at hsegs; omega)
      have htokens : u ++ s.tokens ++ [.pipe] ++ (pipeline (s' :: rest) ++ post)
          = u ++ (s.tokens ++ .pipe :: (pipeline (s' :: rest) ++ post)) := by simp
      have hu : (u ++ s.tokens ++ [Token.pipe]).length = (u ++ s.tokens).length + 1 := by
        simp only [List.length_append, List.length_singleton]
      have hget : dynarrayGet (u ++ (s.tokens ++ .pipe :: (pipeline (s' :: rest) ++ post)))
          (u ++ s.tokens).length = .ok .pipe := by
        rw [← List.append_assoc]
        exact dynarrayGet_append _ _ _
      rw [htokens, hu] at hrun
      refine ⟨segs', start, ?_, hlen', ?_⟩
      · rw [pipeline_cons₂, List.append_assoc, List.cons_append, List.length_append,
          List.length_cons, hloop, splitLoop, hget]
        simp only [bind, Except.bind, if_true, addSegment, if_pos hlen]
        exact hrun
      · rw [hu] at hbounds
        rw [pipeline_cons₂, List.length_append, List.length_cons, boundsOf]
        rw [List.append_assoc segs, List.singleton_append] at hbounds
        rw [List.length_append] at hbounds
        have hend : u.length + (s.tokens.length + ((pipeline (s' :: rest)).length + 1))
            = u.length + s.tokens.length + 1 + (pipeline (s' :: rest)).length := by omega
        rw [hend]
        exact hbounds

/-- The executor cuts a command into its segments. With at most as many as a job has room for, each
assertion on the way holds. -/
theorem splitSegments_command (h : Command segments bg oTokens)
    (hstages : segments.length ≤ maxProcPerJob) :
    splitSegments (countPipe oTokens) oTokens bg = .ok (.segments (boundsOf 0 segments)) := by
  obtain ⟨s, rest, hsegments⟩ := List.exists_cons_of_ne_nil h.ne_nil
  have hcount := countPipe_command h
  have htotal := totalTokens_command h
  have htokens : oTokens = [] ++ (pipeline (s :: rest) ++ background bg) := by
    rw [h.tokens_eq, hsegments]
    rfl
  obtain ⟨segs, start, hrun, hlen, hbounds⟩ := splitLoop_pipeline [] (background bg) s rest []
    (by rw [hsegments, List.length_cons] at hstages; rw [List.length_nil]; omega)
  rw [← htokens, ← hsegments] at hrun
  rw [List.nil_append, List.length_nil, Nat.zero_add, ← hsegments] at hbounds
  have hle : ¬ maxProcPerJob < countPipe oTokens + 1 := by omega
  have hlength : (boundsOf 0 segments).length = countPipe oTokens + 1 := by
    rw [length_boundsOf, hcount]
  simp only [splitSegments, if_neg hle, htotal]
  rw [List.length_nil] at hrun
  simp only [hrun, bind, Except.bind, addSegment, if_pos hlen, hbounds, hlength, ne_eq,
    not_true_eq_false, if_false]
  rfl

/-- The tokens between two indices of the list, where the list is cut there. -/
theorem tokensBetween_append (u l post : List Token) :
    tokensBetween (u ++ (l ++ post)) (u.length, u.length + l.length) = l := by
  rw [tokensBetween, List.take_length_add_append, List.drop_left' rfl, List.take_left' rfl]

/-- The tokens between the bounds are those of the segment. -/
def Holds (oTokens : List Token) (bounds : Nat × Nat) (s : Segment) : Prop :=
  ∃ u post, oTokens = u ++ (s.tokens ++ post) ∧
    bounds = (u.length, u.length + s.tokens.length)

/-- The tokens between the bounds are those of the segment. It is the definition, read from left to
right. -/
theorem Holds.tokensBetween_eq {bounds : Nat × Nat} (h : Holds oTokens bounds s) :
    tokensBetween oTokens bounds = s.tokens := by
  obtain ⟨u, post, rfl, rfl⟩ := h
  exact tokensBetween_append u s.tokens post

/-- The bounds belong to the segments, one to the other in order. The induction is on the segments,
with the tokens that are passed in `u`. -/
theorem boundsOf_holds (u post : List Token) (s : Segment) (rest : List Segment) :
    List.Forall₂ (Holds (u ++ (pipeline (s :: rest) ++ post))) (boundsOf u.length (s :: rest))
      (s :: rest) := by
  induction rest generalizing s u with
  | nil =>
      rw [pipeline_cons, behindPipes, List.flatMap_nil, List.append_nil]
      exact List.Forall₂.cons ⟨u, post, rfl, rfl⟩ List.Forall₂.nil
  | cons s' rest ih =>
      have hrest := ih (u ++ s.tokens ++ [.pipe]) s'
      have htokens : u ++ s.tokens ++ [.pipe] ++ (pipeline (s' :: rest) ++ post)
          = u ++ (pipeline (s :: s' :: rest) ++ post) := by
        rw [pipeline_cons₂]
        simp
      have hu : (u ++ s.tokens ++ [Token.pipe]).length = u.length + s.tokens.length + 1 := by
        simp only [List.length_append, List.length_singleton]
      rw [htokens, hu] at hrest
      refine List.Forall₂.cons ⟨u, .pipe :: (pipeline (s' :: rest) ++ post), ?_, rfl⟩ hrest
      rw [pipeline_cons₂, List.append_assoc, List.cons_append]

/-- The same for the whole command, in terms of the tokens between the bounds. -/
theorem map_tokensBetween (h : Command segments bg oTokens) :
    (boundsOf 0 segments).map (tokensBetween oTokens) = segments.map Segment.tokens ∧
      ∀ b ∈ boundsOf 0 segments, ∃ s, Holds oTokens b s := by
  obtain ⟨s, rest, hsegments⟩ := List.exists_cons_of_ne_nil h.ne_nil
  have hholds := boundsOf_holds [] (background bg) s rest
  rw [List.nil_append, ← hsegments, ← h.tokens_eq, List.length_nil] at hholds
  generalize boundsOf 0 segments = bounds at hholds
  clear hsegments h
  induction hholds with
  | nil => exact ⟨rfl, by simp⟩
  | @cons b s bounds segments hb _ ih =>
      refine ⟨by rw [List.map_cons, List.map_cons, hb.tokensBetween_eq, ih.1], fun b' hb' => ?_⟩
      cases hb' with
      | head => exact ⟨s, hb⟩
      | tail _ hb' => exact ih.2 b' hb'

/-! ### The arguments -/

/-- Behind a word the next word is an argument, as at the start of the list. Only a redirection
makes it a file. -/
theorem commandWords_word (w : List UInt8) (l : List Token) :
    commandWords (some (.word w)) l = commandWords none l := by
  cases l with
  | nil => rfl
  | cons t l => cases t <;> simp [commandWords]

/-- Behind a word no file is expected, as at the start of the list. -/
theorem targets_word (w : List UInt8) (l : List Token) :
    targets (some (.word w)) l = targets none l := by
  cases l with
  | nil => rfl
  | cons t l => cases t <;> simp [targets]

/-- The loop reads the tokens between the bounds. Each index is in bounds, so the loop is a fold
over the tokens. -/
theorem buildLoop_eq_foldlM (u l post : List Token) (vars : BuildVars) :
    buildLoop openOk (u ++ (l ++ post)) l.length u.length vars
      = l.foldlM (buildStep openOk) vars := by
  induction l generalizing u vars with
  | nil => rfl
  | cons t l ih =>
      have hget : dynarrayGet (u ++ (t :: l ++ post)) u.length = .ok t := dynarrayGet_append u t _
      have heq : u ++ [t] ++ (l ++ post) = u ++ (t :: l ++ post) := by simp
      have hlen : (u ++ [t]).length = u.length + 1 := by simp
      rw [List.length_cons, buildLoop, hget, List.foldlM_cons]
      dsimp only
      congr 1
      funext vars'
      rw [← ih (u ++ [t]) vars', heq, hlen]

/-- The word behind a `<` names a file, and the flag is cleared again. If the file does not open,
the child exits with 127. -/
theorem buildStep_input (openOk : Redirect → Bool) {vars : BuildVars} (w : List UInt8)
    (hin : vars.redin = false) :
    buildStep openOk { vars with redin := true } (.word w) =
      if openOk (.input w) then .ok { vars with opened := vars.opened ++ [.input w] }
      else .error (.exit 127) := by
  by_cases hopen : openOk (.input w) = true
  · simp [buildStep, redirectHandler, hopen, hin, bind, Except.bind, pure, Except.pure]
  · simp [buildStep, redirectHandler, hopen, bind, Except.bind]

/-- The same behind a `>`. The flag of `<` is tested first, so it has to be cleared. -/
theorem buildStep_output (openOk : Redirect → Bool) {vars : BuildVars} (w : List UInt8)
    (hin : vars.redin = false) (hout : vars.redout = false) :
    buildStep openOk { vars with redout := true } (.word w) =
      if openOk (.output w) then .ok { vars with opened := vars.opened ++ [.output w] }
      else .error (.exit 127) := by
  by_cases hopen : openOk (.output w) = true
  · simp [buildStep, redirectHandler, hopen, hin, hout, bind, Except.bind, pure, Except.pure]
  · simp [buildStep, redirectHandler, hopen, hin, bind, Except.bind]

/-- A redirection and the rest. The loop goes on with the file opened, or the child exits. Both
operators are of this form. -/
theorem foldlM_redirect {t : Token} {r : Redirect} {w : List UInt8} {vars vars₁ : BuildVars}
    (l : List Token)
    (hfirst : buildStep openOk vars t = .ok vars₁)
    (hword : buildStep openOk vars₁ (.word w) =
      if openOk r then .ok { vars with opened := vars.opened ++ [r] } else .error (.exit 127)) :
    (t :: .word w :: l).foldlM (buildStep openOk) vars =
      if openOk r then
        l.foldlM (buildStep openOk) { vars with opened := vars.opened ++ [r] }
      else .error (.exit 127) := by
  simp only [List.foldlM_cons, hfirst, hword, bind, Except.bind]
  by_cases hopen : openOk r = true
  · simp only [if_pos hopen]
  · simp only [if_neg hopen]

/-- The items of a segment, one after the other. The child exits at the first file that does not
open, and otherwise the words are the arguments and the files are opened in order. -/
theorem foldlM_items (openOk : Redirect → Bool) (items : List Item) (vars : BuildVars)
    (hin : vars.redin = false) (hout : vars.redout = false) :
    (items.flatMap Item.tokens).foldlM (buildStep openOk) vars =
      if (targets none (items.flatMap Item.tokens)).all openOk then
        .ok { vars with
          args := vars.args ++ commandWords none (items.flatMap Item.tokens)
          opened := vars.opened ++ targets none (items.flatMap Item.tokens) }
      else .error (.exit 127) := by
  induction items generalizing vars with
  | nil => simp [commandWords, targets, pure, Except.pure]
  | cons item items ih =>
      rw [List.flatMap_cons]
      cases item with
      | word w =>
          have hstep : buildStep openOk vars (.word w)
              = .ok { vars with args := vars.args ++ [w] } := by
            simp [buildStep, hin, hout]
          simp only [Item.tokens, List.singleton_append, List.foldlM_cons, hstep, bind, Except.bind]
          rw [ih { vars with args := vars.args ++ [w] } hin hout]
          simp [commandWords, targets, commandWords_word, targets_word]
      | redin w =>
          rw [Item.tokens, List.cons_append, List.singleton_append,
            foldlM_redirect _ rfl (buildStep_input openOk w hin),
            ih { vars with opened := vars.opened ++ [.input w] } hin hout]
          by_cases hopen : openOk (.input w) = true
          · simp [commandWords, targets, commandWords_word, targets_word, hopen]
          · simp [targets, hopen]
      | redout w =>
          rw [Item.tokens, List.cons_append, List.singleton_append,
            foldlM_redirect _ rfl (buildStep_output openOk w hin hout),
            ih { vars with opened := vars.opened ++ [.output w] } hin hout]
          by_cases hopen : openOk (.output w) = true
          · simp [commandWords, targets, commandWords_word, targets_word, hopen]
          · simp [targets, hopen]

/-- What a segment is built to: its words, its files, or the exit of the child. The first word is no
different from the others for the loop. -/
theorem buildCommandPartial_segment (u post : List Token) (s : Segment) :
    buildCommandPartial openOk (u ++ (s.tokens ++ post)) u.length (u.length + s.tokens.length) =
      if (targets none s.tokens).all openOk then
        .ok (commandWords none s.tokens, targets none s.tokens)
      else .error (.exit 127) := by
  have hstep : buildStep openOk ⟨false, false, [], []⟩ (.word s.command)
      = .ok ⟨false, false, [s.command], []⟩ := rfl
  have hitems := foldlM_items openOk s.items ⟨false, false, [s.command], []⟩ rfl rfl
  have hwords : commandWords none s.tokens
      = s.command :: commandWords none (s.items.flatMap Item.tokens) := by
    simp [Segment.tokens, commandWords, commandWords_word]
  have htargets : targets none s.tokens = targets none (s.items.flatMap Item.tokens) := by
    simp [Segment.tokens, targets, targets_word]
  have hfold : s.tokens.foldlM (buildStep openOk) ⟨false, false, [], []⟩
      = (s.items.flatMap Item.tokens).foldlM (buildStep openOk)
          ⟨false, false, [s.command], []⟩ := by
    rw [Segment.tokens, List.foldlM_cons, hstep]
    rfl
  rw [buildCommandPartial, Nat.add_sub_cancel_left, buildLoop_eq_foldlM, hfold, hitems, htargets,
    hwords]
  by_cases hall : (targets none (s.items.flatMap Item.tokens)).all openOk = true
  · rw [if_pos hall, if_pos hall]
    rfl
  · rw [if_neg hall, if_neg hall]
    rfl

/-- The operator in front of a file. -/
def Redirect.operator : Redirect → Token
  | .input _ => .redin
  | .output _ => .redout

/-- Each file comes from an operator. It stands in front of the word, or in front of the list. -/
theorem operator_of_mem_targets {r : Redirect} (prev : Option Token) (hr : r ∈ targets prev l) :
    prev = some r.operator ∨ r.operator ∈ l := by
  induction l generalizing prev with
  | nil => cases hr
  | cons t l ih =>
      -- The token in front of the rest is in the list.
      have hrest (hr : r ∈ targets (some t) l) : r.operator ∈ t :: l := by
        rcases ih (some t) hr with heq | hmem
        · rw [Option.some.inj heq]
          exact List.mem_cons_self
        · exact List.mem_cons_of_mem t hmem
      cases t with
      | word value =>
          rw [targets] at hr
          by_cases hin : prev = some .redin
          · rw [if_pos hin] at hr
            rcases List.mem_cons.mp hr with rfl | hr
            · exact Or.inl hin
            · exact Or.inr (hrest hr)
          · rw [if_neg hin] at hr
            by_cases hout : prev = some .redout
            · rw [if_pos hout] at hr
              rcases List.mem_cons.mp hr with rfl | hr
              · exact Or.inl hout
              · exact Or.inr (hrest hr)
            · rw [if_neg hout] at hr
              exact Or.inr (hrest hr)
      | pipe | bg | redin | redout => exact Or.inr (hrest hr)

/-- Without its operator there is no such file. So a segment that the checker has found without `<`
is not redirected. -/
theorem notMem_targets {r : Redirect} (hl : r.operator ∉ l) : r ∉ targets none l := by
  intro hr
  rcases operator_of_mem_targets none hr with hnone | hmem
  · cases hnone
  · exact hl hmem

/-! ### The agreement -/

/-- Each segment is a stage. Its first token is the command, and what is built from it has the words
and the files of the segment. -/
theorem Holds.stage {bounds : Nat × Nat} (h : Holds oTokens bounds s) : Stage oTokens bounds := by
  have heq := h.tokensBetween_eq
  obtain ⟨u, post, htokens, hbounds⟩ := h
  refine ⟨?_, ?_, ?_, ?_, fun openOk => ?_⟩
  · rw [heq]
    exact ⟨s.command, _, rfl⟩
  · rw [heq]
    exact s.pipe_notMem
  · rw [heq]
    exact s.bg_notMem
  · rw [heq, Segment.tokens, commandWords, if_neg (by simp)]
    exact List.cons_ne_nil _ _
  · rw [heq, htokens, hbounds]
    exact buildCommandPartial_segment u post s

/-- On each accepted line that is not empty, the passes of the executor agree with the checker: the
`&` is found if and only if it is the last token, the split finds the segments that the checker has
seen, each of them is a command of its own, and only the first and the last one are redirected. -/
theorem stages_of_accepted (oTokens : List Token) (hne : oTokens ≠ [])
    (haccepted : syntaxCheck oTokens = .success)
    (hstages : countPipe oTokens + 1 ≤ maxProcPerJob) :
    (checkBg oTokens = true ↔ oTokens.getLast? = some .bg) ∧
      ∃ bounds, splitSegments (countPipe oTokens) oTokens (checkBg oTokens)
          = .ok (.segments bounds) ∧
        bounds.length = countPipe oTokens + 1 ∧
        oTokens = List.intercalate [.pipe] (bounds.map (tokensBetween oTokens))
          ++ background (checkBg oTokens) ∧
        (∀ b ∈ bounds, Stage oTokens b) ∧
        (∀ b ∈ bounds.tail, ∀ file, .input file ∉ targets none (tokensBetween oTokens b)) ∧
        (∀ b ∈ bounds.dropLast, ∀ file, .output file ∉ targets none (tokensBetween oTokens b)) ∧
        (countPipe oTokens = 0 → bounds = [(0, totalTokens oTokens (checkBg oTokens))]) := by
  obtain ⟨segments, bg, h⟩ := (syntaxCheck_success_iff.mp haccepted).resolve_left hne
  have hcount := countPipe_command h
  have hbg := checkBg_command h
  obtain ⟨hmap, hholds⟩ := map_tokensBetween h
  refine ⟨getLast?_command h, boundsOf 0 segments, ?_, ?_, ?_, ?_, ?_, ?_, ?_⟩
  · rw [hbg]
    exact splitSegments_command h (by omega)
  · rw [length_boundsOf, hcount]
  · rw [hmap, hbg]
    exact h.tokens_eq
  · intro b hb
    obtain ⟨s, hs⟩ := hholds b hb
    exact hs.stage
  · intro b hb file
    have hmem := List.mem_map_of_mem (f := tokensBetween oTokens) hb
    rw [List.map_tail, hmap, ← List.map_tail] at hmem
    obtain ⟨s, hs, heq⟩ := List.mem_map.mp hmem
    rw [← heq]
    exact notMem_targets (h.redin_first s hs)
  · intro b hb file
    have hmem := List.mem_map_of_mem (f := tokensBetween oTokens) hb
    rw [List.map_dropLast, hmap, ← List.map_dropLast] at hmem
    obtain ⟨s, hs, heq⟩ := List.mem_map.mp hmem
    rw [← heq]
    exact notMem_targets (h.redout_last s hs)
  · intro hzero
    rw [hzero] at hcount
    obtain ⟨s, hs⟩ := List.length_eq_one_iff.mp hcount.symm
    rw [hbg, totalTokens_command h, hs, pipeline_cons, behindPipes, List.flatMap_nil,
      List.append_nil, boundsOf, boundsOf, Nat.zero_add]

/-- The command `a < i | b > o &`. Its second stage is between the indices 4 and 7, behind the `|`
and in front of the `&`. -/
theorem stages_of_accepted_full :
    Stage [.word [97], .redin, .word [105], .pipe, .word [98], .redout, .word [111], .bg]
      (4, 7) := by
  obtain ⟨-, bounds, hsplit, -, -, hstage, -⟩ := stages_of_accepted
    [.word [97], .redin, .word [105], .pipe, .word [98], .redout, .word [111], .bg]
    (by decide) (by decide) (by decide)
  have hbounds : splitSegments 1
      [.word [97], .redin, .word [105], .pipe, .word [98], .redout, .word [111], .bg] true
        = .ok (.segments [(0, 3), (4, 7)]) := rfl
  have heq := hsplit.symm.trans hbounds
  rw [SplitResult.segments.inj (Except.ok.inj heq)] at hstage
  exact hstage (4, 7) (by decide)

/-- The empty list is accepted as well. Its only segment has no command. -/
theorem stages_of_accepted_empty :
    ¬ ∀ oTokens, syntaxCheck oTokens = .success → countPipe oTokens + 1 ≤ maxProcPerJob →
      ∃ bounds, splitSegments (countPipe oTokens) oTokens (checkBg oTokens)
          = .ok (.segments bounds) ∧
        ∀ b ∈ bounds, ∃ w rest, tokensBetween oTokens b = .word w :: rest := by
  intro h
  obtain ⟨bounds, hsplit, hstage⟩ := h [] rfl (by decide)
  have hbounds : splitSegments 0 [] false = .ok (.segments [(0, 0)]) := rfl
  have heq := hsplit.symm.trans hbounds
  rw [SplitResult.segments.inj (Except.ok.inj heq)] at hstage
  obtain ⟨w, rest, hw⟩ := hstage (0, 0) List.mem_cons_self
  exact absurd hw (by simp [tokensBetween])

end SysProg.Shell
