import SysProg.Shell.Grammar

/-!
# `SysProg.Proofs.Shell.Syntax`: the checker accepts the grammar

* `tail_iff`: the loop of `syntax_check` accepts what `Tail` derives. Its rules are the branches of
  the loop with their lookahead.
* `exists_rest_of_tail`, `tail_of_rest`: what is derived from some flags is the rest of a segment
  and more segments. `Rest` says what the flags still allow.
* `syntaxCheck_success_iff`: the accepted lists are the commands, and the empty list.
-/

set_option autoImplicit false

namespace SysProg.Shell

/-! ### The loop -/

/-- What the loop accepts. -/
inductive Tail : SyntaxFlags → List Token → Prop
  | done {flags} : Tail flags []
  | bg {flags} : Tail flags [.bg]
  | word {flags w ts} : Tail flags ts → Tail flags (.word w :: ts)
  | redin {flags w ts} : flags.pExist = false → flags.riExist = false →
      Tail { flags with riExist := true } ts → Tail flags (.redin :: .word w :: ts)
  | redout {flags w ts} : flags.roExist = false →
      Tail { flags with roExist := true } ts → Tail flags (.redout :: .word w :: ts)
  | pipe {flags w ts} : flags.roExist = false →
      Tail { flags with pExist := true } ts → Tail flags (.pipe :: .word w :: ts)

variable {flags : SyntaxFlags} {ts tokens : List Token} {items : List Item} {s : Segment}
  {segments : List Segment} {bg : Bool} {w : List UInt8}

/-- The lookahead of `syntax_check` in front of a list. It answers yes exactly when the list goes on
with a word, and at the end of the list it answers no. -/
theorem nextIsWord_iff : nextIsWord ts = true ↔ ∃ w rest, ts = .word w :: rest := by
  constructor
  · intro h
    match ts, h with
    | .word w :: rest, _ => exact ⟨w, rest, rfl⟩
  · rintro ⟨w, rest, rfl⟩
    rfl

/-- A branch of the loop that looks ahead and then skips the word. Where there is no word the loop
stops with the error of the branch. So the branch succeeds exactly when a word comes next and the
loop succeeds behind it. -/
theorem lookahead_iff {e : SyntaxResult} (he : e ≠ .success) :
    (if !nextIsWord ts then e else syntaxLoop flags ts) = .success ↔
      ∃ w rest, ts = .word w :: rest ∧ syntaxLoop flags rest = .success := by
  by_cases hnext : nextIsWord ts = true
  · obtain ⟨w, rest, rfl⟩ := nextIsWord_iff.mp hnext
    refine ⟨fun h => ⟨w, rest, rfl, h⟩, fun ⟨w', rest', heq, h⟩ => ?_⟩
    rw [(List.cons.inj heq).2]
    exact h
  · rw [if_pos (by simpa using hnext)]
    refine ⟨fun h => absurd h he, fun ⟨w, rest, heq, _⟩ => ?_⟩
    exact absurd (nextIsWord_iff.mpr ⟨w, rest, heq⟩) hnext

/-- The loop accepts what the rules derive. The induction is on the loop, and each of its branches
is one of the rules with the same test of the flags. A branch that returns an error has no rule. -/
theorem tail_iff (flags : SyntaxFlags) (ts : List Token) :
    syntaxLoop flags ts = .success ↔ Tail flags ts := by
  -- A rule of two tokens goes on behind the second one.
  induction hlen : ts.length using Nat.strongRecOn generalizing flags ts with
  | _ n ih =>
      have hnext {flags : SyntaxFlags} {rest : List Token} {w : List UInt8} {t : Token}
          (h : ts = t :: .word w :: rest) : syntaxLoop flags rest = .success ↔ Tail flags rest :=
        ih rest.length (by rw [← hlen, h, List.length_cons, List.length_cons]; omega) flags rest rfl
      cases ts with
      | nil => exact ⟨fun _ => Tail.done, fun _ => rfl⟩
      | cons t ts =>
          cases t with
          | word w =>
              have htail := ih ts.length (by rw [← hlen]; exact Nat.lt_succ_self _) flags ts rfl
              refine ⟨fun h => Tail.word (htail.mp h), fun h => ?_⟩
              cases h with
              | word h => exact htail.mpr h
          | bg =>
              rw [syntaxLoop]
              by_cases hts : ts = []
              · subst hts
                exact ⟨fun _ => Tail.bg, fun _ => rfl⟩
              · rw [if_pos hts]
                refine ⟨fun h => by contradiction, fun h => ?_⟩
                cases h
                exact absurd rfl hts
          | pipe =>
              rw [syntaxLoop]
              by_cases hro : flags.roExist = true
              · rw [if_pos hro]
                refine ⟨fun h => by contradiction, fun h => ?_⟩
                cases h with
                | pipe hro' _ => exact absurd (hro.symm.trans hro') (by decide)
              · rw [if_neg hro, lookahead_iff (by decide)]
                rw [Bool.not_eq_true] at hro
                constructor
                · rintro ⟨w, rest, rfl, h⟩
                  exact Tail.pipe hro ((hnext rfl).mp h)
                · intro h
                  cases h with
                  | pipe _ h => exact ⟨_, _, rfl, (hnext rfl).mpr h⟩
          | redin =>
              rw [syntaxLoop]
              by_cases hflags : (flags.pExist || flags.riExist) = true
              · rw [if_pos hflags]
                refine ⟨fun h => by contradiction, fun h => ?_⟩
                cases h with
                | redin hp hri _ => exact absurd hflags (by simp [hp, hri])
              · rw [if_neg hflags, lookahead_iff (by decide)]
                rw [Bool.not_eq_true, Bool.or_eq_false_iff] at hflags
                constructor
                · rintro ⟨w, rest, rfl, h⟩
                  exact Tail.redin hflags.1 hflags.2 ((hnext rfl).mp h)
                · intro h
                  cases h with
                  | redin _ _ h => exact ⟨_, _, rfl, (hnext rfl).mpr h⟩
          | redout =>
              rw [syntaxLoop]
              by_cases hro : flags.roExist = true
              · rw [if_pos hro]
                refine ⟨fun h => by contradiction, fun h => ?_⟩
                cases h with
                | redout hro' _ => exact absurd (hro.symm.trans hro') (by decide)
              · rw [if_neg hro, lookahead_iff (by decide)]
                rw [Bool.not_eq_true] at hro
                constructor
                · rintro ⟨w, rest, rfl, h⟩
                  exact Tail.redout hro ((hnext rfl).mp h)
                · intro h
                  cases h with
                  | redout _ h => exact ⟨_, _, rfl, (hnext rfl).mpr h⟩

/-! ### Counting redirections -/

/-- The number of `<` in some items. -/
def ins (items : List Item) : Nat := (items.flatMap Item.tokens).count .redin

/-- The number of `>` in some items. -/
def outs (items : List Item) : Nat := (items.flatMap Item.tokens).count .redout

@[simp] theorem ins_nil : ins [] = 0 := rfl

@[simp] theorem outs_nil : outs [] = 0 := rfl

@[simp] theorem ins_word : ins (.word w :: items) = ins items := by
  simp [ins, Item.tokens]

@[simp] theorem outs_word : outs (.word w :: items) = outs items := by
  simp [outs, Item.tokens]

@[simp] theorem ins_redin : ins (.redin w :: items) = ins items + 1 := by
  simp [ins, Item.tokens]

@[simp] theorem outs_redin : outs (.redin w :: items) = outs items := by
  simp [outs, Item.tokens]

@[simp] theorem ins_redout : ins (.redout w :: items) = ins items := by
  simp [ins, Item.tokens]

@[simp] theorem outs_redout : outs (.redout w :: items) = outs items + 1 := by
  simp [outs, Item.tokens]

/-- The number of `<` in a segment. Its first word adds nothing, so the items decide. -/
theorem Segment.count_redin (s : Segment) : s.tokens.count .redin = ins s.items := by
  simp [Segment.tokens, ins]

/-- The number of `>` in a segment. As with `<`, the items decide. -/
theorem Segment.count_redout (s : Segment) : s.tokens.count .redout = outs s.items := by
  simp [Segment.tokens, outs]

/-- A segment without `<`. The grammar says it as a list without the token, and the loop counts with
its flag, so the proofs go from one to the other. -/
theorem Segment.redin_notMem_iff : Token.redin ∉ s.tokens ↔ ins s.items = 0 := by
  rw [← Segment.count_redin, List.count_eq_zero]

/-- A segment without `>`. It is `redin_notMem_iff` for the other redirection. -/
theorem Segment.redout_notMem_iff : Token.redout ∉ s.tokens ↔ outs s.items = 0 := by
  rw [← Segment.count_redout, List.count_eq_zero]

/-! ### The rest of a segment, and more segments -/

/-- The segments, each with `|` in front. -/
def behindPipes (segments : List Segment) : List Token :=
  segments.flatMap fun s => .pipe :: s.tokens

/-- Some items, some more segments and perhaps `&`, as far as the flags allow them. -/
structure Rest (flags : SyntaxFlags) (items : List Item) (segments : List Segment) (bg : Bool)
    (ts : List Token) : Prop where
  tokens_eq : ts = items.flatMap Item.tokens ++ (behindPipes segments ++ background bg)
  ins_le : ins items ≤ if flags.pExist || flags.riExist then 0 else 1
  ins_segments : ∀ s ∈ segments, ins s.items = 0
  outs_le : outs items ≤ if flags.roExist then 0 else 1
  outs_items : segments ≠ [] → flags.roExist = false ∧ outs items = 0
  outs_segments : ∀ s ∈ segments.dropLast, outs s.items = 0
  outs_last : ∀ s ∈ segments, outs s.items ≤ 1

/-- What the rules derive has this form. The induction is on the derivation: a word or a redirection
goes to the front of the items, and a `|` ends them and opens a segment in front of the others. -/
theorem exists_rest_of_tail (h : Tail flags ts) :
    ∃ items segments bg, Rest flags items segments bg ts := by
  induction h with
  | done => exact ⟨[], [], false, rfl, by simp, by simp, by simp, by simp, by simp, by simp⟩
  | bg => exact ⟨[], [], true, rfl, by simp, by simp, by simp, by simp, by simp, by simp⟩
  | @word flags w ts _ ih =>
      obtain ⟨items, segments, bg, h⟩ := ih
      refine ⟨.word w :: items, segments, bg, ?_, ?_, h.ins_segments, ?_, ?_, h.outs_segments,
        h.outs_last⟩
      · rw [h.tokens_eq]
        rfl
      · rw [ins_word]
        exact h.ins_le
      · rw [outs_word]
        exact h.outs_le
      · rw [outs_word]
        exact h.outs_items
  | @redin flags w ts hp hri _ ih =>
      obtain ⟨items, segments, bg, h⟩ := ih
      refine ⟨.redin w :: items, segments, bg, ?_, ?_, h.ins_segments, ?_, ?_, h.outs_segments,
        h.outs_last⟩
      · rw [h.tokens_eq]
        rfl
      · have hle := h.ins_le
        rw [Bool.or_true, if_pos rfl] at hle
        rw [ins_redin, hp, hri]
        simpa using hle
      · rw [outs_redin]
        exact h.outs_le
      · rw [outs_redin]
        exact h.outs_items
  | @redout flags w ts hro _ ih =>
      obtain ⟨items, segments, bg, h⟩ := ih
      -- Behind the `>` there are no more segments.
      have hnil : segments = [] := by
        by_contra hne
        exact absurd (h.outs_items hne).1 (by simp)
      refine ⟨.redout w :: items, segments, bg, ?_, ?_, h.ins_segments, ?_, ?_, h.outs_segments,
        h.outs_last⟩
      · rw [h.tokens_eq]
        rfl
      · rw [ins_redout]
        exact h.ins_le
      · have hle := h.outs_le
        rw [if_pos rfl] at hle
        rw [outs_redout, hro]
        simpa using hle
      · exact fun hne => absurd hnil hne
  | @pipe flags w ts hro _ ih =>
      obtain ⟨items, segments, bg, h⟩ := ih
      have hins : ins items = 0 := by
        have hle := h.ins_le
        rw [Bool.true_or, if_pos rfl] at hle
        exact Nat.le_zero.mp hle
      have houts : outs items ≤ 1 := by
        have hle := h.outs_le
        rw [hro] at hle
        exact hle
      refine ⟨[], ⟨w, items⟩ :: segments, bg, ?_, Nat.zero_le _, ?_, Nat.zero_le _, ?_, ?_, ?_⟩
      · rw [h.tokens_eq]
        simp [behindPipes, Segment.tokens]
      · intro s hs
        cases hs with
        | head => exact hins
        | tail _ hs => exact h.ins_segments s hs
      · exact fun _ => ⟨hro, rfl⟩
      · intro s hs
        cases segments with
        | nil => exact absurd hs List.not_mem_nil
        | cons s' segments =>
            rw [List.dropLast_cons_of_ne_nil (List.cons_ne_nil _ _)] at hs
            cases hs with
            | head => exact (h.outs_items (List.cons_ne_nil _ _)).2
            | tail _ hs => exact h.outs_segments s hs
      · intro s hs
        cases hs with
        | head => exact houts
        | tail _ hs => exact h.outs_last s hs

/-- What has this form is derived. The induction is on the number of tokens that are left. The first
item decides on the rule, and without an item the next `|`, `&` or end of the list does. -/
theorem tail_of_rest (h : Rest flags items segments bg ts) : Tail flags ts := by
  -- Induction on the tokens. The first one tells the rule.
  induction hlen : ts.length using Nat.strongRecOn generalizing flags items segments ts with
  | _ n ih =>
      cases items with
      | nil =>
          cases segments with
          | nil =>
              rw [h.tokens_eq]
              cases bg with
              | true => exact Tail.bg
              | false => exact Tail.done
          | cons s segments =>
              have htokens : ts = .pipe :: .word s.command ::
                  (s.items.flatMap Item.tokens ++ (behindPipes segments ++ background bg)) := by
                rw [h.tokens_eq]
                simp [behindPipes, Segment.tokens]
              have hro := (h.outs_items (List.cons_ne_nil _ _)).1
              rw [htokens, List.length_cons, List.length_cons] at hlen
              rw [htokens]
              have hrest : Rest { flags with pExist := true } s.items segments bg
                  (s.items.flatMap Item.tokens ++ (behindPipes segments ++ background bg)) := by
                refine ⟨rfl, ?_, fun s' hs' => h.ins_segments s' (List.mem_cons_of_mem s hs'), ?_,
                  fun hne => ⟨hro, ?_⟩, fun s' hs' => ?_,
                  fun s' hs' => h.outs_last s' (List.mem_cons_of_mem s hs')⟩
                · rw [h.ins_segments s List.mem_cons_self]
                  exact Nat.zero_le _
                · rw [hro]
                  exact h.outs_last s List.mem_cons_self
                · apply h.outs_segments
                  rw [List.dropLast_cons_of_ne_nil hne]
                  exact List.mem_cons_self
                · have hne : segments ≠ [] := by
                    intro hnil
                    rw [hnil] at hs'
                    exact absurd hs' List.not_mem_nil
                  apply h.outs_segments
                  rw [List.dropLast_cons_of_ne_nil hne]
                  exact List.mem_cons_of_mem s hs'
              exact Tail.pipe hro (ih _ (by omega) hrest rfl)
      | cons item items =>
          have htokens := h.tokens_eq
          rw [List.flatMap_cons, List.append_assoc] at htokens
          have hins := h.ins_le
          have houts := h.outs_le
          have hitems := h.outs_items
          cases item with
          | word w =>
              rw [ins_word] at hins
              rw [outs_word] at houts hitems
              rw [htokens, List.length_append] at hlen
              rw [htokens]
              exact Tail.word (ih _ (by rw [← hlen]; exact Nat.lt_add_of_pos_left Nat.one_pos)
                ⟨rfl, hins, h.ins_segments, houts, hitems, h.outs_segments, h.outs_last⟩ rfl)
          | redin w =>
              rw [ins_redin] at hins
              rw [outs_redin] at houts hitems
              have hfree : (flags.pExist || flags.riExist) = false := by
                rw [← Bool.not_eq_true]
                intro htrue
                rw [if_pos htrue] at hins
                omega
              rw [hfree] at hins
              rw [Bool.or_eq_false_iff] at hfree
              rw [htokens, List.length_append] at hlen
              rw [htokens]
              refine Tail.redin hfree.1 hfree.2
                (ih _ (by rw [← hlen]; exact Nat.lt_add_of_pos_left Nat.two_pos)
                  ⟨rfl, ?_, h.ins_segments, houts, hitems, h.outs_segments, h.outs_last⟩ rfl)
              simpa using hins
          | redout w =>
              rw [ins_redout] at hins
              rw [outs_redout] at houts hitems
              have hfree : flags.roExist = false := by
                rw [← Bool.not_eq_true]
                intro htrue
                rw [if_pos htrue] at houts
                omega
              rw [hfree] at houts
              rw [htokens, List.length_append] at hlen
              rw [htokens]
              refine Tail.redout hfree
                (ih _ (by rw [← hlen]; exact Nat.lt_add_of_pos_left Nat.two_pos)
                  ⟨rfl, hins, h.ins_segments, ?_, fun hne => ?_, h.outs_segments, h.outs_last⟩ rfl)
              · simpa using houts
              · exact absurd (hitems hne).2 (Nat.succ_ne_zero _)

/-! ### Commands -/

/-- The first segment of a pipeline, and the others with their `|` in front. The loop meets the
tokens in this order. -/
theorem pipeline_cons (s : Segment) (segments : List Segment) :
    pipeline (s :: segments) = s.tokens ++ behindPipes segments := by
  induction segments generalizing s with
  | nil => simp [pipeline, behindPipes, List.intercalate]
  | cons s' segments ih =>
      have hunfold : pipeline (s :: s' :: segments)
          = s.tokens ++ ([.pipe] ++ pipeline (s' :: segments)) := by
        simp [pipeline, List.intercalate]
      rw [hunfold, ih]
      simp [behindPipes]

/-- A token other than `|` behind the pipes is a token of one of the segments. So where a
redirection stands, a segment has it. -/
theorem mem_behindPipes {t : Token} (hne : t ≠ .pipe) :
    t ∈ behindPipes segments ↔ ∃ s ∈ segments, t ∈ s.tokens := by
  simp [behindPipes, hne]

/-- The tokens of a segment stand together in the list. What the list does not have, none of its
segments has. -/
theorem Segment.tokens_infix (hs : s ∈ segments) : s.tokens <:+: behindPipes segments := by
  obtain ⟨l₁, l₂, rfl⟩ := List.append_of_mem hs
  refine ⟨behindPipes l₁ ++ [.pipe], behindPipes l₂, ?_⟩
  simp [behindPipes]

/-- There is no `<` in the end of the command, which is `&` or nothing. -/
theorem redin_notMem_background : Token.redin ∉ background bg := by
  cases bg <;> simp [background]

/-- There is no `>` in the end of the command either. -/
theorem redout_notMem_background : Token.redout ∉ background bg := by
  cases bg <;> simp [background]

/-- The tokens of a command, behind its first word. A command is a first word and a rest for flags
that are all unset, and the rules on redirections are then the same on both sides. -/
theorem command_cons_iff :
    Command (⟨w, items⟩ :: segments) bg (.word w :: ts) ↔
      Rest ⟨false, false, false⟩ items segments bg ts := by
  have htokens : (Token.word w :: ts = pipeline (⟨w, items⟩ :: segments) ++ background bg) ↔
      ts = items.flatMap Item.tokens ++ (behindPipes segments ++ background bg) := by
    rw [pipeline_cons, Segment.tokens, List.cons_append, List.cons_append, List.append_assoc,
      List.cons.injEq]
    exact and_iff_right rfl
  -- The redirections of the whole list, apart from those of the first segment.
  have hins : ts = items.flatMap Item.tokens ++ (behindPipes segments ++ background bg) →
      (Token.word w :: ts).count .redin = ins items + (behindPipes segments).count .redin := by
    intro hts
    rw [List.count_cons_of_ne (by simp), hts, List.count_append, List.count_append,
      List.count_eq_zero.mpr redin_notMem_background, Nat.add_zero, ins]
  have houts : ts = items.flatMap Item.tokens ++ (behindPipes segments ++ background bg) →
      (Token.word w :: ts).count .redout = outs items + (behindPipes segments).count .redout := by
    intro hts
    rw [List.count_cons_of_ne (by simp), hts, List.count_append, List.count_append,
      List.count_eq_zero.mpr redout_notMem_background, Nat.add_zero, outs]
  constructor
  · intro ⟨_, heq, hinOnce, hinFirst, houtOnce, houtLast⟩
    have hts := htokens.mp heq
    rw [hins hts] at hinOnce
    rw [houts hts] at houtOnce
    refine ⟨hts, ?_, fun s hs => ?_, ?_, fun hne => ⟨rfl, ?_⟩, fun s hs => ?_, fun s hs => ?_⟩
    · exact Nat.le_trans (Nat.le_add_right _ _) hinOnce
    · exact Segment.redin_notMem_iff.mp (hinFirst s hs)
    · exact Nat.le_trans (Nat.le_add_right _ _) houtOnce
    · rw [List.dropLast_cons_of_ne_nil hne] at houtLast
      exact Segment.redout_notMem_iff.mp (houtLast _ List.mem_cons_self)
    · have hne : segments ≠ [] := by
        intro hnil
        rw [hnil] at hs
        exact absurd hs List.not_mem_nil
      rw [List.dropLast_cons_of_ne_nil hne] at houtLast
      exact Segment.redout_notMem_iff.mp (houtLast s (List.mem_cons_of_mem _ hs))
    · rw [← Segment.count_redout]
      exact Nat.le_trans ((Segment.tokens_infix hs).sublist.count_le _)
        (Nat.le_trans (Nat.le_add_left _ _) houtOnce)
  · intro h
    have hinNone : (behindPipes segments).count .redin = 0 := by
      rw [List.count_eq_zero, mem_behindPipes (by decide)]
      intro ⟨s, hs, hmem⟩
      exact Segment.redin_notMem_iff.mpr (h.ins_segments s hs) hmem
    refine ⟨List.cons_ne_nil _ _, htokens.mpr h.tokens_eq, ?_, fun s hs => ?_, ?_, fun s hs => ?_⟩
    · rw [hins h.tokens_eq, hinNone]
      exact h.ins_le
    · exact Segment.redin_notMem_iff.mpr (h.ins_segments s hs)
    · rw [houts h.tokens_eq]
      by_cases hnil : segments = []
      · rw [hnil]
        exact h.outs_le
      · -- Only the last segment can have a `>`.
        obtain ⟨_, houtsItems⟩ := h.outs_items hnil
        have hsplit := List.dropLast_concat_getLast hnil
        have hinit : (behindPipes segments.dropLast).count .redout = 0 := by
          rw [List.count_eq_zero, mem_behindPipes (by decide)]
          intro ⟨s, hs, hmem⟩
          exact Segment.redout_notMem_iff.mpr (h.outs_segments s hs) hmem
        have hlast : (behindPipes segments).count .redout
            = outs (segments.getLast hnil).items := by
          conv_lhs => rw [← hsplit]
          rw [behindPipes, List.flatMap_append, List.count_append, ← behindPipes, hinit,
            Nat.zero_add, List.flatMap_singleton, List.count_cons_of_ne (by decide),
            Segment.count_redout]
        rw [houtsItems, hlast, Nat.zero_add]
        exact h.outs_last _ (List.getLast_mem hnil)
    · by_cases hnil : segments = []
      · rw [hnil] at hs
        exact absurd hs List.not_mem_nil
      · rw [List.dropLast_cons_of_ne_nil hnil] at hs
        rw [Segment.redout_notMem_iff]
        cases hs with
        | head => exact (h.outs_items hnil).2
        | tail _ hs => exact h.outs_segments s hs

/-- A command starts with a word, the first one of its first segment. Its segments are therefore
never an empty list. -/
theorem Command.head (h : Command segments bg tokens) :
    ∃ w items rest ts, segments = ⟨w, items⟩ :: rest ∧ tokens = .word w :: ts := by
  obtain ⟨s, rest, hs⟩ := List.exists_cons_of_ne_nil h.ne_nil
  have htokens := h.tokens_eq
  rw [hs, pipeline_cons, Segment.tokens] at htokens
  exact ⟨s.command, s.items, rest, _, hs, htokens⟩

/-- An accepted list starts with a word. The checker looks at the first token on its own, and
anything else there is the error for a missing command. -/
theorem syntaxCheck_head {t : Token} (h : syntaxCheck (t :: ts) = .success) :
    ∃ w, t = .word w := by
  cases t with
  | word w => exact ⟨w, rfl⟩
  | pipe | bg | redin | redout => cases h

/-- What the checker says about a list that starts with a word. It is the loop with all flags unset,
and `tail_iff` and `command_cons_iff` turn that into a command. -/
theorem syntaxCheck_word_iff :
    syntaxCheck (.word w :: ts) = .success ↔
      ∃ segments bg, Command segments bg (.word w :: ts) := by
  rw [syntaxCheck, tail_iff]
  constructor
  · intro h
    obtain ⟨items, segments, bg, h⟩ := exists_rest_of_tail h
    exact ⟨⟨w, items⟩ :: segments, bg, command_cons_iff.mpr h⟩
  · intro ⟨segments, bg, h⟩
    obtain ⟨w', items, rest, ts', rfl, heq⟩ := h.head
    obtain ⟨hw, -⟩ := List.cons.inj heq
    rw [← Token.word.inj hw] at h
    exact tail_of_rest (command_cons_iff.mp h)

/-- The accepted lists: the empty one, and the commands. `syntax_check` has nothing to test in an
empty list and returns success. -/
theorem syntaxCheck_success_iff :
    syntaxCheck tokens = .success ↔ tokens = [] ∨ ∃ segments bg, Command segments bg tokens := by
  cases tokens with
  | nil => exact ⟨fun _ => Or.inl rfl, fun _ => rfl⟩
  | cons t ts =>
      rw [or_iff_right (List.cons_ne_nil t ts)]
      constructor
      · intro h
        obtain ⟨w, rfl⟩ := syntaxCheck_head h
        exact syntaxCheck_word_iff.mp h
      · intro ⟨segments, bg, h⟩
        obtain ⟨w, _, _, _, _, heq⟩ := h.head
        obtain ⟨rfl, -⟩ := List.cons.inj heq
        exact syntaxCheck_word_iff.mpr ⟨segments, bg, h⟩

/-- The checker accepts exactly the grammar. The empty list is left out: `shell_helper` does not
call the checker for it, and it is not a command. -/
theorem syntaxCheck_grammar (tokens : List Token) (hne : tokens ≠ []) :
    syntaxCheck tokens = .success ↔ ∃ segments bg, Command segments bg tokens := by
  rw [syntaxCheck_success_iff, or_iff_right hne]

/-- The command `a < i | b > o &`. It has each kind of token, with `<` in its first segment and `>`
in its last one. -/
theorem syntaxCheck_grammar_full :
    ∃ segments bg, Command segments bg
      [.word [97], .redin, .word [105], .pipe, .word [98], .redout, .word [111], .bg] :=
  (syntaxCheck_grammar
    [.word [97], .redin, .word [105], .pipe, .word [98], .redout, .word [111], .bg]
    (by decide)).mp rfl

end SysProg.Shell
