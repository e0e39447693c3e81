import SysProg.Shell.Calls
import SysProg.Proofs.Shell.Stages

/-!
# `SysProg.Proofs.Shell.Calls`: the arguments of a child

* `helperCalls_command`: which calls are made for a command.
* `tokenWrites_items`, `buildWrites_holds`: the indices that are written.
* `writesFit_iff_argsFit`: when they are all inside of the array.
-/

set_option autoImplicit false

namespace SysProg.Shell

variable {oTokens l : List Token} {segments : List Segment} {s : Segment} {bg : Bool}
  {bounds : List (Nat × Nat)} {b : Nat × Nat} {call : Call} {vars : BuildVars} {i : Nat}
  {mem : Nat → Bool} {line : List UInt8}

/-! ### The calls -/

/-- The call is made for the segment. -/
inductive Runs (oTokens : List Token) (s : Segment) : Call → Prop
  | build {pos : Nat × Nat} : Holds oTokens pos s → checkBuiltin (.word s.command) = .normal →
      Runs oTokens s (.build pos.1 pos.2)
  | child {pos : Nat × Nat} {btype} : Holds oTokens pos s →
      checkBuiltin (.word s.command) = btype → btype ≠ .normal →
      Runs oTokens s (.builtin btype pos.1 pos.2 true)
  | shell {isBackground btype} : oTokens = s.tokens ++ background isBackground →
      checkBuiltin (.word s.command) = btype → btype ≠ .normal →
      Runs oTokens s (.builtin btype 0 oTokens.length false)

/-- The call of a child is made from the tokens between its bounds, which are those of the segment.
-/
theorem childCall_holds (h : Holds oTokens b s) :
    ∃ call, childCall oTokens b = .ok call ∧ Runs oTokens s call := by
  have hget : dynarrayGet oTokens b.1 = .ok (.word s.command) := by
    obtain ⟨u, post, rfl, rfl⟩ := h
    exact dynarrayGet_append u _ _
  unfold childCall
  rw [hget]
  cases hbuiltin : checkBuiltin (.word s.command) with
  | normal =>
      exact ⟨.build b.1 b.2, by simp [bind, Except.bind, pure, Except.pure, hbuiltin],
        .build h hbuiltin⟩
  | exit | cd =>
      exact ⟨.builtin _ b.1 b.2 true, by simp [bind, Except.bind, pure, Except.pure, hbuiltin],
        .child h hbuiltin (by decide)⟩

/-- One call for each segment of a pipeline. -/
theorem mapM_childCall (h : List.Forall₂ (Holds oTokens) bounds segments) :
    ∃ calls, bounds.mapM (childCall oTokens) = .ok calls ∧
      List.Forall₂ (Runs oTokens) segments calls := by
  induction h with
  | nil => exact ⟨[], rfl, .nil⟩
  | cons hb _ ih =>
      obtain ⟨call, hcall, hruns⟩ := childCall_holds hb
      obtain ⟨calls, hcalls, hall⟩ := ih
      refine ⟨call :: calls, ?_, .cons hruns hall⟩
      rw [List.mapM_cons, hcall, hcalls]
      rfl

/-- The bounds of a whole command. -/
theorem boundsOf_command (h : Command segments bg oTokens) :
    List.Forall₂ (Holds oTokens) (boundsOf 0 segments) segments := by
  obtain ⟨s, rest, hsegments⟩ := List.exists_cons_of_ne_nil h.ne_nil
  have hholds := boundsOf_holds [] (background bg) s rest
  rwa [List.nil_append, ← hsegments, ← h.tokens_eq, List.length_nil] at hholds

/-- A command with too many segments makes no call. All others make one for each segment. -/
theorem helperCalls_command (h : Command segments bg oTokens) :
    ∃ calls, helperCalls oTokens = .ok calls ∧
      (maxProcPerJob < segments.length ∧ calls = [] ∨
        segments.length ≤ maxProcPerJob ∧ List.Forall₂ (Runs oTokens) segments calls) := by
  have hcount := countPipe_command h
  have hbg := checkBg_command h
  have hholds := boundsOf_command h
  obtain ⟨w, items, rest, ts, hsegments, htokens⟩ := h.head
  rw [htokens] at hcount hbg ⊢
  unfold helperCalls
  by_cases hpipe : countPipe (.word w :: ts) > 0
  · by_cases hlength : segments.length ≤ maxProcPerJob
    · have hsplit := splitSegments_command h hlength
      obtain ⟨calls, hcalls, hall⟩ := mapM_childCall hholds
      rw [htokens] at hsplit hcalls hall
      refine ⟨calls, ?_, Or.inr ⟨hlength, hall⟩⟩
      simp only [if_pos hpipe, hbg, hsplit]
      exact hcalls
    · refine ⟨[], ?_, Or.inl ⟨by omega, rfl⟩⟩
      have hmany : maxProcPerJob < countPipe (.word w :: ts) + 1 := by omega
      simp only [if_pos hpipe, splitSegments, if_pos hmany]
      rfl
  · -- The command has one segment.
    obtain rfl : rest = [] := by
      rw [hsegments, List.length_cons] at hcount
      exact List.length_eq_zero_iff.mp (by omega)
    have htotal := totalTokens_command h
    have hbounds : boundsOf 0 segments = [(0, totalTokens (.word w :: ts) bg)] := by
      rw [← htokens, htotal, hsegments, pipeline_cons, behindPipes, List.flatMap_nil,
        List.append_nil, boundsOf, boundsOf, Nat.zero_add]
    rw [hbounds, hsegments, htokens] at hholds
    have hseg : Holds (.word w :: ts) (0, totalTokens (.word w :: ts) bg) ⟨w, items⟩ := by
      cases hholds with
      | cons hhead _ => exact hhead
    have hone : segments.length ≤ maxProcPerJob := by
      rw [hsegments, List.length_singleton]
      decide
    rw [hsegments] at hone ⊢
    simp only [if_neg hpipe, hbg]
    cases hbuiltin : checkBuiltin (.word w) with
    | normal =>
        exact ⟨_, rfl, Or.inr ⟨hone, .cons (.build hseg hbuiltin) .nil⟩⟩
    | exit | cd =>
        have htext : Token.word w :: ts = Segment.tokens ⟨w, items⟩ ++ background bg := by
          rw [← htokens, h.tokens_eq, hsegments, pipeline_cons, behindPipes, List.flatMap_nil,
            List.append_nil]
        exact ⟨_, rfl, Or.inr ⟨hone, .cons (.shell htext hbuiltin (by decide)) .nil⟩⟩

/-! ### The writes -/

/-- The writes for a list of tokens. -/
def tokenWrites (openOk : Redirect → Bool) (vars : BuildVars) : List Token → List Nat
  | [] => [vars.args.length]
  | t :: l =>
      argWrites vars t ++
        match buildStep openOk vars t with
        | .error _ => []
        | .ok vars => tokenWrites openOk vars l

/-- The loop reads the tokens between the bounds. -/
theorem writesLoop_eq (openOk : Redirect → Bool) (u l post : List Token) (vars : BuildVars) :
    writesLoop openOk (u ++ (l ++ post)) l.length u.length vars = tokenWrites openOk vars l := by
  induction l generalizing u vars with
  | nil => rfl
  | cons t l ih =>
      have hget : dynarrayGet (u ++ (t :: l ++ post)) u.length = .ok t := dynarrayGet_append u t _
      have heq : u ++ [t] ++ (l ++ post) = u ++ (t :: l ++ post) := by simp
      have hlen : (u ++ [t]).length = u.length + 1 := by simp
      rw [List.length_cons, writesLoop, hget, tokenWrites]
      dsimp only
      cases buildStep openOk vars t with
      | error => rfl
      | ok vars' =>
          dsimp only
          rw [← ih (u ++ [t]) vars', heq, hlen]

/-- The arguments among the items. -/
def wordItems (items : List Item) : Nat :=
  items.countP fun item => match item with
    | .word _ => true
    | _ => false

/-- A redirection writes nothing to `args`. -/
theorem tokenWrites_redirect {openOk : Redirect → Bool} {t : Token} {r : Redirect} {w : List UInt8}
    {vars vars₁ : BuildVars} (l : List Token) (ht : argWrites vars t = [])
    (hw : argWrites vars₁ (.word w) = []) (hfirst : buildStep openOk vars t = .ok vars₁)
    (hword : buildStep openOk vars₁ (.word w) =
      if openOk r then .ok { vars with opened := vars.opened ++ [r] } else .error (.exit 127)) :
    tokenWrites openOk vars (t :: .word w :: l) =
      if openOk r then tokenWrites openOk { vars with opened := vars.opened ++ [r] } l
      else [] := by
  rw [tokenWrites, ht, hfirst]
  dsimp only
  rw [tokenWrites, hw, hword]
  by_cases hopen : openOk r = true
  · simp only [if_pos hopen, List.nil_append]
  · simp only [if_neg hopen, List.nil_append]

/-- The indices go up to the number of arguments, which is that of the final `NULL`. -/
theorem tokenWrites_items (openOk : Redirect → Bool) (items : List Item) (vars : BuildVars)
    (hin : vars.redin = false) (hout : vars.redout = false) :
    (∀ i ∈ tokenWrites openOk vars (items.flatMap Item.tokens),
        i ≤ vars.args.length + wordItems items) ∧
      ((∀ r, openOk r = true) → vars.args.length + wordItems items
        ∈ tokenWrites openOk vars (items.flatMap Item.tokens)) := by
  induction items generalizing vars with
  | nil => simp [tokenWrites, wordItems]
  | cons item items ih =>
      rw [List.flatMap_cons]
      cases item with
      | word w =>
          have hstep : buildStep openOk vars (.word w)
              = .ok { vars with args := vars.args ++ [w] } := by
            simp [buildStep, hin, hout]
          have hcount : wordItems (.word w :: items) = wordItems items + 1 := by
            simp [wordItems]
          obtain ⟨hle, hmem⟩ := ih { vars with args := vars.args ++ [w] } hin hout
          rw [List.length_append, List.length_singleton] at hle hmem
          simp only [Item.tokens, List.singleton_append, tokenWrites, hstep, hcount,
            List.mem_append]
          refine ⟨fun i hi => ?_, fun hopen => Or.inr ?_⟩
          · rcases hi with hi | hi
            · simp only [argWrites, hin, hout, Bool.or_self, Bool.false_eq_true, if_false,
                List.mem_singleton] at hi
              omega
            · have hi' := hle i hi
              omega
          · rw [show vars.args.length + (wordItems items + 1)
              = vars.args.length + 1 + wordItems items by omega]
            exact hmem hopen
      | redin w =>
          have hcount : wordItems (.redin w :: items) = wordItems items := by simp [wordItems]
          obtain ⟨hle, hmem⟩ := ih { vars with opened := vars.opened ++ [.input w] } hin hout
          rw [Item.tokens, List.cons_append, List.singleton_append, tokenWrites_redirect _ rfl
            (by simp [argWrites]) rfl (buildStep_input openOk w hin), hcount]
          by_cases hopen : openOk (.input w) = true
          · rw [if_pos hopen]
            exact ⟨hle, hmem⟩
          · rw [if_neg hopen]
            exact ⟨by simp, fun hall => absurd (hall _) hopen⟩
      | redout w =>
          have hcount : wordItems (.redout w :: items) = wordItems items := by simp [wordItems]
          obtain ⟨hle, hmem⟩ := ih { vars with opened := vars.opened ++ [.output w] } hin hout
          rw [Item.tokens, List.cons_append, List.singleton_append, tokenWrites_redirect _ rfl
            (by simp [argWrites]) rfl (buildStep_output openOk w hin hout), hcount]
          by_cases hopen : openOk (.output w) = true
          · rw [if_pos hopen]
            exact ⟨hle, hmem⟩
          · rw [if_neg hopen]
            exact ⟨by simp, fun hall => absurd (hall _) hopen⟩

/-- The writes for one segment. -/
theorem buildWrites_holds (h : Holds oTokens b s) (openOk : Redirect → Bool) :
    (∀ i ∈ buildWrites openOk oTokens b.1 b.2, i ≤ s.argc) ∧
      ((∀ r, openOk r = true) → s.argc ∈ buildWrites openOk oTokens b.1 b.2) := by
  have hstep : buildStep openOk ⟨false, false, [], []⟩ (.word s.command)
      = .ok ⟨false, false, [s.command], []⟩ := rfl
  obtain ⟨hle, hmem⟩ := tokenWrites_items openOk s.items ⟨false, false, [s.command], []⟩ rfl rfl
  obtain ⟨u, post, rfl, rfl⟩ := h
  unfold buildWrites
  rw [Nat.add_sub_cancel_left, writesLoop_eq, Segment.tokens, tokenWrites, hstep]
  refine ⟨fun i hi => ?_, fun hopen => List.mem_append_right _ (hmem hopen)⟩
  rcases List.mem_append.mp hi with hi | hi
  · obtain rfl : i = 0 := by simpa [argWrites] using hi
    exact Nat.zero_le _
  · exact hle i hi

/-! ### The bound -/

/-- An accepted line is empty or a command. -/
theorem Accepted.command (h : Accepted mem line oTokens) :
    oTokens = [] ∨ ∃ segments bg, Command segments bg oTokens :=
  syntaxCheck_success_iff.mp h.checked

/-- Each entry of the first list has its partner. -/
theorem exists_partner {α β : Type} {R : α → β → Prop} {left : List α} {right : List β} {x : α}
    (h : List.Forall₂ R left right) (hx : x ∈ left) : ∃ y ∈ right, R x y := by
  induction h with
  | nil => cases hx
  | @cons a b left right hab _ ih =>
      cases hx with
      | head => exact ⟨b, List.mem_cons_self, hab⟩
      | tail _ hx =>
          obtain ⟨y, hy, hxy⟩ := ih hx
          exact ⟨y, List.mem_cons_of_mem b hy, hxy⟩

/-- `build_command_partial` stays inside of `args` if and only if no segment that it is called for
has more than 63 words. -/
theorem writesFit_iff_argsFit (mem : Nat → Bool) (line : List UInt8) (oTokens : List Token)
    (h : Accepted mem line oTokens) : WritesFit oTokens ↔ ArgsFit oTokens := by
  constructor
  · rintro ⟨calls, hcalls, hfit⟩ segments bg hcommand hlength s hs hnormal
    obtain ⟨calls', hcalls', hall⟩ := helperCalls_command hcommand
    obtain rfl : calls = calls' := Except.ok.inj (hcalls.symm.trans hcalls')
    obtain ⟨-, hall⟩ := hall.resolve_left (by omega)
    obtain ⟨call, hcall, hruns⟩ := exists_partner hall hs
    cases hruns with
    | build hholds =>
        -- All files can be opened, so the final `NULL` is written.
        have hmem := (buildWrites_holds hholds fun _ => true).2 fun _ => rfl
        have hlt := hfit _ _ _ hcall _ hmem
        simp only [maxArgsCnt] at hlt
        omega
    | child _ hbuiltin hne | shell _ hbuiltin hne =>
        exact absurd (hbuiltin.symm.trans hnormal) hne
  · intro hfit
    rcases h.command with rfl | ⟨segments, bg, hcommand⟩
    · exact ⟨[], rfl, fun _ _ _ hcall => by cases hcall⟩
    · obtain ⟨calls, hcalls, hall⟩ := helperCalls_command hcommand
      refine ⟨calls, hcalls, fun openOk start stop hcall i hi => ?_⟩
      rcases hall with ⟨-, rfl⟩ | ⟨hlength, hall⟩
      · cases hcall
      · obtain ⟨s, hs, hruns⟩ := exists_partner hall.flip hcall
        generalize hbuild : Call.build start stop = call at hruns
        cases hruns with
        | @build pos hholds hnormal =>
            obtain ⟨rfl, rfl⟩ := Call.build.inj hbuild
            have hle := (buildWrites_holds hholds openOk).1 i hi
            have hargc := hfit segments bg hcommand hlength s hs hnormal
            simp only [maxArgsCnt]
            omega
        | child | shell => cases hbuild

/-- A line of 64 words. -/
def words64 : List UInt8 := (List.replicate 64 [97, 32]).flatten

/-- A line of 64 words is accepted. It has fewer characters than the longest line, and no
redirection. -/
theorem accepted_words64 : Accepted (fun _ => true) words64 (List.replicate 64 (.word [97])) where
  length_lt := by decide +kernel
  lexed := by decide +kernel
  checked := by decide +kernel

/-- The final `NULL` is written behind the array. -/
theorem not_writesFit_replicate : ¬ WritesFit (List.replicate 64 (.word [97])) := by
  rintro ⟨calls, hcalls, hfit⟩
  have hbuild : helperCalls (List.replicate 64 (.word [97])) = .ok [.build 0 64] := by
    decide +kernel
  obtain rfl : calls = [.build 0 64] := Except.ok.inj (hcalls.symm.trans hbuild)
  have hmem : 64 ∈ buildWrites (fun _ => true) (List.replicate 64 (.word [97])) 0 64 := by
    decide +kernel
  exact absurd (hfit _ 0 64 List.mem_cons_self 64 hmem) (by decide)

/-- The 64 words need an array with 65 entries, as a `NULL` comes behind them. -/
theorem writesFit_iff_argsFit_words64 : ¬ ArgsFit (List.replicate 64 (.word [97])) :=
  (writesFit_iff_argsFit _ _ _ accepted_words64).not.mp not_writesFit_replicate

/-- So not every accepted line fits into the array of the arguments. -/
theorem not_writesFit : ¬ ∀ mem line oTokens, Accepted mem line oTokens → WritesFit oTokens :=
  fun h => not_writesFit_replicate (h _ _ _ accepted_words64)

end SysProg.Shell
