import SysProg.Proofs.Shell.Calls

/-!
# `SysProg.Proofs.Shell.Builtin`: the argument of `chdir`

The count of the tokens is 2 for `cd` and one word, and for `cd &` when the whole line is passed.

* `executeBuiltinPartial_holds`: `cd` with the bounds of its segment.
* `dirsAssigned_iff`: when the variable `dir` always has a value.
-/

set_option autoImplicit false

namespace SysProg.Shell

variable {oTokens : List Token} {s : Segment} {b : Nat × Nat} {call : Call}
  {home : Option (List UInt8)} {chdirOk : Option (List UInt8) → Bool} {inChild : Bool}

/-- `"cd"`. -/
def cdWord : List UInt8 := [99, 100]

/-- Only the word `cd` is the builtin `cd`. -/
theorem checkBuiltin_cd {w : List UInt8} (h : checkBuiltin (.word w) = .cd) : w = cdWord := by
  by_contra hne
  have hcd : ¬ w = [99, 100] := hne
  rw [checkBuiltin, if_neg hcd] at h
  by_cases hexit : w = [101, 120, 105, 116]
  · rw [if_pos hexit] at h
    cases h
  · rw [if_neg hexit] at h
    cases h

@[simp] theorem chdirRun_chdir (dir : Option (List UInt8)) :
    (chdirRun chdirOk dir).chdir = some dir := by
  unfold chdirRun
  split <;> rfl

/-- A segment of two tokens is a command and one word. -/
theorem Segment.tokens_two (h : s.tokens.length = 2) :
    ∃ w, s.tokens = [.word s.command, .word w] := by
  obtain ⟨command, items⟩ := s
  cases items with
  | nil => simp [Segment.tokens] at h
  | cons item items =>
      cases item with
      | word w =>
          cases items with
          | nil => exact ⟨w, rfl⟩
          | cons item items => cases item <;> simp [Segment.tokens, Item.tokens] at h
      | redin w | redout w => simp [Segment.tokens, Item.tokens] at h

/-- `cd` with the bounds of its own segment. The directory is the home, or the word behind `cd` in
the same segment. -/
theorem executeBuiltinPartial_holds (h : Holds oTokens b s) (hcd : s.command = cdWord) :
    ∃ run, executeBuiltinPartial home chdirOk oTokens b.1 b.2 .cd inChild = .ok run ∧
      ∀ dir, run.chdir = some dir → ∃ value, dir = some value ∧
        (home = some value ∨ commandWords none (tokensBetween oTokens b) = [cdWord, value]) := by
  have htokens := h.tokensBetween_eq
  obtain ⟨u, post, rfl, rfl⟩ := h
  rw [htokens]
  unfold executeBuiltinPartial
  simp only [Nat.add_sub_cancel_left]
  by_cases hone : s.tokens.length = 1
  · rw [if_pos hone]
    cases home with
    | none => exact ⟨_, rfl, fun dir hdir => by cases hdir⟩
    | some value =>
        refine ⟨_, rfl, fun dir hdir => ⟨value, ?_, Or.inl rfl⟩⟩
        rw [chdirRun_chdir] at hdir
        exact (Option.some.inj hdir).symm
  · rw [if_neg hone]
    by_cases htwo : s.tokens.length = 2
    · obtain ⟨w, hw⟩ := Segment.tokens_two htwo
      have hget : dynarrayGet (u ++ (s.tokens ++ post)) (u.length + 1) = .ok (.word w) := by
        have hget := dynarrayGet_append (u ++ [.word s.command]) (.word w) post
        rw [List.length_append, List.length_singleton, List.append_assoc] at hget
        rw [hw]
        exact hget
      rw [if_pos htwo, hget]
      refine ⟨_, rfl, fun dir hdir => ⟨w, ?_, Or.inr ?_⟩⟩
      · rw [chdirRun_chdir] at hdir
        exact (Option.some.inj hdir).symm
      · rw [hw, hcd]
        rfl
    · rw [if_neg htwo]
      exact ⟨_, rfl, fun dir hdir => by cases hdir⟩

/-- The `&` counts as an argument, so that there are too many, unless `cd` stands alone. -/
theorem executeBuiltinPartial_background (hcd : s.command = cdWord)
    (hne : s.tokens ++ [.bg] ≠ [.word cdWord, .bg]) :
    executeBuiltinPartial home chdirOk (s.tokens ++ [.bg]) 0 (s.tokens ++ [Token.bg]).length .cd
        inChild
      = .ok (refused "cd: Too many parameters") := by
  have hlength : s.tokens.length = (s.items.flatMap Item.tokens).length + 1 := by
    rw [Segment.tokens, List.length_cons]
  have hitems : s.items.flatMap Item.tokens ≠ [] := by
    intro hnil
    apply hne
    rw [Segment.tokens, hnil, hcd]
    rfl
  have hpos := List.length_pos_iff.mpr hitems
  unfold executeBuiltinPartial
  rw [List.length_append, List.length_singleton, Nat.sub_zero]
  dsimp only
  rw [if_neg (by omega), if_neg (by omega)]

/-- The line `cd &` comes to `chdir` without an argument. -/
theorem not_dirsAssigned_background : ¬ DirsAssigned [.word cdWord, .bg] := by
  rintro ⟨calls, hcalls, hdirs⟩
  have hbuild : helperCalls [.word cdWord, .bg] = .ok [.builtin .cd 0 2 false] := by decide
  obtain rfl : calls = [.builtin .cd 0 2 false] := Except.ok.inj (hcalls.symm.trans hbuild)
  obtain ⟨run, hrun, hdir⟩ := hdirs none (fun _ => true) 0 2 false List.mem_cons_self
  obtain rfl : run = ⟨some none, none, .ret 0⟩ := (Except.ok.inj hrun).symm
  obtain ⟨value, hvalue, -⟩ := hdir none rfl
  cases hvalue

/-- The variable `dir` has a value at each `chdir`, unless the line is `cd &`. -/
theorem dirsAssigned_iff (oTokens : List Token) (h : syntaxCheck oTokens = .success) :
    DirsAssigned oTokens ↔ oTokens ≠ [.word cdWord, .bg] := by
  constructor
  · rintro hdirs rfl
    exact not_dirsAssigned_background hdirs
  · intro hne
    rcases syntaxCheck_success_iff.mp h with rfl | ⟨segments, bg, hcommand⟩
    · exact ⟨[], rfl, fun _ _ _ _ _ hcall => by cases hcall⟩
    · obtain ⟨calls, hcalls, hall⟩ := helperCalls_command hcommand
      refine ⟨calls, hcalls, fun home chdirOk start stop inChild hcall => ?_⟩
      rcases hall with ⟨-, rfl⟩ | ⟨-, hall⟩
      · cases hcall
      · obtain ⟨s, -, hruns⟩ := exists_partner hall.flip hcall
        generalize hbuiltin : Call.builtin .cd start stop inChild = call at hruns
        cases hruns with
        | build => cases hbuiltin
        | child hholds hcd =>
            obtain ⟨rfl, rfl, rfl, rfl⟩ := Call.builtin.inj hbuiltin
            exact executeBuiltinPartial_holds hholds (checkBuiltin_cd hcd)
        | @shell isBackground _ htokens hcd =>
            obtain ⟨rfl, rfl, rfl, rfl⟩ := Call.builtin.inj hbuiltin
            have hword := checkBuiltin_cd hcd
            cases isBackground with
            | false =>
                have hholds : Holds oTokens (0, oTokens.length) s :=
                  ⟨[], [], by rw [htokens]; rfl, by rw [htokens]; simp [background]⟩
                exact executeBuiltinPartial_holds hholds hword
            | true =>
                obtain rfl : oTokens = s.tokens ++ [.bg] := htokens
                exact ⟨_, executeBuiltinPartial_background hword hne,
                  fun dir hdir => by cases hdir⟩

/-- `cd /tmp` comes to `chdir`, and the argument is `/tmp`. `cd /tmp &` is refused before that. -/
theorem dirsAssigned_iff_argument :
    DirsAssigned [.word cdWord, .word [47, 116, 109, 112]] ∧
      helperCalls [.word cdWord, .word [47, 116, 109, 112]] = .ok [.builtin .cd 0 2 false] ∧
      executeBuiltinPartial none (fun _ => true) [.word cdWord, .word [47, 116, 109, 112]] 0 2 .cd
        false = .ok ⟨some (some [47, 116, 109, 112]), none, .ret 0⟩ ∧
      DirsAssigned [.word cdWord, .word [47, 116, 109, 112], .bg] :=
  ⟨(dirsAssigned_iff _ (by decide)).mpr (by decide), by decide, rfl,
    (dirsAssigned_iff _ (by decide)).mpr (by decide)⟩

/-- `cd &` passes the syntax check, and `chdir` is called with a variable that has no value. -/
theorem not_dirsAssigned : ¬ ∀ oTokens, syntaxCheck oTokens = .success → DirsAssigned oTokens :=
  fun h => not_dirsAssigned_background (h _ (by decide))

end SysProg.Shell
