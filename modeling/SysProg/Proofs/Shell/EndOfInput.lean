import SysProg.Shell.EndOfInput

/-!
# `SysProg.Proofs.Shell.EndOfInput`: when the end of the input ends the shell

* `errno_eq`: in each run `errno` is the value of the last call that has failed.
* `exitsAtEnd_iff`: the end of the input ends the shell unless that call was interrupted.
* `step_snush`: an action is one of `Snush`, apart from a `fork` that fails.
-/

set_option autoImplicit false

namespace SysProg.Shell

open SysProg.Lib

namespace Main

variable {s s' : Main} {a : MainAction} {as : List MainAction} {es h : List Nat}

/-- An action of `Snush` keeps its meaning. -/
theorem step_shell {a : ShellAction} (hstep : s.step (.shell a) = some (s', es)) :
    ∃ ps, s.shell.step a = some (s'.shell, ps) ∧ es = (failure s.shell a).toList ∧
      s'.errno = (failure s.shell a).getD s.errno := by
  have hsome : ((s.shell.step a).map fun r => ((⟨r.1, (failure s.shell a).getD s.errno⟩ : Main),
      (failure s.shell a).toList)) = some (s', es) := by
    cases a with
    | endOfFile | interrupted => exact absurd hstep (by simp [step])
    | _ => exact hstep
  obtain ⟨r, hr, heq⟩ := Option.map_eq_some_iff.mp hsome
  obtain ⟨rfl, rfl⟩ := Prod.mk.inj heq
  exact ⟨r.2, hr, rfl, rfl⟩

/-- A step sets `errno` when a call fails in it. No other step changes it, so the value is that of
the last call that failed. -/
theorem step_errno (hstep : s.step a = some (s', es)) :
    es = [] ∧ s'.errno = s.errno ∨ ∃ e, es = [e] ∧ s'.errno = e := by
  cases a with
  | shell a =>
      obtain ⟨ps, -, hes, herrno⟩ := step_shell hstep
      cases hfailure : failure s.shell a with
      | none => exact Or.inl ⟨by rw [hes, hfailure]; rfl, by rw [herrno, hfailure]; rfl⟩
      | some e => exact Or.inr ⟨e, by rw [hes, hfailure]; rfl, by rw [herrno, hfailure]; rfl⟩
  | endOfFile =>
      obtain ⟨hnull, rfl⟩ := silent_eq_some hstep
      obtain ⟨r, -, rfl⟩ := Option.map_eq_some_iff.mp hnull
      exact Or.inl ⟨rfl, rfl⟩
  | readFails e =>
      obtain ⟨t, hnull, heq⟩ := Option.map_eq_some_iff.mp hstep
      cases heq
      obtain ⟨r, -, rfl⟩ := Option.map_eq_some_iff.mp hnull
      exact Or.inr ⟨e, rfl, rfl⟩
  | startFails e =>
      simp only [step] at hstep
      split at hstep
      · cases hstep
        exact Or.inr ⟨e, rfl, rfl⟩
      · cases hstep
  | callFails e =>
      cases hstep
      exact Or.inr ⟨e, rfl, rfl⟩

/-- In each run `errno` is the value of the last call that has failed, and `0` before one has. -/
theorem errno_eq (hrun : run step init as = some (s, h)) : s.errno = h.getLastD 0 := by
  refine run_induction (I := fun s h => s.errno = h.getLastD 0) (P := fun _ => True) rfl
    (fun s h a s' es hinv _ _ hstep => ?_) as (fun _ _ => trivial) s h hrun
  rcases step_errno hstep with ⟨rfl, herrno⟩ | ⟨e, rfl, herrno⟩
  · rw [List.append_nil, herrno, hinv]
  · rw [herrno]
    simp

/-- At the prompt the end of the input ends the shell unless `errno` is `EINTR`. -/
theorem exitsAtEnd_iff_errno (hpc : s.shell.pc = .prompt) :
    s.ExitsAtEnd ↔ s.errno ≠ eintr := by
  unfold ExitsAtEnd
  simp only [step, nullLine, Snush.step, hpc, if_true]
  by_cases herrno : s.errno = eintr
  · simp [herrno]
  · simp [herrno]

/-- At the prompt the end of the input ends the shell if and only if the last call that has failed
in the whole run was not interrupted by a signal. -/
theorem exitsAtEnd_iff (as : List MainAction) (s : Main) (h : List Nat)
    (hrun : run step init as = some (s, h)) (hpc : s.shell.pc = .prompt) :
    s.ExitsAtEnd ↔ ¬LastFailed eintr h := by
  rw [exitsAtEnd_iff_errno hpc, errno_eq hrun, LastFailed, List.getLastD_eq_getLast?]
  cases h.getLast? with
  | none => simp [eintr]
  | some e => simp

/-- Ctrl-C at the prompt, and then the end of the input: the shell goes on. -/
theorem not_exitsAtEnd : ∃ as s h, run step init as = some (s, h) ∧ s.shell.pc = .prompt ∧
    h = [eintr] ∧ ¬s.ExitsAtEnd := by
  have hrun : (run step init [.shell .advance, .shell .advance, .readFails eintr, .shell .advance,
      .shell .advance]).map (fun r => (r.1.shell.pc, r.1.errno, r.2))
        = some (.prompt, eintr, [eintr]) := by rfl
  obtain ⟨⟨s, h⟩, hrun, heq⟩ := Option.map_eq_some_iff.mp hrun
  obtain ⟨hpc, heq⟩ := Prod.mk.inj heq
  obtain ⟨herrno, hh⟩ := Prod.mk.inj heq
  exact ⟨_, s, h, hrun, hpc, hh, mt (exitsAtEnd_iff_errno hpc).mp (fun hne => hne herrno)⟩

/-- A `chdir` that fails after Ctrl-C lets the end of the input end the shell again. -/
theorem exitsAtEnd_iff_chdir : ∃ as s h, run step init as = some (s, h) ∧ h = [eintr, 2] ∧
    s.ExitsAtEnd := by
  have hrun : (run step init [.shell .advance, .shell .advance, .readFails eintr, .callFails 2,
      .shell .advance, .shell .advance]).map (fun r => (r.1.shell.pc, r.2))
        = some (.prompt, [eintr, 2]) := by rfl
  obtain ⟨⟨s, h⟩, hrun, heq⟩ := Option.map_eq_some_iff.mp hrun
  obtain ⟨hpc, hh⟩ := Prod.mk.inj heq
  refine ⟨_, s, h, hrun, hh, (exitsAtEnd_iff _ s h hrun hpc).mpr ?_⟩
  rw [LastFailed, show h = [eintr, 2] from hh]
  decide

/-! ### The loop at the end of the input -/

/-- With `EINTR` in `errno` and no job to look at, the shell is at the prompt again after the end of
the input, in the same state. -/
theorem loops_at_endOfFile (hpc : s.shell.pc = .prompt) (herrno : s.errno = eintr)
    (hflag : s.shell.sigchldFlag = false) (hdone : s.shell.manager.done = []) :
    run step s [.endOfFile, .shell .advance, .shell .advance] = some (s, []) := by
  obtain ⟨⟨⟨nJobs, jobs, done, added⟩, pc, flag, pending, children⟩, errno⟩ := s
  simp only at hpc herrno hflag hdone
  subst hpc herrno hflag hdone
  rfl

/-- An action is one of `Snush`, apart from a call that fails. -/
theorem step_snush (hstep : s.step a = some (s', es)) :
    s'.shell = s.shell ∨ (∃ b ps, s.shell.step b = some (s'.shell, ps)) ∨
      ∃ e, a = .startFails e := by
  cases a with
  | shell a =>
      obtain ⟨ps, hshell, -, -⟩ := step_shell hstep
      exact Or.inr (Or.inl ⟨a, ps, hshell⟩)
  | endOfFile | readFails e =>
      obtain ⟨t, hnull, heq⟩ := Option.map_eq_some_iff.mp hstep
      cases heq
      obtain ⟨r, hr, rfl⟩ := Option.map_eq_some_iff.mp hnull
      exact Or.inr (Or.inl ⟨_, r.2, hr⟩)
  | startFails e => exact Or.inr (Or.inr ⟨e, rfl⟩)
  | callFails e =>
      cases hstep
      exact Or.inl rfl

end Main

end SysProg.Shell
