import SysProg.Proofs.Shell.Barrier

/-!
# `SysProg.Proofs.Shell.FailedStart`: a pipeline that fails to start

The failure exits close `sync_pipe`. This is what the children of the stages in front wait for: they
go on to their commands, and no job knows them.

* `not_leavesNothing`: a failure behind the first stage.
* `leavesNothing_iff`: only a failure at the first stage leaves nothing behind.
-/

set_option autoImplicit false

namespace SysProg.Shell

open Lib

variable {pattern : Pattern} {nCmd i : Nat} {entry : Table} {prog : Prog StartEvent}
  {s : Processes StartEvent}

/-- Behind the first stage there are children, and they run. The parent closes `sync_pipe` without
`add_job`, so the children pass their barrier, and in a run to the end they come to their commands.
-/
theorem not_leavesNothing (hstarts : Starts prog nCmd) (hentry : StdTable entry)
    (hfinite : entry.Finite) (hfails : FailsAt pattern nCmd i) (hi : i ≠ 0) :
    ¬ LeavesNothing pattern prog entry := by
  intro hnothing
  obtain ⟨s, hrun, hstuck⟩ := exists_final pattern (.init prog entry)
  have hdone := hstarts.all_done hentry hfinite hrun hstuck
  obtain ⟨hcount, -⟩ := hstarts.family hentry hrun
  have hzero : 0 < s.count := by omega
  have hshell := hstarts.spec hentry hrun hzero (hdone 0 hzero)
  obtain ⟨value, -, hret⟩ := hshell.2.1 rfl
  obtain ⟨-, -, hlength⟩ := hret.failed hstarts.le_maxProcPerJob i hfails
  have hchild : 1 < s.count := by omega
  have hspec := hstarts.spec hentry hrun hchild (hdone 1 hchild)
  obtain ⟨k, hk⟩ := hspec.2.2 Nat.one_pos
  exact (hnothing s hrun).1 1 k hchild hk

/-- With a failure at the first stage there is no child. The `pipe` or the `fork` of this stage
fails, and behind it the parent makes no other process. -/
theorem count_of_failsAt (hstarts : Starts prog nCmd) (hentry : StdTable entry)
    (hfails : FailsAt pattern nCmd 0) (hrun : Reachable pattern (.init prog entry) s) :
    s.count = 1 := by
  induction hrun with
  | refl => rfl
  | @tail s s' hrun hstep ih =>
      rcases hstep.family with ⟨hsame, -⟩ | ⟨j, hj, hop, hok, -, -⟩
      · rw [hsame, ih]
      · -- The fork of the first stage succeeds, and its pipe has been made.
        obtain ⟨hcount, -⟩ := hstarts.family hentry hrun
        have hspec := hstarts.spec hentry hrun hj rfl
        rw [hop] at hspec
        obtain ⟨rfl, -, hforks, hpipe⟩ := hspec
        have hnil : (s.proc 0).locals.children.length = 0 := by omega
        rw [hforks, hnil] at hok
        rw [hnil] at hpipe
        exact absurd ⟨hpipe, hok⟩ hfails.fails

/-- A pipeline whose first failure is at the stage `i` returns -1, and it leaves nothing behind if
and only if this is the first stage. -/
theorem leavesNothing_iff (nPipe : Nat) (isBackground : Bool) (jobId : Int) (hpos : 1 ≤ nPipe)
    (hle : nPipe + 1 ≤ maxProcPerJob) (entry : Table) (hentry : StdTable entry)
    (hfinite : entry.Finite) (pattern : Pattern) (i : Nat)
    (hfails : FailsAt pattern (nPipe + 1) i) :
    (∀ s j value next,
        Reachable pattern (.init (iterPipeForkExec nPipe isBackground jobId) entry) s →
        j < s.count → (s.proc j).prog = .emit (.ret value) next → value = -1) ∧
      (LeavesNothing pattern (iterPipeForkExec nPipe isBackground jobId) entry ↔ i = 0) := by
  have hstarts := Starts.pipeline nPipe isBackground jobId hpos hle
  refine ⟨fun s j value next hrun hj hprog => ?_, ?_, ?_⟩
  · have hspec := hstarts.spec hentry hrun hj hprog
    exact (hspec.2.failed hle i hfails).1
  · intro hnothing
    by_contra hi
    exact not_leavesNothing hstarts hentry hfinite hfails hi hnothing
  · rintro rfl s hrun
    have hcount := count_of_failsAt hstarts hentry hfails hrun
    refine ⟨fun j k hj hmem => ?_, fun value _ j hj hlt => absurd hlt (by omega)⟩
    obtain rfl : j = 0 := by omega
    have hinv := hstarts.atBarrier hentry hrun hj
    have heof := hinv.ran k hmem
    rw [hinv.parent rfl] at heof
    exact absurd heof List.not_mem_nil

/-- No `fork` succeeds. -/
def noFork : Pattern := ⟨fun _ _ => true, fun _ _ => false⟩

/-- A pipeline of two commands whose first `fork` fails. No child is made, so nothing is left
behind. -/
theorem leavesNothing_iff_noFork : LeavesNothing noFork (iterPipeForkExec 1 false 1) stdEntry :=
  (leavesNothing_iff 1 false 1 (by decide) (by decide) stdEntry stdTable_stdEntry finite_stdEntry
    noFork 0 ⟨by decide, rfl, fun k hk => absurd hk k.not_lt_zero,
      fun h => absurd h.2 (by decide)⟩).2.mpr rfl

/-- The first call that fails in `oneFork` is the `fork` of the second stage. Both pipes are there,
and the first `fork` succeeds. -/
theorem failsAt_oneFork : FailsAt oneFork 2 1 where
  lt := by decide
  sync := rfl
  before k hk := by
    obtain rfl : k = 0 := Nat.lt_one_iff.mp hk
    exact ⟨fun _ => rfl, rfl⟩
  fails h := absurd h.2 (by decide)

/-- Not every failed start leaves nothing behind. With `oneFork` the child of the first stage is
there, it is not in the job table, and it comes to its command. -/
theorem not_leavesNothing_oneFork :
    ¬ ∀ pattern nPipe isBackground jobId entry i, 1 ≤ nPipe → nPipe + 1 ≤ maxProcPerJob →
      StdTable entry → entry.Finite → FailsAt pattern (nPipe + 1) i →
      LeavesNothing pattern (iterPipeForkExec nPipe isBackground jobId) entry := by
  intro h
  have hstarts := Starts.pipeline 1 false 1 (by decide) (by decide)
  exact not_leavesNothing hstarts stdTable_stdEntry finite_stdEntry failsAt_oneFork (by decide)
    (h oneFork 1 false 1 stdEntry 1 (by decide) (by decide) stdTable_stdEntry finite_stdEntry
      failsAt_oneFork)

end SysProg.Shell
