import SysProg.Lib.Barrier
import SysProg.Proofs.Shell.Pipeline

/-!
# `SysProg.Proofs.Shell.Barrier`: no stage runs before its job is registered

The pipe `sync_pipe` is a barrier: a child reads the end of the file when nobody has the write end.
The parent has it until `add_job` is done, and a child closes its own one in front of the barrier.

* `kept_barrier`: what each operation keeps of one process.
* `jobAdded_of_passed`: a child behind the barrier has a job.
* `barrier_sound`: all together, for every interleaving.
-/

set_option autoImplicit false

namespace SysProg.Shell

open Lib Lib.Table

variable {pattern : Pattern} {nCmd i : Nat} {entry : Table} {l : Local StartEvent}
  {prog : Prog StartEvent} {s s' : Processes StartEvent}

/-- The invariant of one process. -/
structure AtBarrier (pattern : Pattern) (i : Nat) (l : Local StartEvent) : Prop where
  childless : 0 < i → l.children = []
  parent : i = 0 → l.eofs = []
  passed : syncPipe ∈ l.eofs → ¬ l.HasWriter syncPipe
  ran : ∀ k, .run k ∈ l.events → syncPipe ∈ l.eofs
  guard : i = 0 → AllSucceed pattern → JobAdded l ∨ l.children = [] ∨ l.HasWriter syncPipe

/-- A process at its start. It has made no child, it has seen no end of a file, and it has not come
to a command. -/
theorem atBarrier_start (child : Nat) (table : Table) : AtBarrier pattern child (.start table) where
  childless _ := rfl
  parent _ := rfl
  passed h := absurd h List.not_mem_nil
  ran _ h := absurd h List.not_mem_nil
  guard _ _ := Or.inr (Or.inl rfl)

/-- Closing does not give a process the write end. If it holds the end behind a `close`, it held it
before. -/
theorem hasWriter_of_close {fd : Nat} {a : PipeId} (h : (l.close fd).HasWriter a) :
    l.HasWriter a := by
  obtain ⟨fd', hfd'⟩ := h
  cases he : l.table fd with
  | none =>
      rw [Local.close, he] at hfd'
      exact ⟨fd', hfd'⟩
  | some e =>
      rw [Local.close_eq he] at hfd'
      by_cases heq : fd' = fd
      · rw [heq] at hfd'
        exact absurd hfd' (by simp)
      · exact ⟨fd', (set_of_ne l.table none heq).symm.trans hfd'⟩

/-- Each operation of the shell and its children keeps the invariant. The one that matters is the
`close` of the write end by the shell: if all calls succeed, it comes behind `add_job`. -/
theorem kept_barrier (pattern : Pattern) (nCmd : Nat) (entry : Table) :
    Kept (startSpec pattern nCmd entry) (AtBarrier pattern) where
  emit i l e hspec h := by
    refine ⟨h.childless, h.parent, h.passed, fun k hk => ?_, fun hi hall => ?_⟩
    · rcases List.mem_append.mp hk with hk | hk
      · exact h.ran k hk
      · obtain rfl : e = .run k := (List.mem_singleton.mp hk).symm
        exact hspec.2.2.2
    · rcases h.guard hi hall with ⟨pgid, pids, bg, hmem⟩ | hguard
      · exact Or.inl ⟨pgid, pids, bg, List.mem_append_left _ hmem⟩
      · exact Or.inr hguard
  openPipe i l r w hspec hr hw h := by
    have hi : i = 0 := hspec
    refine ⟨h.childless, h.parent, fun hmem => ?_, h.ran, fun _ hall => ?_⟩
    · exact absurd hmem (by rw [show (l.openPipe i r w).eofs = [] from h.parent hi]; simp)
    · rcases h.guard hi hall with hadded | hnil | ⟨fd, hfd⟩
      · exact Or.inl hadded
      · exact Or.inr (Or.inl hnil)
      · have hne {x : Nat} (hx : l.table x = none) : fd ≠ x := by
          rintro rfl
          rw [hx] at hfd
          cases hfd
        exact Or.inr (Or.inr ⟨fd, (withPipe_of_ne (hne hr) (hne hw) l.table _).trans hfd⟩)
  failPipe i l _ h := ⟨h.childless, h.parent, h.passed, h.ran, h.guard⟩
  fork i l child hspec h := by
    obtain ⟨rfl, hwriter, -⟩ := hspec
    exact ⟨fun h => absurd h (Nat.lt_irrefl 0), h.parent, h.passed, h.ran,
      fun _ _ => Or.inr (Or.inr hwriter)⟩
  start i l child _ _ _ := atBarrier_start child l.table
  failFork i l _ h := ⟨h.childless, h.parent, h.passed, h.ran, h.guard⟩
  close i l fd hspec h := by
    obtain ⟨e, he, hsync⟩ := hspec
    have hclose := Local.close_eq he
    refine ⟨fun hi => ?_, fun hi => ?_, fun hmem hwriter => ?_, fun k hk => ?_, fun hi hall => ?_⟩
    · rw [hclose]
      exact h.childless hi
    · rw [hclose]
      exact h.parent hi
    · rw [hclose] at hmem
      exact h.passed hmem (hasWriter_of_close hwriter)
    · rw [hclose] at hk ⊢
      exact h.ran k hk
    · rw [hclose]
      rcases h.guard hi hall with hadded | hnil | ⟨fd', hfd'⟩
      · exact Or.inl hadded
      · exact Or.inr (Or.inl hnil)
      · by_cases heq : fd' = fd
        · -- The write end itself is closed.
          rw [heq, he] at hfd'
          exact Or.inl ((hsync hi (Option.some.inj hfd')).resolve_right fun hnot => hnot hall)
        · exact Or.inr (Or.inr ⟨fd', (set_of_ne l.table none heq).trans hfd'⟩)
  dup2 i l old new hspec h := by
    have hi : 0 < i := hspec
    refine ⟨h.childless, h.parent, fun hmem hwriter => h.passed hmem ?_, h.ran,
      fun hzero => absurd hzero (Nat.ne_of_gt hi)⟩
    obtain ⟨fd, hfd⟩ := hwriter
    by_cases heq : fd = new
    · rw [heq] at hfd
      exact ⟨old, (set_self l.table new (l.table old)).symm.trans hfd⟩
    · exact ⟨fd, (set_of_ne l.table _ heq).symm.trans hfd⟩
  exit i l old new hspec h := by
    have hi : 0 < i := hspec
    refine ⟨h.childless, h.parent, fun _ hwriter => ?_, h.ran,
      fun hzero => absurd hzero (Nat.ne_of_gt hi)⟩
    obtain ⟨fd, hfd⟩ := hwriter
    cases hfd
  readEof i l fd p hspec hp h := by
    obtain ⟨hi, hfd, hnone⟩ := hspec
    obtain rfl : syncPipe = p := End.reader.inj (Option.some.inj (hfd.symm.trans hp))
    exact ⟨h.childless, fun hzero => absurd hzero (Nat.ne_of_gt hi), fun _ => hnone,
      fun k hk => List.mem_append_left _ (h.ran k hk),
      fun hzero => absurd hzero (Nat.ne_of_gt hi)⟩

/-- The specification at each operation, in each run. The programs meet it, and meeting it is kept
by the steps. -/
theorem Starts.spec (hstarts : Starts prog nCmd) (hentry : StdTable entry)
    (hrun : Reachable pattern (.init prog entry) s) (hi : i < s.count) {next : Prog StartEvent}
    (hnext : (s.proc i).prog = next) :
    startSpec pattern nCmd entry i (s.proc i).locals next.op :=
  hnext ▸ (meets_reachable hrun (hstarts.meets hentry) i hi).op

/-- Every process of every run has the invariant. The specification holds at each operation, so
`kept_barrier` applies to each step. -/
theorem Starts.atBarrier (hstarts : Starts prog nCmd) (hentry : StdTable entry)
    (hrun : Reachable pattern (.init prog entry) s) (hi : i < s.count) :
    AtBarrier pattern i (s.proc i).locals :=
  (kept_barrier pattern nCmd entry).reachable hrun
    (fun _ hs _ hj => hstarts.spec hentry hs hj rfl) (atBarrier_start 0 entry) i hi

/-- All processes but the shell are its children. A child has no `fork` in its program, so the shell
has made each of them. -/
theorem Starts.family (hstarts : Starts prog nCmd) (hentry : StdTable entry)
    (hrun : Reachable pattern (.init prog entry) s) :
    s.count = (s.proc 0).locals.children.length + 1 ∧
      ∀ j, 0 < j → j < s.count → j ∈ (s.proc 0).locals.children := by
  induction hrun with
  | refl => exact ⟨rfl, fun j hpos hj => absurd hj (Nat.not_lt.mpr hpos)⟩
  | @tail s s' hrun hstep ih =>
      obtain ⟨hcount, hmem⟩ := ih
      rcases hstep.family with ⟨hsame, hchildren⟩ | ⟨j, hj, hop, -, hnew, hchildren⟩
      · rw [hsame, hchildren]
        exact ⟨hcount, hmem⟩
      · -- It is the shell that forks.
        have hspec := hstarts.spec hentry hrun hj rfl
        rw [hop] at hspec
        obtain ⟨rfl, -⟩ := hspec
        rw [hnew, hchildren 0 hj, if_pos rfl]
        refine ⟨by rw [List.length_append, List.length_singleton, ← hcount], fun k hpos hk => ?_⟩
        rcases Nat.lt_succ_iff_lt_or_eq.mp hk with hk | rfl
        · exact List.mem_append_left _ (hmem k hpos hk)
        · exact List.mem_append_right _ List.mem_cons_self

/-- A child behind the barrier has a job. It has seen the end of `sync_pipe`, so the shell held no
write end at that moment, and it gives it up only behind `add_job`. -/
theorem Starts.jobAdded_of_passed (hstarts : Starts prog nCmd) (hentry : StdTable entry)
    (hall : AllSucceed pattern) (hrun : Reachable pattern (.init prog entry) s) :
    ∀ j, j < s.count → syncPipe ∈ (s.proc j).locals.eofs → JobAdded (s.proc 0).locals := by
  induction hrun with
  | refl => exact fun j _ hmem => absurd hmem List.not_mem_nil
  | @tail s s' hrun hstep ih =>
      intro j hj hmem
      obtain ⟨hjs, hpassed⟩ := hstep.eofs hj hmem
      obtain ⟨hcount, -⟩ := hstarts.family hentry hrun
      have hzero : 0 < s.count := by omega
      -- The barrier has fallen in the state before the step, or the child was behind it.
      have hadded : JobAdded (s.proc 0).locals := by
        rcases hpassed with hpassed | hnone
        · exact ih j hjs hpassed
        · rcases (hstarts.atBarrier hentry hrun hzero).guard rfl hall with hadded | hnil | hwriter
          · exact hadded
          · have hne : j ≠ 0 := by
              rintro rfl
              have hparent := (hstarts.atBarrier hentry (hrun.tail hstep) hj).parent rfl
              rw [hparent] at hmem
              exact absurd hmem List.not_mem_nil
            rw [hnil, List.length_nil] at hcount
            omega
          · exact absurd hwriter (hnone 0 hzero)
      obtain ⟨pgid, pids, bg, hevent⟩ := hadded
      exact ⟨pgid, pids, bg, (hstep.events hzero).subset hevent⟩

/-- When no step is left, all processes are done. A child that waits at the barrier would have a
step, as the last write end is closed by then. -/
theorem Starts.all_done (hstarts : Starts prog nCmd) (hentry : StdTable entry)
    (hfinite : entry.Finite) (hrun : Reachable pattern (.init prog entry) s)
    (hstuck : ∀ s', ¬ Step pattern s s') : ∀ j, j < s.count → (s.proc j).prog = .done := by
  refine all_done_of_stuck (p := syncPipe) (finite_reachable hrun hfinite)
    (fun j hj fd next hprog => ?_) (fun j hj hprog => ?_) hstuck
  · have hspec := hstarts.spec hentry hrun hj hprog
    exact hspec.2
  · have hspec := hstarts.spec hentry hrun hj hprog
    exact hspec.1

/-- A job has at most as many processes as its entry in the table has room for. A single command is
one process, and `iter_pipe_fork_exec` counts its commands first. -/
theorem Starts.le_maxProcPerJob (h : Starts prog nCmd) : nCmd ≤ maxProcPerJob := by
  cases h with
  | single => decide
  | pipeline _ _ _ _ hle => exact hle

/-- If all calls succeed, a child passes its barrier only when its job is registered. When the
parent has closed its ends and all children have come to the barrier, each of them can read the end
of the file. No run is infinite, and when no step is left, all children have come to their
commands. -/
theorem barrier_sound (prog : Prog StartEvent) (nCmd : Nat) (hstarts : Starts prog nCmd)
    (entry : Table) (hentry : StdTable entry) (hfinite : entry.Finite) (pattern : Pattern)
    (hall : AllSucceed pattern) (s : Processes StartEvent)
    (hrun : Reachable pattern (.init prog entry) s) :
    (∀ j i, j < s.count → (syncPipe ∈ (s.proc j).locals.eofs ∨ .run i ∈ (s.proc j).locals.events ∨
        ∃ next, (s.proc j).prog = .emit (.run i) next) → JobAdded (s.proc 0).locals) ∧
      ((∀ fd, (s.proc 0).locals.table fd ≠ some (.reader syncPipe) ∧
          (s.proc 0).locals.table fd ≠ some (.writer syncPipe)) →
        (∀ j, 0 < j → j < s.count → (∃ fd next, (s.proc j).prog = .readEof fd next) ∨
          syncPipe ∈ (s.proc j).locals.eofs) →
        ∀ j fd next, j < s.count → (s.proc j).prog = .readEof fd next →
          Step pattern s (s.set j ⟨next, (s.proc j).locals.readEof syncPipe⟩)) ∧
      (∀ run : Nat → Processes StartEvent, run 0 = s → ¬ ∀ t, Step pattern (run t) (run (t + 1))) ∧
      ((∀ s', ¬ Step pattern s s') → s.count = nCmd + 1 ∧
        ∀ j, 0 < j → j < s.count → (s.proc j).prog = .done ∧
          Registered (s.proc 0).locals j ∧ ∃ i, .run i ∈ (s.proc j).locals.events) := by
  refine ⟨fun j i hj hpassed => ?_, fun hclosed hready j fd next hj hprog => ?_,
    fun run _ => not_infinite run, fun hstuck => ?_⟩
  · refine hstarts.jobAdded_of_passed hentry hall hrun j hj ?_
    rcases hpassed with hmem | hran | ⟨next, hprog⟩
    · exact hmem
    · exact (hstarts.atBarrier hentry hrun hj).ran i hran
    · have hspec := hstarts.spec hentry hrun hj hprog
      exact hspec.2.2.2
  · have hnone : s.NoWriter syncPipe := by
      intro k hk
      rcases Nat.eq_zero_or_pos k with rfl | hpos
      · rintro ⟨fd, hfd⟩
        exact (hclosed fd).2 hfd
      · rcases hready k hpos hk with ⟨fd, next, hprog⟩ | hmem
        · have hspec := hstarts.spec hentry hrun hk hprog
          exact hspec.2.2
        · exact (hstarts.atBarrier hentry hrun hk).passed hmem
    have hspec := hstarts.spec hentry hrun hj hprog
    refine Step.readEof hj ?_ hspec.2.1 hnone
    rw [← hprog]
  · have hdone := hstarts.all_done hentry hfinite hrun hstuck
    obtain ⟨hcount, hfamily⟩ := hstarts.family hentry hrun
    have hzero : 0 < s.count := by omega
    have hshell := hstarts.spec hentry hrun hzero (hdone 0 hzero)
    obtain ⟨value, -, hret⟩ := hshell.2.1 rfl
    obtain ⟨hlength, hregistered⟩ := hret.started hstarts.le_maxProcPerJob hall
    refine ⟨by rw [hcount, hlength], fun j hpos hj => ⟨hdone j hj,
      hregistered j (hfamily j hpos hj), ?_⟩⟩
    have hspec := hstarts.spec hentry hrun hj (hdone j hj)
    exact hspec.2.2 hpos

/-- All calls succeed. -/
def allCalls : Pattern := ⟨fun _ _ => true, fun _ _ => true⟩

/-- The pipeline of two commands with the standard descriptors. A run that goes on until no step is
left ends with three processes, and both children have come to their commands. -/
theorem barrier_sound_final :
    ∃ s, Reachable allCalls (.init (iterPipeForkExec 1 false 1) stdEntry) s ∧ s.count = 3 ∧
      ∀ j, 0 < j → j < s.count → ∃ i, .run i ∈ (s.proc j).locals.events := by
  obtain ⟨s, hrun, hstuck⟩ :=
    exists_final allCalls (.init (iterPipeForkExec 1 false 1) stdEntry)
  obtain ⟨hcount, hran⟩ := (barrier_sound _ 2 (.pipeline 1 false 1 (by decide) (by decide)) stdEntry
    stdTable_stdEntry finite_stdEntry allCalls (fun _ _ => ⟨rfl, rfl⟩) s hrun).2.2.2 hstuck
  exact ⟨s, hrun, hcount, fun j hpos hj => (hran j hpos hj).2.2⟩

end SysProg.Shell
