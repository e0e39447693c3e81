import SysProg.Shell.WaitFg
import SysProg.Proofs.Shell.JobTable

/-!
# `SysProg.Proofs.Shell.WaitFg`: Ctrl-C and a foreground job

* `step_snush`: a step is a step of `Snush`, or it is none there.
* `Inv`: the invariant. A `SIGINT` that is not forwarded yet is on its way to `kill`, or it does
  no harm.
* `Inv.step`: one action keeps it, when the `SIGINT` that it delivers is attended to.
* `Inv.neverLost`: no `SIGINT` is lost while it holds.
-/

set_option autoImplicit false

namespace SysProg.Shell

open SysProg.Lib

namespace WaitFg

variable {s s' : WaitFg} {shell : Snush} {a : WaitAction} {es h : List SigintEvent} {pgid : Int}
  {slot : Fin maxJobs}

/-! ### The points -/

/-- What the shell does at a point, as a place of `Snush`. -/
def At (point : Point) (pc : Pc) : Prop :=
  match point with
  | .unblockChld | .unblockInt | .call => ∃ jobId pgid serial, pc = .started false jobId pgid serial
  | .returned => pc = .checkSignals
  | _ => ∃ slot, pc = .waitFg slot

/-- `SIGINT` is blocked. -/
def blocksInt : Point → Bool
  | .unblockChld | .unblockInt | .blockChld | .clear | .kill _ | .allowInt => true
  | _ => false

/-- The shell is about to clear the flag and to look for the jobs. -/
def Handles : Point → Prop
  | .eintr | .blockInt | .blockChld | .clear => True
  | _ => False

/-- The shell is about to send `SIGINT` to the job in the slot. -/
def Settles (slot : Fin maxJobs) : Point → Prop
  | .kill i => i ≤ slot
  | point => Handles point

/-- In front of the loop over the jobs, the one in the slot is still to come. -/
theorem settles_of_handles {point : Point} (h : Handles point) : Settles slot point := by
  cases point <;> first | exact h | exact h.elim

/-! ### The shell -/

/-- The job table and the children go on: the same group is waited for, the foreground jobs stay,
and no child starts. -/
structure Follows (s s' : Snush) : Prop where
  group : s'.waitedGroup = s.waitedGroup
  jobs : ∀ slot pgid, JobAt s.manager slot pgid → JobAt s'.manager slot pgid
  children : ∀ c' ∈ s'.children, ∃ c ∈ s.children,
    c'.pid = c.pid ∧ c'.pgid = c.pgid ∧ (c.exited = true → c'.exited = true)

/-- A step that only changes children keeps their groups, and a child that has exited stays so. -/
theorem Follows.of_children {s s' : Snush} (hpc : s'.pc = s.pc) (hm : s'.manager = s.manager)
    (hchildren : ∀ c' ∈ s'.children, ∃ c ∈ s.children,
      c'.pid = c.pid ∧ c'.pgid = c.pgid ∧ (c.exited = true → c'.exited = true)) :
    Follows s s' := by
  refine ⟨?_, fun slot pgid hjob => hm ▸ hjob, hchildren⟩
  rw [Snush.waitedGroup, Snush.waitedGroup, hpc, hm]

/-- The call of `wait_fg`. -/
theorem follows_advance {s : Snush} {jobId pgid : Int} {serial : Nat} {r : Snush × List Printed}
    (hpc : s.pc = .started false jobId pgid serial) (h : s.advance = some r) :
    r.1.pc = .checkSignals ∨ (∃ slot, r.1.pc = .waitFg slot) ∧ Follows s r.1 := by
  rw [Snush.advance, hpc] at h
  simp only [Bool.false_eq_true, if_false] at h
  cases hfind : s.manager.findJobByJid jobId with
  | none =>
      rw [hfind] at h
      cases h
      exact Or.inl rfl
  | some slot =>
      rw [hfind] at h
      cases h
      refine Or.inr ⟨⟨slot, rfl⟩, ?_, fun _ _ hjob => hjob, fun c hc => ⟨c, hc, rfl, rfl, id⟩⟩
      simp only [Snush.waitedGroup, hpc, hfind, Option.map_some]

/-- A process less in a job. -/
theorem removePidFromJob_keeps (job : Job) (pid : Int) :
    (removePidFromJob job pid).inUse = job.inUse ∧
      (removePidFromJob job pid).state = job.state ∧
      (removePidFromJob job pid).pgid = job.pgid := by
  rw [removePidFromJob]
  split <;> exact ⟨rfl, rfl, rfl⟩

/-- An answer of `waitpid` in `wait_fg`. The wait is over when the job is gone, and goes on for the
same job otherwise. -/
theorem follows_reaped {s s' : Snush} {slot : Fin maxJobs} {pid : Int} (hpc : s.pc = .waitFg slot)
    (h : s.reaped pid = some s') :
    s'.pc = .checkSignals ∨ (∃ slot, s'.pc = .waitFg slot) ∧ Follows s s' := by
  simp only [Snush.reaped, hpc] at h
  obtain ⟨children, htake, rfl⟩ := Option.map_eq_some_iff.mp h
  rw [Snush.takeChild, Option.ite_none_right_eq_some] at htake
  obtain ⟨-, htake⟩ := htake
  obtain ⟨huse, hstate, hpgid⟩ := removePidFromJob_keeps (s.manager.jobs slot) pid
  by_cases hzero : (removePidFromJob (s.manager.jobs slot) pid).remainingProcesses = 0
  · rw [if_pos hzero]
    exact Or.inl rfl
  · rw [if_neg hzero]
    refine Or.inr ⟨⟨slot, rfl⟩, ?_, fun other pgid hjob => ?_, fun c hc => ?_⟩
    · simp only [Snush.waitedGroup, hpc, JobManager.setJob_jobs_self, hpgid]
    · unfold JobAt at hjob ⊢
      by_cases hother : other = slot
      · rw [hother] at hjob ⊢
        rw [JobManager.setJob_jobs_self, huse, hstate, hpgid]
        exact hjob
      · rwa [JobManager.setJob_jobs_of_ne _ hother]
    · rw [← Option.some.inj htake] at hc
      exact ⟨c, List.mem_of_mem_filter hc, rfl, rfl, id⟩

/-- `waitpid` has no child to wait for. -/
theorem checkSignals_of_noChild {s s' : Snush} {slot : Fin maxJobs} (hpc : s.pc = .waitFg slot)
    (h : s.noChild = some s') : s'.pc = .checkSignals := by
  simp only [Snush.noChild, hpc, Option.ite_none_right_eq_some, Option.some.injEq] at h
  obtain ⟨-, rfl⟩ := h
  rfl

/-- A child exits. -/
theorem follows_childExits {s s' : Snush} {pid : Int} (h : s.childExits pid = some s') :
    s'.pc = s.pc ∧ Follows s s' := by
  rw [Snush.childExits, Option.ite_none_right_eq_some, Option.some.injEq] at h
  obtain ⟨-, rfl⟩ := h
  refine ⟨rfl, Follows.of_children rfl rfl fun c' hc' => ?_⟩
  obtain ⟨c, hc, rfl⟩ := List.mem_map.mp hc'
  refine ⟨c, hc, ?_⟩
  split
  · exact ⟨rfl, rfl, fun _ => rfl⟩
  · exact ⟨rfl, rfl, id⟩

/-- No child of the group starts to run. -/
theorem NoneRuns.follows (h : s.NoneRuns) (hfollows : Follows s.shell s'.shell) : s'.NoneRuns := by
  intro pgid hgroup c' hc' hselected
  obtain ⟨c, hc, hpid, hpgid, hexited⟩ := hfollows.children c' hc'
  rw [hfollows.group] at hgroup
  refine hexited (h pgid hgroup c hc ?_)
  unfold Child.Selected at hselected ⊢
  rwa [hpid, hpgid] at hselected

/-- Behind the end of `wait_fg` no group is waited for. -/
theorem noneRuns_of_checkSignals (hpc : s.shell.pc = .checkSignals) : s.NoneRuns := by
  intro pgid hgroup
  rw [Snush.waitedGroup, hpc] at hgroup
  exact absurd hgroup (by simp)

/-! ### The history -/

/-- Without an interrupt there is nothing to forward. -/
theorem forwarded_nil : Forwarded pgid [] := by
  intro h₁ h₂ heq
  exact absurd heq.symm (by simp)

/-- A signal to the group settles what was received before. -/
theorem forwarded_killed (h : List SigintEvent) : Forwarded pgid (h ++ [.killed pgid]) := by
  intro h₁ h₂ heq
  rcases List.eq_nil_or_concat h₂ with rfl | ⟨h₃, e, rfl⟩
  · obtain ⟨-, hlast⟩ := List.append_inj' heq rfl
    exact absurd hlast (by simp)
  · rw [List.concat_eq_append, ← List.cons_append, ← List.append_assoc] at heq
    obtain ⟨-, hlast⟩ := List.append_inj' heq rfl
    rw [← List.head_eq_of_cons_eq hlast, List.concat_eq_append]
    exact List.mem_append_right h₃ List.mem_cons_self

/-- Other events leave nothing behind. -/
theorem Forwarded.append (hf : Forwarded pgid h) (hes : .received ∉ es) :
    Forwarded pgid (h ++ es) := by
  intro h₁ h₂ heq
  rcases List.append_eq_append_iff.mp heq with ⟨l, -, hl⟩ | ⟨l, hl, hr⟩
  · exact absurd (hl ▸ List.mem_append_right l List.mem_cons_self) hes
  · cases l with
    | nil =>
        rw [List.nil_append] at hr
        exact absurd (hr ▸ List.mem_cons_self) hes
    | cons e l =>
        obtain ⟨rfl, rfl⟩ := List.cons.inj hr
        exact List.mem_append_left es (hf h₁ l hl)

/-! ### The invariant -/

/-- A flag that is set is about to be cleared, and a `SIGINT` that was received is about to be
forwarded, or it does no harm, since no process of the job runs. -/
structure Inv (pgid : Int) (slot : Fin maxJobs) (s : WaitFg) (h : List SigintEvent) : Prop where
  place : At s.point s.shell.pc
  job : s.point ≠ .returned → JobAt s.shell.manager slot pgid
  blocked : s.sigintBlocked = blocksInt s.point
  set : Handles s.point → s.sigintFlag = true
  flag : s.sigintFlag = true → Handles s.point ∨ s.point ≠ .asleep ∧ s.NoneRuns
  owed : ¬Forwarded pgid h → Settles slot s.point ∨ s.point ≠ .asleep ∧ s.NoneRuns

/-- The invariant says that no interrupt is lost. -/
theorem Inv.neverLost (hinv : Inv pgid slot s h) : NeverLost pgid s h := by
  intro hasleep
  constructor
  · by_contra hset
    rcases hinv.flag (Bool.not_eq_false _ ▸ hset) with hhandles | ⟨hawake, -⟩
    · rw [hasleep] at hhandles
      exact hhandles
    · exact hawake hasleep
  · by_contra howed
    rcases hinv.owed howed with hsettles | ⟨hawake, -⟩
    · rw [hasleep] at hsettles
      exact hsettles
    · exact hawake hasleep

/-- The start: the flag is not set, and nothing was received. -/
theorem inv_of_registered (hs : Registered s pgid) (hflag : s.sigintFlag = false) :
    ∃ slot, Inv pgid slot s [] := by
  obtain ⟨jobId, serial, hpc⟩ := hs.pc
  obtain ⟨slot, hjob⟩ := hs.job
  refine ⟨slot, ?_, fun _ => hjob, ?_, ?_, ?_, fun howed => absurd forwarded_nil howed⟩
  · rw [hs.point]
    exact ⟨jobId, pgid, serial, hpc⟩
  · rw [hs.point, hs.sigintBlocked]
    rfl
  · rw [hs.point]
    exact False.elim
  · rw [hflag]
    exact fun hset => absurd hset Bool.false_ne_true

/-- A step inside of the shell, away from a point that settles nothing. -/
theorem Inv.quiet (hinv : Inv pgid slot s h) (hquiet : ¬Settles slot s.point)
    (hopen : s.point ≠ .returned) (hshell : s'.shell = s.shell)
    (hflag : s'.sigintFlag = s.sigintFlag) (hplace : At s'.point s.shell.pc)
    (hblocked : s'.sigintBlocked = blocksInt s'.point) (hnext : ¬Handles s'.point)
    (hawake : s'.point ≠ .asleep) : Inv pgid slot s' h := by
  have hquiet' : ¬Handles s.point := mt settles_of_handles hquiet
  have hnone (hnone : s.NoneRuns) : s'.NoneRuns := by
    rw [NoneRuns, hshell]
    exact hnone
  refine ⟨hshell ▸ hplace, fun _ => hshell ▸ hinv.job hopen, hblocked,
    fun hhandles => absurd hhandles hnext, fun h => ?_, fun h => ?_⟩
  · exact Or.inr ⟨hawake, hnone ((hinv.flag (hflag ▸ h)).resolve_left hquiet').2⟩
  · exact Or.inr ⟨hawake, hnone ((hinv.owed h).resolve_left hquiet).2⟩

/-- A step on the way to the flag. -/
theorem Inv.handle (hinv : Inv pgid slot s h) (hhandles : Handles s.point)
    (hshell : s'.shell = s.shell) (hflag : s'.sigintFlag = s.sigintFlag)
    (hplace : At s'.point s.shell.pc) (hblocked : s'.sigintBlocked = blocksInt s'.point)
    (hnext : Handles s'.point) : Inv pgid slot s' h := by
  have hopen : s.point ≠ .returned := fun hpoint => by
    rw [hpoint] at hhandles
    exact hhandles
  exact ⟨hshell ▸ hplace, fun _ => hshell ▸ hinv.job hopen, hblocked,
    fun _ => hflag.trans (hinv.set hhandles), fun _ => Or.inl hnext,
    fun _ => Or.inl (settles_of_handles hnext)⟩

/-- An answer of `waitpid`, or the call of `wait_fg`. The shell is in the loop then, or
`wait_fg` has returned. -/
theorem Inv.answer (hinv : Inv pgid slot s h) (hopen : s.point ≠ .returned)
    (hblocked : s.sigintBlocked = false) (hquiet : ¬Handles s.point ∧ ¬Settles slot s.point)
    (hfollows : shell.pc = .checkSignals ∨ (∃ slot, shell.pc = .waitFg slot) ∧
      Follows s.shell shell) :
    Inv pgid slot { s with shell := shell, point := pointOf shell } h := by
  rcases hfollows with hpc | ⟨⟨other, hpc⟩, hfollows⟩
  · have hpoint : pointOf shell = .returned := by rw [pointOf, hpc]
    have hnone : NoneRuns { s with shell := shell, point := pointOf shell } :=
      noneRuns_of_checkSignals hpc
    rw [hpoint] at hnone ⊢
    exact ⟨hpc, fun h => absurd rfl h, hblocked, False.elim, fun _ => Or.inr ⟨by simp, hnone⟩,
      fun _ => Or.inr ⟨by simp, hnone⟩⟩
  · have hpoint : pointOf shell = .loop := by rw [pointOf, hpc]
    have hnone (hnone : s.NoneRuns) : NoneRuns { s with shell := shell, point := .loop } :=
      hnone.follows hfollows
    rw [hpoint]
    refine ⟨⟨other, hpc⟩, fun _ => hfollows.jobs slot pgid (hinv.job hopen), hblocked, False.elim,
      fun hflag => ?_, fun howed => ?_⟩
    · exact Or.inr ⟨by simp, hnone ((hinv.flag hflag).resolve_left hquiet.1).2⟩
    · exact Or.inr ⟨by simp, hnone ((hinv.owed howed).resolve_left hquiet.2).2⟩

/-- The step in front of a slot. The group gets its signal at the slot of the job. -/
theorem Inv.kill (hinv : Inv pgid slot s h) {i : Nat} (hpoint : s.point = .kill i)
    (hstep : s.advance = some (s', es)) : Inv pgid slot s' (h ++ es) := by
  have hplace := hinv.place
  have hblocked := hinv.blocked
  have hjob := hinv.job (by simp [hpoint])
  have hflag (hset : s.sigintFlag = true) : s.NoneRuns :=
    ((hinv.flag hset).resolve_left (by simp [hpoint, Handles])).2
  rw [hpoint] at hplace hblocked
  simp only [WaitFg.advance, hpoint] at hstep
  split at hstep
  case isFalse hlast =>
    -- The slot of the job is behind the shell.
    simp only [Option.some.injEq, Prod.mk.injEq] at hstep
    obtain ⟨rfl, rfl⟩ := hstep
    have hpast : ¬Settles slot s.point := by
      rw [hpoint]
      exact fun hle => hlast (Nat.lt_of_le_of_lt hle slot.isLt)
    rw [List.append_nil]
    exact hinv.quiet hpast (by simp [hpoint]) rfl rfl hplace hblocked id (by simp)
  case isTrue hlt =>
    simp only [Option.some.injEq, Prod.mk.injEq] at hstep
    obtain ⟨rfl, rfl⟩ := hstep
    refine ⟨hplace, fun _ => hjob, hblocked, False.elim,
      fun hset => Or.inr ⟨by simp, hflag hset⟩, fun howed => ?_⟩
    by_cases hi : i = slot
    · -- The signal is sent now.
      subst hi
      rw [if_pos ⟨hjob.1, hjob.2.1⟩, hjob.2.2] at howed
      exact absurd (forwarded_killed h) howed
    · have hother : ¬Forwarded pgid h := fun hf => howed (hf.append (by split <;> simp))
      refine (hinv.owed hother).imp (fun hle => ?_) fun hnone => ⟨by simp, hnone.2⟩
      rw [hpoint] at hle
      exact Nat.lt_of_le_of_ne hle hi

/-- The next step of the shell. The flag is forwarded to the job before the wait goes on. -/
theorem Inv.advance (hinv : Inv pgid slot s h) (hstep : s.advance = some (s', es)) :
    Inv pgid slot s' (h ++ es) := by
  have hplace := hinv.place
  have hblocked := hinv.blocked
  cases hpoint : s.point with
  | kill i => exact hinv.kill hpoint hstep
  | asleep | loop | returned => simp [WaitFg.advance, hpoint] at hstep
  | unblockChld | unblockInt | allowInt | allowChld =>
      simp only [WaitFg.advance, hpoint, Option.some.injEq, Prod.mk.injEq] at hstep
      obtain ⟨rfl, rfl⟩ := hstep
      rw [hpoint] at hplace hblocked
      rw [List.append_nil]
      refine hinv.quiet ?_ ?_ rfl rfl hplace ?_ id ?_
      all_goals simp [hpoint, Settles, Handles, blocksInt, hblocked]
  | blockInt | blockChld =>
      simp only [WaitFg.advance, hpoint, Option.some.injEq, Prod.mk.injEq] at hstep
      obtain ⟨rfl, rfl⟩ := hstep
      rw [hpoint] at hplace hblocked
      rw [List.append_nil]
      refine hinv.handle ?_ rfl rfl hplace ?_ trivial
      all_goals simp [hpoint, Handles, blocksInt, hblocked]
  | eintr =>
      have hset : s.sigintFlag = true := hinv.set (by rw [hpoint]; trivial)
      simp only [WaitFg.advance, hpoint, hset, if_true, Option.some.injEq, Prod.mk.injEq] at hstep
      obtain ⟨rfl, rfl⟩ := hstep
      rw [hpoint] at hplace hblocked
      rw [List.append_nil]
      refine hinv.handle ?_ rfl hset.symm hplace hblocked trivial
      rw [hpoint]
      trivial
  | clear =>
      simp only [WaitFg.advance, hpoint, Option.some.injEq, Prod.mk.injEq] at hstep
      obtain ⟨rfl, rfl⟩ := hstep
      rw [hpoint] at hplace hblocked
      rw [List.append_nil]
      exact ⟨hplace, fun _ => hinv.job (by simp [hpoint]), hblocked, False.elim,
        fun hflag => absurd hflag Bool.false_ne_true, fun _ => Or.inl (Nat.zero_le _)⟩
  | call =>
      simp only [WaitFg.advance, hpoint, Option.map_eq_some_iff, Prod.mk.injEq] at hstep
      obtain ⟨r, hadvance, rfl, rfl⟩ := hstep
      rw [hpoint] at hplace hblocked
      obtain ⟨jobId, group, serial, hpc⟩ := hplace
      rw [List.append_nil]
      exact hinv.answer (by simp [hpoint]) hblocked (by simp [hpoint, Settles, Handles])
        (follows_advance hpc hadvance)

/-- The children and the job table go on, at the same point or at the start of the loop. -/
theorem Inv.follows (hinv : Inv pgid slot s h) (hfollows : Follows s.shell shell)
    (hpc : shell.pc = s.shell.pc) {point : Point}
    (hpoint : point = s.point ∨ s.point = .asleep ∧ point = .loop) :
    Inv pgid slot { s with shell := shell, point := point } h := by
  have hnone (hnone : s.NoneRuns) : NoneRuns { s with shell := shell, point := point } :=
    hnone.follows hfollows
  rcases hpoint with rfl | ⟨hasleep, rfl⟩
  · exact ⟨hpc ▸ hinv.place, fun hopen => hfollows.jobs slot pgid (hinv.job hopen), hinv.blocked,
      hinv.set, fun hset => (hinv.flag hset).imp_right fun h => ⟨h.1, hnone h.2⟩,
      fun howed => (hinv.owed howed).imp_right fun h => ⟨h.1, hnone h.2⟩⟩
  · obtain ⟨hplace, hjob, hblocked, hset, hflag, howed⟩ := hinv
    rw [hasleep] at hplace hjob hblocked hset hflag howed
    exact ⟨hpc ▸ hplace, fun _ => hfollows.jobs slot pgid (hjob (by simp)), hblocked, hset,
      fun h => (hflag h).imp_right fun h => absurd rfl h.1,
      fun h => (howed h).imp_right fun h => absurd rfl h.1⟩

/-- The answers of `waitpid`. -/
theorem Inv.reaped (hinv : Inv pgid slot s h) {pid : Int} (hstep : s.reaped pid = some s') :
    Inv pgid slot s' h := by
  rw [WaitFg.reaped, Option.ite_none_right_eq_some] at hstep
  obtain ⟨hpoint, hstep⟩ := hstep
  obtain ⟨shell, hreaped, rfl⟩ := Option.map_eq_some_iff.mp hstep
  have hplace := hinv.place
  have hblocked := hinv.blocked
  rcases hpoint with hpoint | hpoint
  all_goals
    rw [hpoint] at hplace hblocked
    obtain ⟨waited, hpc⟩ := hplace
    exact hinv.answer (by simp [hpoint]) hblocked (by simp [hpoint, Settles, Handles])
      (follows_reaped hpc hreaped)

/-- A `waitpid` that finds nobody keeps the invariant. -/
theorem Inv.noChild (hinv : Inv pgid slot s h) (hstep : s.noChild = some s') :
    Inv pgid slot s' h := by
  rw [WaitFg.noChild, Option.ite_none_right_eq_some] at hstep
  obtain ⟨hpoint, hstep⟩ := hstep
  obtain ⟨shell, hnone, rfl⟩ := Option.map_eq_some_iff.mp hstep
  have hplace := hinv.place
  have hblocked := hinv.blocked
  rw [hpoint] at hplace hblocked
  obtain ⟨waited, hpc⟩ := hplace
  exact hinv.answer (by simp [hpoint]) hblocked (by simp [hpoint, Settles, Handles])
    (Or.inl (checkSignals_of_noChild hpc hnone))

/-- `waitpid` sleeps only when a process of the job runs. Then nothing is left to do. -/
theorem Inv.sleep (hinv : Inv pgid slot s h) (hstep : s.sleep = some s') :
    Inv pgid slot s' h := by
  rw [WaitFg.sleep] at hstep
  cases hgroup : s.shell.waitedGroup with
  | none => simp [hgroup] at hstep
  | some group =>
      simp only [hgroup, Option.ite_none_right_eq_some, Option.some.injEq] at hstep
      obtain ⟨⟨hpoint, ⟨c, hc, hselected⟩, hrun⟩, rfl⟩ := hstep
      have hruns : ¬s.NoneRuns := by
        intro hnone
        have hexited := hnone group hgroup c hc hselected
        rw [hrun c hc hselected] at hexited
        exact Bool.false_ne_true hexited
      obtain ⟨hplace, hjob, hblocked, -, hflag, howed⟩ := hinv
      rw [hpoint] at hplace hjob hblocked hflag howed
      exact ⟨hplace, fun _ => hjob (by simp), hblocked, False.elim,
        fun hset => absurd (hflag hset) (not_or.mpr ⟨id, fun h => hruns h.2⟩),
        fun h => absurd (howed h) (not_or.mpr ⟨id, fun h => hruns h.2⟩)⟩

/-- `SIGINT` is delivered where it is attended to. The loop comes to its test of the flag before it
sleeps again, or no process of the job runs any more. -/
theorem Inv.deliverInt (hinv : Inv pgid slot s h) (hattended : s.Attended .deliverInt)
    (hstep : s.deliverInt = some (s', es)) : Inv pgid slot s' (h ++ es) := by
  rw [WaitFg.deliverInt, Option.ite_none_right_eq_some] at hstep
  obtain ⟨⟨-, hunblocked⟩, hstep⟩ := hstep
  simp only [Option.some.injEq, Prod.mk.injEq] at hstep
  obtain ⟨rfl, rfl⟩ := hstep
  by_cases hasleep : s.point = .asleep
  · -- `waitpid` gives `EINTR`.
    have hplace := hinv.place
    have hjob := hinv.job (by simp [hasleep])
    rw [hasleep] at hplace ⊢
    exact ⟨hplace, fun _ => hjob, hunblocked, fun _ => rfl, fun _ => Or.inl trivial,
      fun _ => Or.inl trivial⟩
  · simp only [if_neg hasleep]
    have hattended : Handles s.point ∨ s.NoneRuns := by
      rcases hattended rfl with hpoint | hpoint | hpoint | hnone
      · exact absurd hpoint hasleep
      · exact Or.inl (by simp [hpoint, Handles])
      · exact Or.inl (by simp [hpoint, Handles])
      · exact Or.inr hnone
    exact ⟨hinv.place, hinv.job, hinv.blocked, fun _ => rfl,
      fun _ => hattended.imp_right fun hnone => ⟨hasleep, hnone⟩,
      fun _ => hattended.imp settles_of_handles fun hnone => ⟨hasleep, hnone⟩⟩

/-- One action keeps the invariant. The two actions that matter are the next step of the shell and
the delivery of `SIGINT`. -/
theorem Inv.step (hinv : Inv pgid slot s h) (hattended : s.Attended a)
    (hstep : s.step a = some (s', es)) : Inv pgid slot s' (h ++ es) := by
  cases a with
  | advance => exact hinv.advance hstep
  | deliverInt => exact hinv.deliverInt hattended hstep
  | reaped pid =>
      obtain ⟨hreaped, rfl⟩ := silent_eq_some hstep
      rw [List.append_nil]
      exact hinv.reaped hreaped
  | noChild =>
      obtain ⟨hnone, rfl⟩ := silent_eq_some hstep
      rw [List.append_nil]
      exact hinv.noChild hnone
  | sleep =>
      obtain ⟨hsleep, rfl⟩ := silent_eq_some hstep
      rw [List.append_nil]
      exact hinv.sleep hsleep
  | exits pid =>
      obtain ⟨shell, hexits, heq⟩ := Option.map_eq_some_iff.mp hstep
      cases heq
      obtain ⟨hpc, hfollows⟩ := follows_childExits hexits
      rw [List.append_nil]
      exact hinv.follows hfollows hpc (Or.inl rfl)
  | raiseChld =>
      cases hstep
      rw [List.append_nil]
      have hfollows : Follows s.shell { s.shell with sigchldPending := true } :=
        .of_children rfl rfl fun c hc => ⟨c, hc, rfl, rfl, id⟩
      exact hinv.follows hfollows rfl (Or.inl rfl)
  | raiseInt =>
      cases hstep
      rw [List.append_nil]
      exact ⟨hinv.place, hinv.job, hinv.blocked, hinv.set, hinv.flag, hinv.owed⟩
  | deliverChld =>
      obtain ⟨hdeliver, rfl⟩ := silent_eq_some hstep
      rw [WaitFg.deliverChld, Option.ite_none_right_eq_some, Option.some.injEq] at hdeliver
      obtain ⟨-, rfl⟩ := hdeliver
      rw [List.append_nil]
      have hfollows :
          Follows s.shell { s.shell with sigchldPending := false, sigchldFlag := true } :=
        .of_children rfl rfl fun c hc => ⟨c, hc, rfl, rfl, id⟩
      refine hinv.follows hfollows rfl ?_
      split
      case isTrue hasleep => exact Or.inr ⟨hasleep, rfl⟩
      case isFalse => exact Or.inl rfl

/-- In a run from the registration of a foreground job on in which each `SIGINT` is attended to,
no `SIGINT` is lost. -/
theorem neverLost_of_attended (s₀ : WaitFg) (pgid : Int) (hs₀ : Registered s₀ pgid)
    (hflag : s₀.sigintFlag = false) (as : List WaitAction)
    (hattended : EveryStep step Attended s₀ as) (s : WaitFg) (h : List SigintEvent)
    (hrun : run step s₀ as = some (s, h)) : NeverLost pgid s h := by
  obtain ⟨slot, hinit⟩ := inv_of_registered hs₀ hflag
  have hinv : Inv pgid slot s h :=
    run_induction_of_steps hinit (fun _ _ _ _ _ hinv hP hstep => hinv.step hP hstep) as hattended
      s h hrun
  exact hinv.neverLost

/-! ### `Snush` -/

/-- `add_job` succeeds in `fork_exec` or in `iter_pipe_fork_exec`, for a foreground job. The shell
is at the start of its wait for the job then. -/
theorem registered_of_advance {s t : Snush} {n : Nat} {pids : List Int} {ps : List Printed}
    (hpc : s.pc = .forking n false pids) (hstep : s.advance = some (t, ps))
    (hjob : ∀ pgid serial, t.pc ≠ .started false (-1) pgid serial) (flag pending : Bool) :
    Registered ⟨t, .unblockChld, flag, pending, true, true⟩ (pids.headD 0) := by
  simp only [Snush.advance, hpc] at hstep
  split at hstep
  · exact absurd hstep (by simp)
  · simp only [Bool.false_eq_true, if_false, Option.some.injEq, Prod.mk.injEq] at hstep
    obtain ⟨rfl, -⟩ := hstep
    refine ⟨⟨_, _, rfl⟩, ?_, rfl, rfl, rfl⟩
    simp only [JobManager.addJob] at hjob ⊢
    split_ifs at hjob ⊢ with hfull hmany
    · exact absurd rfl (hjob _ _)
    · exact absurd rfl (hjob _ _)
    · cases hslot : s.manager.emptySlot with
      | none =>
          rw [hslot] at hjob
          exact absurd rfl (hjob _ _)
      | some slot =>
          refine ⟨slot, ?_⟩
          simp [JobAt, JobManager.newJob]

/-- In front of `wait_fg` and in it the place of the shell is one at which `Snush` does not block
`SIGCHLD`. -/
theorem blocked_of_at {point : Point} {pc : Pc} (h : At point pc) : pc.blocked = false := by
  cases point with
  | unblockChld | unblockInt | call =>
      obtain ⟨jobId, pgid, serial, rfl⟩ := h
      rfl
  | returned =>
      rw [show pc = .checkSignals from h]
      rfl
  | loop | asleep | eintr | blockInt | blockChld | clear | kill | allowInt | allowChld =>
      obtain ⟨slot, rfl⟩ := h
      rfl

/-- A step is a step of `Snush`, or it is none there. What `SIGINT` does to the shell is not a part
of `Snush`. -/
theorem step_snush (hplace : At s.point s.shell.pc) (hstep : s.step a = some (s', es)) :
    s'.shell = s.shell ∨ ∃ b ps, s.shell.step b = some (s'.shell, ps) := by
  cases a with
  | advance =>
      simp only [WaitFg.step, WaitFg.advance] at hstep
      cases hpoint : s.point with
      | call =>
          simp only [hpoint, Option.map_eq_some_iff, Prod.mk.injEq] at hstep
          obtain ⟨r, hadvance, rfl, -⟩ := hstep
          exact Or.inr ⟨.advance, r.2, hadvance⟩
      | eintr | kill i =>
          simp only [hpoint] at hstep
          split at hstep <;> cases hstep <;> exact Or.inl rfl
      | asleep | loop | returned => simp [hpoint] at hstep
      | unblockChld | unblockInt | blockInt | blockChld | clear | allowInt | allowChld =>
          simp only [hpoint, Option.some.injEq, Prod.mk.injEq] at hstep
          obtain ⟨rfl, -⟩ := hstep
          exact Or.inl rfl
  | reaped pid =>
      obtain ⟨hreaped, rfl⟩ := silent_eq_some hstep
      rw [WaitFg.reaped, Option.ite_none_right_eq_some] at hreaped
      obtain ⟨shell, hshell, rfl⟩ := Option.map_eq_some_iff.mp hreaped.2
      exact Or.inr ⟨.reaped pid, [], by rw [Snush.step, hshell]; rfl⟩
  | noChild =>
      obtain ⟨hnone, rfl⟩ := silent_eq_some hstep
      rw [WaitFg.noChild, Option.ite_none_right_eq_some] at hnone
      obtain ⟨shell, hshell, rfl⟩ := Option.map_eq_some_iff.mp hnone.2
      exact Or.inr ⟨.noChild, [], by rw [Snush.step, hshell]; rfl⟩
  | sleep =>
      obtain ⟨hsleep, rfl⟩ := silent_eq_some hstep
      rw [WaitFg.sleep] at hsleep
      split at hsleep
      · exact absurd hsleep (by simp)
      · rw [Option.ite_none_right_eq_some, Option.some.injEq] at hsleep
        exact Or.inl (hsleep.2 ▸ rfl)
  | exits pid =>
      obtain ⟨shell, hexits, heq⟩ := Option.map_eq_some_iff.mp hstep
      cases heq
      exact Or.inr ⟨.exits pid, [], by rw [Snush.step, hexits]; rfl⟩
  | raiseChld =>
      cases hstep
      exact Or.inr ⟨.raise, [], rfl⟩
  | raiseInt =>
      cases hstep
      exact Or.inl rfl
  | deliverChld =>
      obtain ⟨hdeliver, rfl⟩ := silent_eq_some hstep
      rw [WaitFg.deliverChld, Option.ite_none_right_eq_some, Option.some.injEq] at hdeliver
      obtain ⟨⟨hpending, -⟩, rfl⟩ := hdeliver
      refine Or.inr ⟨.deliver, [], ?_⟩
      rw [Snush.step, if_pos ⟨hpending, blocked_of_at hplace⟩]
  | deliverInt =>
      rw [WaitFg.step, WaitFg.deliverInt, Option.ite_none_right_eq_some, Option.some.injEq,
        Prod.mk.injEq] at hstep
      exact Or.inl (hstep.2.1 ▸ rfl)

/-! ### Two runs -/

/-- A job of one process is registered, and Ctrl-C comes before the signals are unblocked. -/
def oneProcess : WaitFg where
  shell :=
    { manager := (JobManager.init.addJob 100 [100] 1 .foreground).1
      pc := .started false 0 100 0
      sigchldFlag := false
      sigchldPending := false
      children := [⟨100, 100, false⟩] }
  point := .unblockChld
  sigintFlag := false
  sigintPending := false
  sigintBlocked := true
  sigchldBlocked := true

/-- The job of one process is in the first slot, and the shell is about to wait for it. -/
theorem registered_oneProcess : Registered oneProcess 100 :=
  ⟨⟨0, 0, rfl⟩, ⟨⟨0, by decide⟩, rfl, rfl, rfl⟩, rfl, rfl, rfl⟩

/-- The signal is delivered when it is unblocked, and `waitpid` sleeps. -/
theorem not_neverLost : ∃ as s h, run step oneProcess as = some (s, h) ∧
    Registered oneProcess 100 ∧ oneProcess.sigintFlag = false ∧ ¬NeverLost 100 s h := by
  have hrun : (run step oneProcess
      [.raiseInt, .advance, .advance, .deliverInt, .advance, .sleep]).map
        (fun r => (r.1.point, r.1.sigintFlag)) = some (.asleep, true) := by rfl
  obtain ⟨⟨s, h⟩, hrun, heq⟩ := Option.map_eq_some_iff.mp hrun
  refine ⟨_, s, h, hrun, registered_oneProcess, rfl, fun hlost => ?_⟩
  obtain ⟨hasleep, hset⟩ := Prod.mk.inj heq
  obtain ⟨hclear, -⟩ := hlost hasleep
  exact absurd (hset.symm.trans hclear) (by simp)

/-- Ctrl-C while `waitpid` sleeps is forwarded, and `waitpid` sleeps again. The step is attended,
since the sleep is interrupted. -/
theorem neverLost_of_attended_asleep :
    ∃ as s h, run step oneProcess as = some (s, h) ∧ s.point = .asleep ∧
      h = [.received, .killed 100] ∧ NeverLost 100 s h := by
  let as : List WaitAction := [.advance, .advance, .advance, .sleep, .raiseInt, .deliverInt] ++
    List.replicate 23 .advance ++ [.sleep]
  have hrun : (run step oneProcess as).map (fun r => (r.1.point, r.2))
      = some (.asleep, [.received, .killed 100]) := by rfl
  obtain ⟨⟨s, h⟩, hrun, heq⟩ := Option.map_eq_some_iff.mp hrun
  have hattended : EveryStep step Attended oneProcess as := by
    intro n t a ⟨_, ht⟩ ha hdeliver
    rw [hdeliver] at ha
    -- The signal is delivered once.
    have hn : n = 5 := by
      have hlt : n < as.length := (List.getElem?_eq_some_iff.mp ha).1
      have hall : ∀ k < as.length, as[k]? = some WaitAction.deliverInt → k = 5 := by decide
      exact hall n hlt ha
    have hpoint : (run step oneProcess (as.take 5)).map (fun r => r.1.point) = some .asleep := by
      rfl
    rw [hn] at ht
    rw [ht] at hpoint
    exact Or.inl (Option.some.inj hpoint)
  exact ⟨as, s, h, hrun, congrArg Prod.fst heq, congrArg Prod.snd heq,
    neverLost_of_attended oneProcess 100 registered_oneProcess rfl as hattended s h hrun⟩

end WaitFg

end SysProg.Shell
