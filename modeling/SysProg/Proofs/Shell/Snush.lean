import SysProg.Proofs.Shell.Children

/-!
# `SysProg.Proofs.Shell.Snush`: the job table in every run of the shell

`Placed` says which jobs the table may hold at each place of the shell, and `Inv` adds that the
jobs are the children. `Move` lists what a step does to a state with `Inv`: the searches in the
table are resolved, and each case says what the shell or the kernel has tested.

* `Inv.move_of_step`: a step of an orderly run is a move.
* `Inv.move`: a move keeps the invariant.
* `run_inv`: the invariant for a run.
-/

set_option autoImplicit false

namespace SysProg.Shell

open SysProg.Lib

/-- A background job with processes left. -/
def Job.Steady (job : Job) : Prop := job.state = .background ∧ 0 < job.remainingProcesses

/-- The jobs that the table holds at each place of the shell. -/
def Placed (m : JobManager) : Pc → Prop
  | .reap i => ∀ j ∈ m.slots, (m.jobs j).state = .background ∧
      (j.val ≠ i → 0 < (m.jobs j).remainingProcesses)
  | .forking n _ pids => (∀ j ∈ m.slots, (m.jobs j).Steady) ∧ 0 < n ∧ n ≤ maxProcPerJob ∧
      pids.length ≤ n ∧ m.nJobs + 1 ≤ maxJobs
  | .started bg jobId pgid serial => ∃ i ∈ m.slots,
      ((m.jobs i).jobId = jobId ∧ (m.jobs i).pgid = pgid ∧ (m.jobs i).serial = serial) ∧
      (m.jobs i).state = (if bg then .background else .foreground) ∧
      0 < (m.jobs i).remainingProcesses ∧ ∀ j ∈ m.slots, j ≠ i → (m.jobs j).Steady
  | .waitFg i => i ∈ m.slots ∧ (m.jobs i).state = .foreground ∧
      0 < (m.jobs i).remainingProcesses ∧ ∀ j ∈ m.slots, j ≠ i → (m.jobs j).Steady
  | _ => ∀ j ∈ m.slots, (m.jobs j).Steady

namespace Snush

/-- What holds in every state of a run. -/
structure Inv (s : Snush) : Prop where
  matched : Matched s.manager s.children s.pc.forked
  placed : Placed s.manager s.pc

/-- The child `c` is a zombie of the job in slot `i`. -/
structure ZombieOf (s : Snush) (i : Fin maxJobs) (c : Child) : Prop where
  inUse : i ∈ s.manager.slots
  child : c ∈ s.children
  pgid : c.pgid = (s.manager.jobs i).pgid
  exited : c.exited = true

/-- The children that are left when `c` is reaped. -/
def without (s : Snush) (c : Child) : List Child := s.children.filter fun d => d.pid ≠ c.pid

/-- What one step does to a state with `Inv`. -/
inductive Move (s : Snush) : Snush → List Printed → Prop where
  | scan (pc : s.pc = .checkSignals) (flag : s.sigchldFlag = true) :
      Move s { s with pc := .reap 0, sigchldFlag := false } []
  | unflagged (pc : s.pc = .checkSignals) (flag : s.sigchldFlag = false) :
      Move s { s with pc := .checkBgStatus } []
  | skip (i : Fin maxJobs) (pc : s.pc = .reap i) (unused : i ∉ s.manager.slots) :
      Move s { s with pc := .reap (i + 1) } []
  | scanned (i : Nat) (pc : s.pc = .reap i) (last : maxJobs ≤ i) :
      Move s { s with pc := .checkBgStatus } []
  | prints (pc : s.pc = .checkBgStatus) :
      Move s { s with pc := .prompt, manager := { s.manager with done := [] } }
        (s.manager.done.map .done)
  | returns (pc : s.pc = .prompt) : Move s { s with pc := .checkSignals } []
  | quits (pc : s.pc = .prompt) : Move s { s with pc := .exited } []
  | command (n : Nat) (bg : Bool) (pc : s.pc = .prompt) (pos : 0 < n) (le : n ≤ maxProcPerJob)
      (free : s.manager.nJobs + 1 ≤ maxJobs) : Move s { s with pc := .forking n bg [] } []
  | forks (n : Nat) (bg : Bool) (pids : List Int) (pid : Int) (pc : s.pc = .forking n bg pids)
      (len : pids.length < n) (pos : 1 < pid) (fresh : ∀ c ∈ s.children, c.pid ≠ pid)
      (group : ∀ c ∈ s.children, c.pgid ≠ pid) :
      Move s { s with
        pc := .forking n bg (pids ++ [pid])
        children := s.children ++ [⟨pid, pids.headD pid, false⟩] } []
  | registers (bg : Bool) (pids : List Int) (pc : s.pc = .forking pids.length bg pids)
      (pos : pids ≠ []) (m : JobManager) (slot : Fin maxJobs)
      (adds : JobManager.Adds s.manager m slot (s.manager.newJob (pids.headD 0) pids pids.length
        (if bg then .background else .foreground)))
      (max : ∀ i ∈ s.manager.slots, (s.manager.jobs i).jobId ≠ intMax) :
      Move s { s with
        manager := m
        pc := .started bg s.manager.allocateJid (pids.headD 0) s.manager.added } []
  | announces (jobId pgid : Int) (serial : Nat) (pc : s.pc = .started true jobId pgid serial) :
      Move s { s with pc := .checkSignals } [.running ⟨serial, jobId, pgid⟩]
  | waits (i : Fin maxJobs) (pgid : Int) (serial : Nat) (inUse : i ∈ s.manager.slots)
      (pc : s.pc = .started false (s.manager.jobs i).jobId pgid serial) :
      Move s { s with pc := .waitFg i } []
  | reapsBg (i : Fin maxJobs) (c : Child) (pc : s.pc = .reap i) (zombie : s.ZombieOf i c) :
      Move s { s with manager := s.manager.remove i c.pid, children := s.without c } []
  | reapsFg (i : Fin maxJobs) (c : Child) (pc : s.pc = .waitFg i) (zombie : s.ZombieOf i c)
      (left : ((s.manager.remove i c.pid).jobs i).remainingProcesses ≠ 0) :
      Move s { s with manager := s.manager.remove i c.pid, children := s.without c } []
  | endsFg (i : Fin maxJobs) (c : Child) (pc : s.pc = .waitFg i) (zombie : s.ZombieOf i c)
      (last : ((s.manager.remove i c.pid).jobs i).remainingProcesses = 0) :
      Move s { s with
        manager := (s.manager.remove i c.pid).clear i
        children := s.without c
        pc := .checkSignals } []
  | leavesBg (i : Fin maxJobs) (pc : s.pc = .reap i) (inUse : i ∈ s.manager.slots)
      (running : ∀ c ∈ s.children, c.pgid = (s.manager.jobs i).pgid → c.exited = false)
      (left : (s.manager.jobs i).remainingProcesses ≠ 0) :
      Move s { s with pc := .reap (i + 1) } []
  | endsBg (i : Fin maxJobs) (pc : s.pc = .reap i) (inUse : i ∈ s.manager.slots)
      (last : (s.manager.jobs i).remainingProcesses = 0) :
      Move s { s with
        manager := (s.manager.enqueueDone ⟨(s.manager.jobs i).serial, (s.manager.jobs i).jobId,
          (s.manager.jobs i).pgid⟩).clear i
        pc := .reap (i + 1) } []
  | stays : Move s s []
  | exits (pid : Int) : Move s { s with
      children := s.children.map fun c => if c.pid = pid then { c with exited := true } else c
      sigchldPending := true } []
  | raises : Move s { s with sigchldPending := true } []
  | delivers (pending : s.sigchldPending = true) (unblocked : s.pc.blocked = false) :
      Move s { s with sigchldPending := false, sigchldFlag := true } []

namespace Inv

variable {s s' : Snush} {es : List Printed}

/-- The shell at its start keeps the invariant. It has no jobs and no children. -/
theorem init : Snush.init.Inv := by
  refine ⟨Matched.init, ?_⟩
  intro j hj
  simp [Snush.init, JobManager.init, Job.zero] at hj

/-- The invariant gives the result. -/
theorem consistent (h : s.Inv) : s.Consistent := by
  have htable := h.matched.table
  refine ⟨htable.count, htable.nJobs_le, htable.ids, fun i hi => ?_, fun c hc hforked => ?_,
    fun hpc => ?_⟩
  · rw [Job.length_live]
    exact htable.remaining i hi
  · exact h.matched.owner_unique hc hforked
  · have hplaced := h.placed
    rw [hpc] at hplaced
    exact hplaced

/-! ### Every step is a move -/

/-- The shell's own steps. At each place of the loop the next step is one of the moves. -/
theorem move_of_advance (h : s.Inv) (horderly : s.Orderly .advance)
    (hstep : s.advance = some (s', es)) : s.Move s' es := by
  obtain ⟨matched, placed⟩ := h
  cases hpc : s.pc with
  | checkSignals =>
      simp only [advance, hpc] at hstep
      split at hstep
      case isTrue hflag =>
        cases hstep
        exact .scan hpc hflag
      case isFalse hflag =>
        cases hstep
        exact .unflagged hpc (Bool.not_eq_true _ ▸ hflag)
  | reap i =>
      simp only [advance, hpc] at hstep
      split at hstep
      case isTrue hi =>
        split at hstep
        case isTrue => cases hstep
        case isFalse hreap =>
          cases hstep
          refine .skip ⟨i, hi⟩ hpc fun hused => hreap ⟨JobManager.mem_slots.mp hused, ?_⟩
          rw [hpc] at placed
          exact (placed ⟨i, hi⟩ hused).1
      case isFalse hi =>
        cases hstep
        exact .scanned i hpc (not_lt.mp hi)
  | checkBgStatus =>
      simp only [advance, hpc, Option.some.injEq, Prod.mk.injEq] at hstep
      obtain ⟨rfl, rfl⟩ := hstep
      exact .prints hpc
  | forking n bg pids =>
      simp only [advance, hpc] at hstep
      split at hstep
      case isTrue => cases hstep
      case isFalse hlen =>
        have hmax := horderly n bg pids hpc
        rw [hpc] at placed
        obtain ⟨-, hn, hle, hlen', hfree⟩ := placed
        obtain rfl : n = pids.length := by omega
        obtain ⟨slot, hadds, hid⟩ := JobManager.addJob_spec matched.table hfree
          (pids.headD 0) pids hle (if bg then .background else .foreground)
        cases hstep
        rw [hid]
        exact .registers bg pids hpc (List.ne_nil_of_length_pos hn) _ slot hadds hmax
  | started bg jobId pgid serial =>
      simp only [advance, hpc] at hstep
      split at hstep
      case isTrue hbg =>
        cases hstep
        subst hbg
        exact .announces jobId pgid serial hpc
      case isFalse hbg =>
        rw [hpc] at placed
        obtain ⟨i, hi, ⟨rfl, -, -⟩, -⟩ := placed
        rw [matched.table.findJobByJid_eq hi] at hstep
        cases hstep
        rw [Bool.not_eq_true] at hbg
        subst hbg
        exact .waits i pgid serial hi hpc
  | prompt | waitFg i | exited => simp [advance, hpc] at hstep

/-- `iter_pipe_fork_exec` forks for at most `MAX_PROC_PER_JOB` segments. A line with more of them is
refused before it comes to a fork. -/
theorem splitSegments_length {nPipe : Nat} {oTokens : List Token} {bg : Bool}
    {bounds : List (Nat × Nat)} (h : splitSegments nPipe oTokens bg = .ok (.segments bounds)) :
    0 < bounds.length ∧ bounds.length ≤ maxProcPerJob := by
  rw [splitSegments] at h
  split at h
  case isTrue => cases h
  case isFalse hle =>
    cases hloop : splitLoop oTokens (totalTokens oTokens bg) 0 0 [] with
    | error f => simp [hloop, bind, Except.bind] at h
    | ok r =>
        cases hadd : addSegment r.1 r.2 (totalTokens oTokens bg) with
        | error f => simp [hloop, hadd, bind, Except.bind] at h
        | ok segs =>
            simp only [hloop, hadd, bind, Except.bind] at h
            split at h
            case isTrue => cases h
            case isFalse hlen =>
              cases h
              omega

/-- `shell_helper` returns, ends the shell, or starts to fork. In the last case the table has room
for one more job. -/
theorem shellHelper_cases {m : JobManager} {line : List UInt8} {mem : Nat → Bool} {pc : Pc}
    (h : shellHelper m line mem = .ok pc) :
    pc = .checkSignals ∨ pc = .exited ∨
      ∃ n bg, pc = .forking n bg [] ∧ 0 < n ∧ n ≤ maxProcPerJob ∧ m.nJobs + 1 ≤ maxJobs := by
  rw [shellHelper] at h
  cases hlex : lexLine mem line [] with
  | error f => simp [hlex, bind, Except.bind] at h
  | ok r =>
      obtain ⟨result, oTokens⟩ := r
      simp only [hlex, bind, Except.bind] at h
      split at h
      case h_1 => exact .inl (by cases h; rfl)
      case h_3 => exact .inl (by cases h; rfl)
      case h_2 first rest heq =>
        split at h
        case isTrue => exact .inl (by cases h; rfl)
        case isFalse =>
          split at h
          case isTrue => exact .inl (by cases h; rfl)
          case isFalse hfree =>
            have hfree' : m.nJobs + 1 ≤ maxJobs := not_lt.mp hfree
            split at h
            case isTrue =>
              cases hsplit : splitSegments (countPipe (first :: rest)) (first :: rest)
                  (checkBg (first :: rest)) with
              | error f => simp [hsplit] at h
              | ok answer =>
                  simp only [hsplit] at h
                  cases answer with
                  | segments bounds =>
                      cases h
                      obtain ⟨hpos, hle⟩ := splitSegments_length hsplit
                      exact .inr (.inr ⟨_, _, rfl, hpos, hle, hfree'⟩)
                  | tooManyStages => exact .inl (by cases h; rfl)
                  | inconsistent => exact .inl (by cases h; rfl)
            case isFalse =>
              cases hbuiltin : checkBuiltin first with
              | normal =>
                  simp only [hbuiltin] at h
                  cases h
                  exact .inr (.inr ⟨_, _, rfl, by decide, by decide, hfree'⟩)
              | exit =>
                  simp only [hbuiltin] at h
                  split at h
                  case isTrue => exact .inr (.inl (by cases h; rfl))
                  case isFalse => exact .inl (by cases h; rfl)
              | cd =>
                  simp only [hbuiltin] at h
                  exact .inl (by cases h; rfl)

/-- `waitpid` gives a child of the job. -/
theorem zombieOf (h : s.Inv) {i : Fin maxJobs} (hi : i ∈ s.manager.slots) {pid : Int}
    {children : List Child}
    (htake : s.takeChild (-(s.manager.jobs i).pgid) pid = some children) :
    ∃ c, s.ZombieOf i c ∧ c.pid = pid ∧ children = s.without c := by
  simp only [takeChild, Option.ite_none_right_eq_some, Option.some.injEq] at htake
  obtain ⟨⟨c, hc, hpid, hexited, hsel⟩, rfl⟩ := htake
  have hpgid := (Child.selected_neg_iff (h.matched.table.group i hi) c).mp hsel
  exact ⟨c, ⟨hi, hc, hpgid, hexited⟩, hpid, by rw [without, hpid]⟩

/-- The process of a zombie is one of those left in the job. -/
theorem mem_live (h : s.Inv) {i : Fin maxJobs} {c : Child} (hz : s.ZombieOf i c) :
    c.pid ∈ (s.manager.jobs i).live :=
  h.matched.mem_live hz.inUse hz.child hz.pgid

/-- A process is removed from its job. The job is still in its slot, even if it has no process left.
-/
theorem slots_remove (h : s.Inv) {i : Fin maxJobs} {c : Child} (hz : s.ZombieOf i c) :
    (s.manager.remove i c.pid).slots = s.manager.slots :=
  JobManager.slots_remove hz.inUse (h.mem_live hz)

/-- A process is reaped and removed. The children and the entries of the jobs still match, each
without it. -/
theorem matched_remove (h : s.Inv) {i : Fin maxJobs} {c : Child} (hz : s.ZombieOf i c) :
    Matched (s.manager.remove i c.pid) (s.without c) s.pc.forked :=
  h.matched.reap hz.inUse hz.child hz.pgid

/-- `waitpid` with a child. The child is removed from its job, and `wait_fg` deletes the job when
this was its last process. -/
theorem move_of_reaped (h : s.Inv) {pid : Int} (hstep : s.reaped pid = some s') :
    s.Move s' [] := by
  cases hpc : s.pc with
  | reap i =>
      simp only [reaped, hpc] at hstep
      split at hstep
      case isTrue hi =>
        split at hstep
        case isTrue hreap =>
          obtain ⟨children, htake, rfl⟩ := Option.map_eq_some_iff.mp hstep
          obtain ⟨c, hz, rfl, rfl⟩ := h.zombieOf (JobManager.mem_slots.mpr hreap.1) htake
          have hmove := Move.reapsBg (s := s) ⟨i, hi⟩ c hpc hz
          rw [← hpc]
          exact hmove
        case isFalse => cases hstep
      case isFalse => cases hstep
  | waitFg i =>
      simp only [reaped, hpc] at hstep
      have hplaced := h.placed
      rw [hpc] at hplaced
      obtain ⟨children, htake, rfl⟩ := Option.map_eq_some_iff.mp hstep
      obtain ⟨c, hz, rfl, rfl⟩ := h.zombieOf hplaced.1 htake
      have hself : (s.manager.remove i c.pid).jobs i
          = removePidFromJob (s.manager.jobs i) c.pid := JobManager.remove_jobs_self
      split
      case isTrue hzero =>
        have hdelete := (h.matched_remove hz).table.deleteJob_eq (h.slots_remove hz ▸ hz.inUse)
        rw [hself] at hdelete
        rw [waitEnd, if_pos hzero]
        have hmove := Move.endsFg (s := s) i c hpc hz (by rw [hself, hzero])
        rw [← hdelete] at hmove
        exact hmove
      case isFalse hleft =>
        have hmove := Move.reapsFg (s := s) i c hpc hz (by rwa [hself])
        rw [← hpc]
        exact hmove
  | _ => simp [reaped, hpc] at hstep

/-- `waitpid` without a child. In `wait_fg` this does not happen, for the job has a child. -/
theorem move_of_noChild (h : s.Inv) (hstep : s.noChild = some s') : s.Move s' [] := by
  have hplaced := h.placed
  cases hpc : s.pc with
  | reap i =>
      simp only [noChild, hpc] at hstep
      split at hstep
      case isTrue hi =>
        split at hstep
        case isTrue hcond =>
          obtain ⟨hreap, hnone⟩ := hcond
          have hused : ⟨i, hi⟩ ∈ s.manager.slots := JobManager.mem_slots.mpr hreap.1
          cases hstep
          rw [reapEnd]
          split
          case isTrue hzero =>
            have htable := h.matched.table.enqueueDone ⟨(s.manager.jobs ⟨i, hi⟩).serial,
              (s.manager.jobs ⟨i, hi⟩).jobId, (s.manager.jobs ⟨i, hi⟩).pgid⟩
            have hdelete := htable.deleteJob_eq (i := ⟨i, hi⟩) (by simpa using hused)
            rw [JobManager.enqueueDone_jobs] at hdelete
            rw [hdelete]
            exact .endsBg ⟨i, hi⟩ hpc hused hzero
          case isFalse hleft =>
            refine .leavesBg ⟨i, hi⟩ hpc hused (fun c hc hpgid => hnone c hc ?_) hleft
            exact (Child.selected_neg_iff (h.matched.table.group _ hused) c).mpr hpgid
        case isFalse => cases hstep
      case isFalse => cases hstep
  | waitFg i =>
      simp only [noChild, hpc] at hstep
      rw [hpc] at hplaced
      obtain ⟨hused, -, hlive, -⟩ := hplaced
      obtain ⟨c, hc, hpgid⟩ := h.matched.exists_child hused hlive
      split at hstep
      case isTrue hnone =>
        refine absurd ?_ (hnone c hc)
        exact (Child.selected_neg_iff (h.matched.table.group i hused) c).mpr hpgid
      case isFalse => cases hstep
  | _ => simp [noChild, hpc] at hstep

/-- A step of an orderly run is a move. Being orderly is what the moves need from `fork` and from
the IDs of the jobs. -/
theorem move_of_step (h : s.Inv) {a : ShellAction} (horderly : s.Orderly a)
    (hstep : s.step a = some (s', es)) : s.Move s' es := by
  cases a with
  | advance => exact h.move_of_advance horderly hstep
  | readLine line mem =>
      simp only [step] at hstep
      split at hstep
      case isTrue hpc =>
        cases hhelper : shellHelper s.manager line mem with
        | error f => simp [hhelper] at hstep
        | ok pc =>
            simp only [hhelper] at hstep
            cases hstep
            obtain rfl | rfl | ⟨n, bg, rfl, hpos, hle, hfree⟩ := shellHelper_cases hhelper
            · exact .returns hpc
            · exact .quits hpc
            · exact .command n bg hpc hpos hle hfree
      case isFalse => cases hstep
  | endOfFile =>
      simp only [step, Option.ite_none_right_eq_some] at hstep
      obtain ⟨hpc, hstep⟩ := hstep
      cases hstep
      exact .quits hpc
  | interrupted =>
      simp only [step, Option.ite_none_right_eq_some] at hstep
      obtain ⟨hpc, hstep⟩ := hstep
      cases hstep
      exact .returns hpc
  | fork pid =>
      obtain ⟨hfork, rfl⟩ := silent_eq_some hstep
      cases hpc : s.pc with
      | forking n bg pids =>
          simp only [forked, hpc, Option.ite_none_right_eq_some, Option.some.injEq] at hfork
          obtain ⟨⟨hlen, hpos, hfresh⟩, rfl⟩ := hfork
          exact .forks n bg pids pid hpc hlen hpos hfresh horderly
      | _ => simp [forked, hpc] at hfork
  | reaped pid =>
      obtain ⟨hreap, rfl⟩ := silent_eq_some hstep
      exact h.move_of_reaped hreap
  | noChild =>
      obtain ⟨hnone, rfl⟩ := silent_eq_some hstep
      exact h.move_of_noChild hnone
  | waitInterrupted =>
      simp only [step] at hstep
      split at hstep
      · cases hstep
        exact .stays
      · cases hstep
  | exits pid =>
      obtain ⟨hexit, rfl⟩ := silent_eq_some hstep
      simp only [childExits, Option.ite_none_right_eq_some, Option.some.injEq] at hexit
      obtain ⟨-, rfl⟩ := hexit
      exact .exits pid
  | raise =>
      cases hstep
      exact .raises
  | deliver =>
      simp only [step, Option.ite_none_right_eq_some] at hstep
      obtain ⟨⟨hpending, hblocked⟩, hstep⟩ := hstep
      cases hstep
      exact .delivers hpending hblocked

/-! ### Every move keeps the invariant -/

/-- Reaping a process leaves the other jobs as they are. -/
theorem steady_remove (h : s.Inv) {i : Fin maxJobs} {c : Child} (hz : s.ZombieOf i c)
    (hsteady : ∀ j ∈ s.manager.slots, j ≠ i → (s.manager.jobs j).Steady) :
    ∀ j ∈ (s.manager.remove i c.pid).slots, j ≠ i →
      ((s.manager.remove i c.pid).jobs j).Steady := by
  intro j hj hji
  rw [h.slots_remove hz] at hj
  rw [JobManager.remove_jobs_of_ne hji]
  exact hsteady j hj hji

/-- `handle_sigchld` reaps a process of the job at which it is. -/
theorem placed_reapsBg (h : s.Inv) {i : Fin maxJobs} {c : Child} (hpc : s.pc = .reap i)
    (hz : s.ZombieOf i c) : Placed (s.manager.remove i c.pid) (.reap i) := by
  have hplaced := h.placed
  rw [hpc] at hplaced
  intro j hj
  rw [h.slots_remove hz] at hj
  by_cases hji : j = i
  · rw [hji, JobManager.remove_jobs_self, (removePidFromJob_spec (h.mem_live hz)).state]
    exact ⟨(hplaced i hz.inUse).1, fun hne => absurd rfl hne⟩
  · rw [JobManager.remove_jobs_of_ne hji]
    exact hplaced j hj

/-- `wait_fg` reaps a process, and some are left. -/
theorem placed_reapsFg (h : s.Inv) {i : Fin maxJobs} {c : Child} (hpc : s.pc = .waitFg i)
    (hz : s.ZombieOf i c)
    (hleft : ((s.manager.remove i c.pid).jobs i).remainingProcesses ≠ 0) :
    Placed (s.manager.remove i c.pid) (.waitFg i) := by
  have hplaced := h.placed
  rw [hpc] at hplaced
  obtain ⟨hi, hstate, -, hsteady⟩ := hplaced
  have hi' : i ∈ (s.manager.remove i c.pid).slots := h.slots_remove hz ▸ hi
  have hpos : 0 < ((s.manager.remove i c.pid).jobs i).remainingProcesses := by
    have := (h.matched_remove hz).table.remaining i hi'
    omega
  refine ⟨hi', ?_, hpos, h.steady_remove hz hsteady⟩
  rw [JobManager.remove_jobs_self, (removePidFromJob_spec (h.mem_live hz)).state, hstate]

/-- `add_job` adds the one job that is not steady yet. -/
theorem placed_registers {m m' : JobManager} {slot : Fin maxJobs} {pids : List Int} {bg : Bool}
    (hpids : pids ≠ []) (hadds : JobManager.Adds m m' slot (m.newJob (pids.headD 0) pids
      pids.length (if bg then .background else .foreground)))
    (hsteady : ∀ j ∈ m.slots, (m.jobs j).Steady) :
    Placed m' (.started bg m.allocateJid (pids.headD 0) m.added) := by
  obtain ⟨-, rfl⟩ := hadds
  refine ⟨slot, by simp [JobManager.newJob], ?_⟩
  simp only [JobManager.setJob_jobs_self]
  refine ⟨⟨rfl, rfl, rfl⟩, rfl, ?_, fun j hj hjs => ?_⟩
  · have := List.length_pos_of_ne_nil hpids
    show (0 : Int) < pids.length
    omega
  · rw [JobManager.mem_slots] at hj
    simp only [JobManager.setJob_jobs_of_ne _ hjs] at hj ⊢
    exact hsteady j (JobManager.mem_slots.mpr hj)

/-- A move keeps the invariant. The table, the children and the places are right after each of the
moves. -/
theorem move (h : s.Inv) (hmove : s.Move s' es) : s'.Inv := by
  have hplaced := h.placed
  have hmatched := h.matched
  cases hmove with
  | scan hpc hflag =>
      rw [hpc] at hplaced hmatched
      exact ⟨hmatched, fun j hj => ⟨(hplaced j hj).1, fun _ => (hplaced j hj).2⟩⟩
  | unflagged hpc hflag | returns hpc | quits hpc =>
      rw [hpc] at hplaced hmatched
      exact ⟨hmatched, hplaced⟩
  | skip i hpc hunused =>
      rw [hpc] at hplaced hmatched
      refine ⟨hmatched, fun j hj => ⟨(hplaced j hj).1, fun _ => (hplaced j hj).2 ?_⟩⟩
      exact fun hji => hunused (Fin.ext hji ▸ hj)
  | scanned i hpc hlast =>
      rw [hpc] at hplaced hmatched
      exact ⟨hmatched, fun j hj => ⟨(hplaced j hj).1, (hplaced j hj).2 (by omega)⟩⟩
  | prints hpc =>
      rw [hpc] at hplaced hmatched
      exact ⟨hmatched.setDone [], hplaced⟩
  | command n bg hpc hpos hle hfree =>
      rw [hpc] at hplaced hmatched
      exact ⟨hmatched, hplaced, hpos, hle, Nat.zero_le n, hfree⟩
  | forks n bg pids pid hpc hlen hpos hfresh hgroup =>
      rw [hpc] at hplaced hmatched
      obtain ⟨hsteady, hn, hmax, -, hfree⟩ := hplaced
      refine ⟨hmatched.fork hpos hfresh hgroup fun i hi => (hsteady i hi).2, hsteady, hn, hmax, ?_,
        hfree⟩
      rw [List.length_append, List.length_singleton]
      omega
  | registers bg pids hpc hpids m slot hadds hmax =>
      rw [hpc] at hplaced hmatched
      exact ⟨hmatched.add hpids hadds hmax, placed_registers hpids hadds hplaced.1⟩
  | announces jobId pgid serial hpc =>
      rw [hpc] at hplaced hmatched
      refine ⟨hmatched, fun j hj => ?_⟩
      obtain ⟨i, hi, -, hstate, hlive, hsteady⟩ := hplaced
      by_cases hji : j = i
      · exact hji ▸ ⟨hstate, hlive⟩
      · exact hsteady j hj hji
  | waits i pgid serial hi hpc =>
      rw [hpc] at hplaced hmatched
      obtain ⟨k, hk, ⟨hid, -, -⟩, hstate, hlive, hsteady⟩ := hplaced
      obtain rfl := hmatched.table.ids k hk i hi hid
      exact ⟨hmatched, hi, hstate, hlive, hsteady⟩
  | reapsBg i c hpc hz =>
      refine ⟨h.matched_remove hz, ?_⟩
      show Placed _ s.pc
      rw [hpc]
      exact h.placed_reapsBg hpc hz
  | reapsFg i c hpc hz hleft =>
      refine ⟨h.matched_remove hz, ?_⟩
      show Placed _ s.pc
      rw [hpc]
      exact h.placed_reapsFg hpc hz hleft
  | endsFg i c hpc hz hlast =>
      have hi : i ∈ (s.manager.remove i c.pid).slots := h.slots_remove hz ▸ hz.inUse
      have hremoved := h.matched_remove hz
      rw [hpc] at hplaced hremoved
      refine ⟨hremoved.clear hi hlast, fun j hj => ?_⟩
      obtain ⟨hji, hj⟩ := JobManager.mem_slots_clear.mp hj
      rw [JobManager.clear_jobs_of_ne hji]
      exact h.steady_remove hz hplaced.2.2.2 j hj hji
  | leavesBg i hpc hi hrunning hleft =>
      rw [hpc] at hplaced hmatched
      have hpos : 0 < (s.manager.jobs i).remainingProcesses := by
        have := hmatched.table.remaining i hi
        omega
      refine ⟨hmatched, fun j hj => ⟨(hplaced j hj).1, fun _ => ?_⟩⟩
      by_cases hji : j = i
      · exact hji ▸ hpos
      · exact (hplaced j hj).2 fun hval => hji (Fin.ext hval)
  | endsBg i hpc hi hlast =>
      rw [hpc] at hplaced hmatched
      have hqueued := hmatched.enqueueDone ⟨(s.manager.jobs i).serial, (s.manager.jobs i).jobId,
        (s.manager.jobs i).pgid⟩
      refine ⟨hqueued.clear (by simpa using hi) (by simpa using hlast), fun j hj => ?_⟩
      obtain ⟨hji, hj⟩ := JobManager.mem_slots_clear.mp hj
      rw [JobManager.enqueueDone_slots] at hj
      rw [JobManager.clear_jobs_of_ne hji, JobManager.enqueueDone_jobs]
      exact ⟨(hplaced j hj).1, fun _ => (hplaced j hj).2 fun hval => hji (Fin.ext hval)⟩
  | stays => exact h
  | exits pid =>
      refine ⟨hmatched.mapChildren (fun c => ?_) (fun c => ?_), hplaced⟩
      · split <;> rfl
      · split <;> rfl
  | raises => exact ⟨hmatched, hplaced⟩
  | delivers hpending hunblocked => exact ⟨hmatched, hplaced⟩

end Inv

/-- Every state of an orderly run satisfies the invariant. -/
theorem run_inv {as : List ShellAction} (horderly : EveryStep step Orderly init as) {s : Snush}
    {h : List Printed} (hrun : run step init as = some (s, h)) : s.Inv :=
  run_induction_of_steps (I := fun s _ => s.Inv) (P := Orderly) Inv.init
    (fun _ _ _ _ _ hinv ha hstep => hinv.move (hinv.move_of_step ha hstep)) as horderly s h hrun

end Snush

end SysProg.Shell
