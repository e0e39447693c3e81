import SysProg.Proofs.Shell.Snush

/-!
# `SysProg.Proofs.Shell.JobIds`: the job IDs run out

`allocate_jid` adds one to the largest ID in use. When a new background job is always started
before the previous one ends, the IDs never start again at `0`. `exists_run_sole` is the run to a
single job with a given even ID, in the slot `0`. It goes from one job to the next by turns through
the slots `0` and `1`. Behind the largest `int` the sum wraps around, and two jobs get the same ID.

`jobTable_consistent` is the result for the runs in which this does not happen.

The command of each job is `a &`, and the job in the slot `0` has the process `2`, the one in the
slot `1` the process `3`.
-/

set_option autoImplicit false

namespace SysProg.Shell

open SysProg.Lib

/-- `allocate_jid` adds one to the ID of the only job. -/
theorem JobManager.allocateJid_sole {m : JobManager} {i : Fin maxJobs} {k : Nat}
    (hslots : m.slots = {i}) (hid : (m.jobs i).jobId = k) (hk : (k : Int) < intMax) :
    m.allocateJid = (k + 1 : Nat) := by
  have hi : i ∈ m.slots := hslots ▸ Finset.mem_singleton_self i
  have hle : m.maxJid (List.finRange maxJobs) (-1) ≤ k := by
    refine maxJid_le (by omega) fun j _ hj => ?_
    rw [← mem_slots, hslots, Finset.mem_singleton] at hj
    rw [hj, hid]
  have hge := (m.le_maxJid (List.finRange maxJobs) (-1)).2 i
    (List.mem_finRange i) (mem_slots.mp hi)
  rw [hid] at hge
  simp only [intMax] at hk
  rw [allocateJid, le_antisymm hle hge, wrapInt, Int.bmod_eq_of_le (by omega) (by omega)]
  rfl

namespace Snush

/-- A table with jobs in the slots `0` and `1` only. -/
def firstTwo (a b : Job) (i : Fin maxJobs) : Job :=
  if i.val = 0 then a else if i.val = 1 then b else .zero

/-- A job is put into the first of the two slots. -/
theorem update_firstTwo_zero (a b c : Job) :
    Function.update (firstTwo a b) ⟨0, by decide⟩ c = firstTwo c b := by
  funext i
  by_cases hi : i = ⟨0, by decide⟩
  · subst hi
    simp [firstTwo]
  · have hval : i.val ≠ 0 := fun h => hi (Fin.ext h)
    simp [Function.update_of_ne hi, firstTwo, hval]

/-- A job is put into the second of the two slots. -/
theorem update_firstTwo_one (a b c : Job) :
    Function.update (firstTwo a b) ⟨1, by decide⟩ c = firstTwo a c := by
  funext i
  by_cases hi : i = ⟨1, by decide⟩
  · subst hi
    simp [firstTwo]
  · have hval : i.val ≠ 1 := fun h => hi (Fin.ext h)
    simp [Function.update_of_ne hi, firstTwo, hval]

/-- The line `a &`. -/
def backgroundLine : List UInt8 := [97, 32, 38, 10]

/-- There is always memory. -/
def enough : Nat → Bool := fun _ => true

/-- A background job with one process that is left. -/
def running (pid : Int) (k : Nat) : Job := ⟨true, k, pid, 1, 1, [pid], .background, k⟩

/-- The same job with its process removed. -/
def finished (pid : Int) (k : Nat) : Job := ⟨true, k, pid, 1, 0, [-1], .background, k⟩

/-- `add_job` behind the only job. -/
theorem addJob_sole {m : JobManager} {i slot : Fin maxJobs} {k : Nat} (hslots : m.slots = {i})
    (hid : (m.jobs i).jobId = k) (hk : (k : Int) < intMax) (hn : m.nJobs = 1)
    (hadded : m.added = k + 1) (hslot : m.emptySlot = some slot) (pid : Int) :
    m.addJob pid [pid] 1 .background
      = (⟨2, Function.update m.jobs slot (running pid (k + 1)), m.done, k + 2⟩,
        ((k + 1 : Nat) : Int)) := by
  have hnew : m.newJob pid [pid] 1 .background = running pid (k + 1) := by
    rw [JobManager.newJob, JobManager.allocateJid_sole hslots hid hk, hadded]
    rfl
  have hroom : ¬ m.nJobs ≥ maxJobs := by
    rw [hn]
    decide
  rw [JobManager.addJob, if_neg hroom, if_neg (by decide), hslot]
  simp only [hnew, hn, hadded]
  rfl

/-- The shell at the prompt, with the job `k` in the slot `0` only. -/
def soleFirst (k : Nat) : Snush :=
  ⟨⟨1, firstTwo (running 2 k) .zero, [], k + 1⟩, .prompt, false, false, [⟨2, 2, false⟩]⟩

/-- The shell at the prompt, with the job `k` in the slot `1` only. -/
def soleSecond (k : Nat) : Snush :=
  ⟨⟨1, firstTwo .zero (running 3 k), [], k + 1⟩, .prompt, false, false, [⟨3, 3, false⟩]⟩

/-- Only the first slot is in use. -/
theorem slots_first (k : Nat) : (soleFirst k).manager.slots = {⟨0, by decide⟩} := by
  ext i
  rw [JobManager.mem_slots, Finset.mem_singleton, Fin.ext_iff]
  simp only [soleFirst, firstTwo]
  split_ifs with h0 h1
  · simp [running, h0]
  · simp [Job.zero, h0]
  · simp [Job.zero, h0]

/-- Only the second slot is in use. -/
theorem slots_second (k : Nat) : (soleSecond k).manager.slots = {⟨1, by decide⟩} := by
  ext i
  rw [JobManager.mem_slots, Finset.mem_singleton, Fin.ext_iff]
  simp only [soleSecond, firstTwo]
  split_ifs with h0 h1
  · simp [Job.zero, h0]
  · simp [running, h1]
  · simp [Job.zero, h1]

/-! ### From the slot `0` to the slot `1` -/

section First
variable {k : Nat}

/-- A job is added behind the first one. -/
theorem addJob_first (hk : (k : Int) < intMax) :
    (soleFirst k).manager.addJob 3 [3] 1 .background =
      (JobManager.mk 2 (firstTwo (running 2 k) (running 3 (k + 1))) [] (k + 2),
        ((k + 1 : Nat) : Int)) := by
  have hslot : (soleFirst k).manager.emptySlot = some ⟨1, by decide⟩ := rfl
  rw [addJob_sole (slots_first k) rfl hk rfl rfl hslot,
    show (soleFirst k).manager.jobs = firstTwo (running 2 k) .zero from rfl, update_firstTwo_one]
  rfl

/-- The process of the first job exits and is reaped. -/
theorem run_reap_first :
    run step ⟨⟨2, firstTwo (running 2 k) (running 3 (k + 1)), [], k + 2⟩,
        .started true (k + 1 : Nat) 3 (k + 1), false, false, [⟨2, 2, false⟩, ⟨3, 3, false⟩]⟩
      [.advance, .exits 2, .deliver, .advance, .reaped 2]
    = some (⟨⟨2, firstTwo (finished 2 k) (running 3 (k + 1)), [], k + 2⟩, .reap 0, false, false,
        [⟨3, 3, false⟩]⟩, [.running ⟨k + 1, (k + 1 : Nat), 3⟩]) := by
  rw [← update_firstTwo_zero (running 2 k) (running 3 (k + 1)) (finished 2 k)]
  rfl

/-- The first job is deleted. -/
theorem deleteJob_first (done : List DoneJob) :
    JobManager.deleteJob ⟨2, firstTwo (finished 2 k) (running 3 (k + 1)), done, k + 2⟩ k
      = ⟨1, firstTwo .zero (running 3 (k + 1)), done, k + 2⟩ := by
  have hfind : JobManager.findJobByJid
      ⟨2, firstTwo (finished 2 k) (running 3 (k + 1)), done, k + 2⟩ k = some ⟨0, by decide⟩ := by
    simp [JobManager.findJobByJid, List.finRange_succ, maxJobs, firstTwo, finished]
  rw [JobManager.deleteJob, hfind]
  simp only [JobManager.setJob, update_firstTwo_zero]
  rfl

/-- The job in the first slot is deleted and queued, and the one in the second slot stays. -/
theorem step_delete_first :
    step ⟨⟨2, firstTwo (finished 2 k) (running 3 (k + 1)), [], k + 2⟩, .reap 0, false, false,
        [⟨3, 3, false⟩]⟩ .noChild
    = some (⟨⟨1, firstTwo .zero (running 3 (k + 1)), [⟨k, k, 2⟩], k + 2⟩, .reap 1, false, false,
        [⟨3, 3, false⟩]⟩, []) := by
  rw [← deleteJob_first]
  rfl

/-- From a job in the slot `0` to the next one in the slot `1`. -/
theorem exists_run_first (hk : (k : Int) < intMax) :
    ∃ as es, run step (soleFirst k) as = some (soleSecond (k + 1), es) := by
  have hfork : run step (soleFirst k) [.readLine backgroundLine enough, .fork 3]
      = some (⟨(soleFirst k).manager, .forking 1 true [3], false, false,
          [⟨2, 2, false⟩, ⟨3, 3, false⟩]⟩, []) := rfl
  have hadd : run step ⟨(soleFirst k).manager, .forking 1 true [3], false, false,
      [⟨2, 2, false⟩, ⟨3, 3, false⟩]⟩ [.advance]
      = some (⟨⟨2, firstTwo (running 2 k) (running 3 (k + 1)), [], k + 2⟩,
        .started true (k + 1 : Nat) 3 (k + 1), false, false, [⟨2, 2, false⟩, ⟨3, 3, false⟩]⟩,
        []) := by
    rw [run_singleton]
    simp only [step, advance, List.length_singleton, lt_irrefl, if_false, List.headD_cons, if_true,
      addJob_first hk]
    rfl
  have hdelete := (run_singleton _ _).trans (step_delete_first (k := k))
  have hrest : run step ⟨⟨1, firstTwo .zero (running 3 (k + 1)), [⟨k, k, 2⟩], k + 2⟩, .reap 1,
      false, false, [⟨3, 3, false⟩]⟩ (.noChild :: List.replicate 16 .advance)
      = some (soleSecond (k + 1), [.done ⟨k, k, 2⟩]) := rfl
  exact ⟨_, _, run_trans hfork (run_trans hadd (run_trans run_reap_first
    (run_trans hdelete hrest)))⟩

end First

/-! ### From the slot `1` to the slot `0` -/

section Second
variable {k : Nat}

/-- A job is added in front of the second one. -/
theorem addJob_second (hk : (k : Int) < intMax) :
    (soleSecond k).manager.addJob 2 [2] 1 .background =
      (JobManager.mk 2 (firstTwo (running 2 (k + 1)) (running 3 k)) [] (k + 2),
        ((k + 1 : Nat) : Int)) := by
  have hslot : (soleSecond k).manager.emptySlot = some ⟨0, by decide⟩ := rfl
  rw [addJob_sole (slots_second k) rfl hk rfl rfl hslot,
    show (soleSecond k).manager.jobs = firstTwo .zero (running 3 k) from rfl,
    update_firstTwo_zero]
  rfl

/-- The process of the second job exits and is reaped. -/
theorem run_reap_second :
    run step ⟨⟨2, firstTwo (running 2 (k + 1)) (running 3 k), [], k + 2⟩,
        .started true (k + 1 : Nat) 2 (k + 1), false, false, [⟨3, 3, false⟩, ⟨2, 2, false⟩]⟩
      [.advance, .exits 3, .deliver, .advance, .noChild, .reaped 3]
    = some (⟨⟨2, firstTwo (running 2 (k + 1)) (finished 3 k), [], k + 2⟩, .reap 1, false, false,
        [⟨2, 2, false⟩]⟩, [.running ⟨k + 1, (k + 1 : Nat), 2⟩]) := by
  rw [← update_firstTwo_one (running 2 (k + 1)) (running 3 k) (finished 3 k)]
  rfl

/-- The second job is deleted. -/
theorem deleteJob_second (done : List DoneJob) :
    JobManager.deleteJob ⟨2, firstTwo (running 2 (k + 1)) (finished 3 k), done, k + 2⟩ k
      = ⟨1, firstTwo (running 2 (k + 1)) .zero, done, k + 2⟩ := by
  have hfind : JobManager.findJobByJid
      ⟨2, firstTwo (running 2 (k + 1)) (finished 3 k), done, k + 2⟩ k = some ⟨1, by decide⟩ := by
    have hne : ¬ (k : Int) + 1 = k := by omega
    simp [JobManager.findJobByJid, List.finRange_succ, maxJobs, firstTwo, finished, running, hne]
  rw [JobManager.deleteJob, hfind]
  simp only [JobManager.setJob, update_firstTwo_one]
  rfl

/-- The job in the second slot is deleted and queued, and the one in the first slot stays. -/
theorem step_delete_second :
    step ⟨⟨2, firstTwo (running 2 (k + 1)) (finished 3 k), [], k + 2⟩, .reap 1, false, false,
        [⟨2, 2, false⟩]⟩ .noChild
    = some (⟨⟨1, firstTwo (running 2 (k + 1)) .zero, [⟨k, k, 3⟩], k + 2⟩, .reap 2, false, false,
        [⟨2, 2, false⟩]⟩, []) := by
  rw [← deleteJob_second]
  rfl

/-- From a job in the slot `1` to the next one in the slot `0`. -/
theorem exists_run_second (hk : (k : Int) < intMax) :
    ∃ as es, run step (soleSecond k) as = some (soleFirst (k + 1), es) := by
  have hfork : run step (soleSecond k) [.readLine backgroundLine enough, .fork 2]
      = some (⟨(soleSecond k).manager, .forking 1 true [2], false, false,
          [⟨3, 3, false⟩, ⟨2, 2, false⟩]⟩, []) := rfl
  have hadd : run step ⟨(soleSecond k).manager, .forking 1 true [2], false, false,
      [⟨3, 3, false⟩, ⟨2, 2, false⟩]⟩ [.advance]
      = some (⟨⟨2, firstTwo (running 2 (k + 1)) (running 3 k), [], k + 2⟩,
        .started true (k + 1 : Nat) 2 (k + 1), false, false, [⟨3, 3, false⟩, ⟨2, 2, false⟩]⟩,
        []) := by
    rw [run_singleton]
    simp only [step, advance, List.length_singleton, lt_irrefl, if_false, List.headD_cons, if_true,
      addJob_second hk]
    rfl
  have hdelete := (run_singleton _ _).trans (step_delete_second (k := k))
  have hrest : run step ⟨⟨1, firstTwo (running 2 (k + 1)) .zero, [⟨k, k, 3⟩], k + 2⟩, .reap 2,
      false, false, [⟨2, 2, false⟩]⟩ (List.replicate 16 .advance)
      = some (soleFirst (k + 1), [.done ⟨k, k, 3⟩]) := rfl
  exact ⟨_, _, run_trans hfork (run_trans hadd (run_trans run_reap_second
    (run_trans hdelete hrest)))⟩

end Second

/-! ### The last IDs -/

/-- The table at the start. -/
theorem jobs_init : JobManager.init.jobs = firstTwo .zero .zero := by
  funext i
  simp [JobManager.init, firstTwo]

/-- The first job. -/
theorem run_soleFirst_zero :
    run step init [.advance, .advance, .readLine backgroundLine enough, .fork 2, .advance,
      .advance, .advance, .advance] = some (soleFirst 0, [.running ⟨0, 0, 2⟩]) := by
  rw [soleFirst, ← update_firstTwo_zero .zero .zero, ← jobs_init]
  rfl

/-- There is a run to the job `2 * j`, when this is no more than the largest `int`. -/
theorem exists_run_sole (j : Nat) (hj : ((2 * j : Nat) : Int) ≤ intMax) :
    ∃ as es, run step init as = some (soleFirst (2 * j), es) := by
  induction j with
  | zero => exact ⟨_, _, run_soleFirst_zero⟩
  | succ j ih =>
      have hlt : ((2 * j + 1 : Nat) : Int) < intMax := by omega
      obtain ⟨as, es, hrun⟩ := ih (by omega)
      obtain ⟨bs, es', hfirst⟩ := exists_run_first (k := 2 * j) (by omega)
      obtain ⟨cs, es'', hsecond⟩ := exists_run_second hlt
      rw [show 2 * (j + 1) = 2 * j + 1 + 1 by omega]
      exact ⟨_, _, run_trans (run_trans hrun hfirst) hsecond⟩

/-- Start a background job with the process `pid` and return to the prompt. -/
def startJob (pid : Int) : List ShellAction :=
  [.readLine backgroundLine enough, .fork pid, .advance, .advance, .advance, .advance]

/-- Behind the largest `int`, two jobs get the same ID. -/
theorem exists_run_clash : ∃ as s es, run step init as = some (s, es) ∧ s.pc = .prompt ∧
    s.manager.jobs ⟨2, by decide⟩
      = ⟨true, -2147483648, 4, 1, 1, [4], .background, 2147483648⟩ ∧
    s.manager.jobs ⟨3, by decide⟩
      = ⟨true, -2147483648, 5, 1, 1, [5], .background, 2147483649⟩ := by
  obtain ⟨as, es, hrun⟩ := exists_run_sole 1073741823 (by decide)
  have hlast : run step (soleFirst 2147483646) (startJob 3 ++ startJob 4 ++ startJob 5)
      = some (_, _) := rfl
  exact ⟨_, _, _, run_trans hrun hlast, rfl, rfl, rfl⟩

/-! ### The job table in every run -/

/-- In a run in which no job is added while another one has the largest job ID, and no new process
takes the number of a process group in use, the job table is consistent in every state. -/
theorem jobTable_consistent (as : List ShellAction) (horderly : EveryStep step Orderly init as)
    {s : Snush} {h : List Printed} (hrun : run step init as = some (s, h)) : s.Consistent :=
  (run_inv horderly hrun).consistent

/-- Two background jobs are registered, the second one while the first one is in the table. The
process of the first one exits and is reaped, and its job leaves the table. The other job stays, in
the second slot and with its own ID. -/
theorem jobTable_consistent_two : ∃ s, run step init ([.advance, .advance] ++ startJob 2 ++
    startJob 3 ++ [.exits 2, .deliver, .interrupted, .advance, .reaped 2, .noChild])
      = some (s, [.running ⟨0, 0, 2⟩, .running ⟨1, 1, 3⟩]) ∧
    s.manager.slots = {⟨1, by decide⟩} ∧ s.children = [⟨3, 3, false⟩] ∧ s.Consistent := by
  have hrun : run step init ([.advance, .advance] ++ startJob 2 ++ startJob 3 ++
      [.exits 2, .deliver, .interrupted, .advance, .reaped 2, .noChild]) = some (_, _) := rfl
  exact ⟨_, hrun, by decide +kernel, rfl,
    jobTable_consistent _ (everyStep_of_check (by decide +kernel)) hrun⟩

/-- With more than `2 ^ 31` overlapping jobs the table is not consistent. -/
theorem jobTable_not_consistent : ¬ ∀ (as : List ShellAction) (s : Snush) (h : List Printed),
    run step init as = some (s, h) → s.Consistent := by
  intro hall
  obtain ⟨as, s, es, hrun, -, htwo, hthree⟩ := exists_run_clash
  have hids := (hall as s es hrun).ids ⟨2, by decide⟩ (by rw [JobManager.mem_slots, htwo])
    ⟨3, by decide⟩ (by rw [JobManager.mem_slots, hthree]) (by rw [htwo, hthree])
  exact absurd hids (by decide)

end Snush

end SysProg.Shell
