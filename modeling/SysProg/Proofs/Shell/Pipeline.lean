import Mathlib.Algebra.Order.Group.Multiset
import SysProg.Shell.PipelineSpec

/-!
# `SysProg.Proofs.Shell.Pipeline`: the descriptors of a pipeline

* `meets_closeBoth`: both ends of a pipe are closed.
* `meets_stageChild`: a child wires its pipes and waits.
* `meets_forkStages`: the loop of the parent, with its two ways to fail.
* `descriptors_exact`: the tables when the parent returns and when a child runs its command.
-/

set_option autoImplicit false

namespace SysProg.Shell

open Lib Lib.Table

variable {pattern : Pattern} {nCmd i pid k : Nat} {entry t : Table} {l : Local StartEvent}
  {next : Prog StartEvent} {p sync prev cur : Nat × Nat} {a : PipeId} {b : Bool}
  {held : Multiset End} {value : Int} {e : StartEvent}

/-! ### Tables -/

/-- At the entry no descriptor is the write end of a pipe. All of them stand for files, so every
pipe end of a later table is from a pipe of this job. -/
theorem StdTable.noWriter (h : StdTable entry) (fd : Nat) (a : PipeId) :
    entry fd ≠ some (.writer a) := by
  intro hfd
  obtain ⟨name, hname⟩ := h.files fd _ hfd
  cases hname

/-- A free descriptor is above the standard ones, as those are open. So `dup2` to 0 or 1 never hits
an end of a new pipe. -/
theorem StdTable.lt_of_free (h : StdTable entry) (hfree : entry.Free p) : 2 < p.1 ∧ 2 < p.2 := by
  constructor
  · by_contra hle
    exact h.std p.1 (by omega) hfree.fst
  · by_contra hle
    exact h.std p.2 (by omega) hfree.snd

/-! ### Closing -/

/-- The ends of a pipe. -/
def ends (a : PipeId) : List End := [.reader a, .writer a]

/-- Both ends are closed. -/
def closedPipe (l : Local StartEvent) (t : Table) (a : PipeId) : Local StartEvent :=
  { l with table := t, closed := l.closed ++ ends a }

/-- Both ends of a pipe are closed, one after the other. The shell may close those of `sync_pipe`
only behind `add_job`, or in a run in which a call fails. -/
theorem meets_closeBoth (htable : l.table = t.withPipe p a) (hfree : t.Free p)
    (hsync : pid = 0 → a = syncPipe → JobAdded l ∨ ¬ AllSucceed pattern)
    (hnext : next.Meets (startSpec pattern nCmd entry) pattern pid (closedPipe l t a)) :
    (closeBoth p next).Meets (startSpec pattern nCmd entry) pattern pid l := by
  have hfst : l.table p.1 = some (.reader a) := by rw [htable, withPipe_fst hfree.ne]
  have hsnd : (l.close p.1).table p.2 = some (.writer a) := by
    rw [Local.close_eq hfst]
    show l.table.set p.1 none p.2 = _
    rw [htable, set_of_ne _ _ hfree.ne.symm, withPipe_snd]
  refine ⟨⟨.reader a, hfst, fun _ he => by cases he⟩, ⟨.writer a, hsnd, fun hpid he => ?_⟩, ?_⟩
  · rw [Local.close_eq hfst]
    exact hsync hpid (End.writer.inj he)
  · rw [Local.close_close htable hfree]
    exact hnext

/-- The same for a pipe that may not be there. The first stage has none in front of it, and the last
stage has none behind it. -/
theorem meets_closeIf (htable : l.table = t.withPipeIf b p a) (hfree : b = true → t.Free p)
    (hsync : a ≠ syncPipe)
    (hnext : ∀ l', l' = (if b then closedPipe l t a else l) →
      next.Meets (startSpec pattern nCmd entry) pattern pid l') :
    (closeIf b p next).Meets (startSpec pattern nCmd entry) pattern pid l := by
  cases b with
  | true =>
      exact meets_closeBoth htable (hfree rfl) (fun _ ha => absurd ha hsync) (hnext _ rfl)
  | false => exact hnext _ rfl

/-- The pipe of a stage is not `sync_pipe`, which is the first one that is made. So what is said
about the barrier does not touch the pipes of the stages. -/
theorem stagePipe_ne (i : Nat) : stagePipe i ≠ syncPipe := by
  simp [stagePipe, syncPipe]

/-! ### The children -/

/-- A child in front of the barrier, with nothing but its ends of `sync_pipe` besides what it needs
for its command. It closes the write end, reads to the end of the file and closes the read end, and
what is left is the wired table. -/
theorem meets_awaitParent (hpid : 0 < pid) (hi : i < nCmd)
    (htable : l.table = t.withPipe sync syncPipe)
    (hfree : t.Free sync) (hwired : Wired entry nCmd i t)
    (hwriter : ∀ fd, t fd ≠ some (.writer syncPipe)) :
    (awaitParent sync i).Meets (startSpec pattern nCmd entry) pattern pid l := by
  have hsnd : l.table sync.2 = some (.writer syncPipe) := by rw [htable, withPipe_snd]
  have hclose : (l.close sync.2).table = t.set sync.1 (some (.reader syncPipe)) := by
    rw [Local.close_eq hsnd]
    show l.table.set sync.2 none = _
    rw [htable, withPipe, set_set, set_comm hfree.ne, set_none hfree.snd]
  have hfst : (l.close sync.2).table sync.1 = some (.reader syncPipe) := by
    rw [hclose, set_self]
  have hnone : ¬ (l.close sync.2).HasWriter syncPipe := by
    rintro ⟨fd, hfd⟩
    rw [hclose] at hfd
    by_cases heq : fd = sync.1
    · rw [heq, set_self] at hfd
      cases hfd
    · rw [set_of_ne _ _ heq] at hfd
      exact hwriter fd hfd
  have hlast : (((l.close sync.2).readEof syncPipe).close sync.1).table = t := by
    have hfst' : ((l.close sync.2).readEof syncPipe).table sync.1 = some (.reader syncPipe) := hfst
    rw [Local.close_eq hfst']
    show (l.close sync.2).table.set sync.1 none = t
    rw [hclose, set_set, set_none hfree.fst]
  have heof : syncPipe ∈ (((l.close sync.2).readEof syncPipe).close sync.1).eofs := by
    have hfst' : ((l.close sync.2).readEof syncPipe).table sync.1 = some (.reader syncPipe) := hfst
    rw [Local.close_eq hfst']
    exact List.mem_append_right _ List.mem_cons_self
  have hne : pid ≠ 0 := by omega
  refine ⟨⟨_, hsnd, fun h => absurd h hne⟩, ⟨hpid, hfst, hnone⟩, syncPipe, hfst,
    ⟨_, hfst, fun h => absurd h hne⟩, ⟨hpid, hi, ?_, heof⟩, ?_, fun h => absurd h hne, fun _ =>
    ⟨i, List.mem_append_right _ List.mem_cons_self⟩⟩
  · rw [hlast]
    exact hwired
  · rintro ⟨fd, hfd⟩
    rw [show ((((l.close sync.2).readEof syncPipe).close sync.1).emit (.run i)).table = t
      from hlast] at hfd
    exact hwriter fd hfd

/-- The descriptors of the parent, with the pipes that are there. -/
def heldTable (entry : Table) (i : Nat) (b c : Bool) (sync prev cur : Nat × Nat) : Table :=
  ((entry.withPipe sync syncPipe).withPipeIf b prev (stagePipe (i - 1))).withPipeIf c cur
    (stagePipe i)

/-- The pipes that are there have descriptors of their own. -/
structure Distinct (entry : Table) (b c : Bool) (sync prev cur : Nat × Nat) : Prop where
  freeSync : entry.Free sync
  freePrev : b = true → entry.Free prev
  freeCur : c = true → entry.Free cur
  syncPrev : b = true → Apart sync prev
  syncCur : c = true → Apart sync cur
  prevCur : b = true → c = true → Apart prev cur

/-- One end is duplicated to a standard descriptor, and both are closed. What is left of the pipe is
the standard descriptor. -/
theorem meets_dup2 {old new : Nat} {e : End} (hpid : 0 < pid) (htable : l.table = t.withPipe p a)
    (hfree : t.Free p) (hold : t.withPipe p a old = some e) (hfst : p.1 ≠ new) (hsnd : p.2 ≠ new)
    (hnext : ∀ l', l'.table = t.set new (some e) →
      next.Meets (startSpec pattern nCmd entry) pattern pid l') :
    (Prog.dup2 old new (closeBoth p next)).Meets (startSpec pattern nCmd entry) pattern pid l := by
  have hne : pid ≠ 0 := by omega
  have hdup : (l.dup2 old new).table = (t.set new (some e)).withPipe p a := by
    show l.table.set new (l.table old) = _
    rw [htable, hold, withPipe_set hfst hsnd]
  exact ⟨hpid, by rw [htable, hold]; exact Option.some_ne_none e,
    meets_closeBoth hdup (hfree.set hfst hsnd _) (fun h => absurd h hne) (hnext _ rfl)⟩

/-- The standard input of a child. -/
def stdinTable (t : Table) (i : Nat) : Table :=
  if i > 0 then t.set 0 (some (.reader (stagePipe (i - 1)))) else t

/-- The standard output of a child. -/
def stdoutTable (t : Table) (nCmd i : Nat) : Table :=
  if i < nCmd - 1 then t.set 1 (some (.writer (stagePipe i))) else t

/-- The child takes its standard input from the pipe in front of its stage. The first stage leaves
it as it is. -/
theorem meets_stdinFrom (hpid : 0 < pid)
    (htable : l.table = t.withPipeIf (decide (i > 0)) prev (stagePipe (i - 1)))
    (hfree : decide (i > 0) = true → t.Free prev ∧ 2 < prev.1 ∧ 2 < prev.2)
    (hnext : ∀ l', l'.table = stdinTable t i →
      next.Meets (startSpec pattern nCmd entry) pattern pid l') :
    (stdinFrom i prev next).Meets (startSpec pattern nCmd entry) pattern pid l := by
  unfold stdinFrom
  unfold stdinTable at hnext
  by_cases hi : i > 0
  · rw [decide_eq_true hi] at htable
    obtain ⟨hfree, hfst, hsnd⟩ := hfree (decide_eq_true hi)
    rw [if_pos hi] at hnext ⊢
    exact meets_dup2 hpid htable hfree (withPipe_fst hfree.ne t _) (by omega) (by omega) hnext
  · rw [decide_eq_false hi] at htable
    rw [if_neg hi] at hnext ⊢
    exact hnext l htable

/-- The child sends its standard output to the pipe behind its stage. The last stage leaves it as it
is. -/
theorem meets_stdoutTo (hpid : 0 < pid)
    (htable : l.table = t.withPipeIf (decide (i < nCmd - 1)) cur (stagePipe i))
    (hfree : decide (i < nCmd - 1) = true → t.Free cur ∧ 2 < cur.1 ∧ 2 < cur.2)
    (hnext : ∀ l', l'.table = stdoutTable t nCmd i →
      next.Meets (startSpec pattern nCmd entry) pattern pid l') :
    (stdoutTo nCmd i cur next).Meets (startSpec pattern nCmd entry) pattern pid l := by
  unfold stdoutTo
  unfold stdoutTable at hnext
  by_cases hi : i < nCmd - 1
  · rw [decide_eq_true hi] at htable
    obtain ⟨hfree, hfst, hsnd⟩ := hfree (decide_eq_true hi)
    rw [if_pos hi] at hnext ⊢
    exact meets_dup2 hpid htable hfree (withPipe_snd t cur _) (by omega) (by omega) hnext
  · rw [decide_eq_false hi] at htable
    rw [if_neg hi] at hnext ⊢
    exact hnext l htable

/-- The new standard input leaves a pipe alone whose descriptors are above 2. So the order in which
the table is built does not matter. -/
theorem stdinTable_withPipe (hfst : 2 < p.1) (hsnd : 2 < p.2) (t : Table) (a : PipeId) :
    stdinTable (t.withPipe p a) i = (stdinTable t i).withPipe p a := by
  unfold stdinTable
  split
  · exact withPipe_set (by omega) (by omega) t a _
  · rfl

/-- The same for a pipe that may not be there. -/
theorem stdinTable_withPipeIf (h : b = true → 2 < p.1 ∧ 2 < p.2) (t : Table) (a : PipeId) :
    stdinTable (t.withPipeIf b p a) i = (stdinTable t i).withPipeIf b p a := by
  cases b with
  | true => exact stdinTable_withPipe (h rfl).1 (h rfl).2 t a
  | false => rfl

/-- The new standard output leaves such a pipe alone too. -/
theorem stdoutTable_withPipe (hfst : 2 < p.1) (hsnd : 2 < p.2) (t : Table) (a : PipeId) :
    stdoutTable (t.withPipe p a) nCmd i = (stdoutTable t nCmd i).withPipe p a := by
  unfold stdoutTable
  split
  · exact withPipe_set (by omega) (by omega) t a _
  · rfl

/-- The new standard input takes no free descriptor. It is number 0, and the free ones are above 2.
-/
theorem free_stdinTable (h : t.Free p) (hfst : 2 < p.1) (hsnd : 2 < p.2) :
    (stdinTable t i).Free p := by
  unfold stdinTable
  split
  · exact h.set (by omega) (by omega) _
  · exact h

/-- The standard descriptors do not touch the free ones. Behind 2 the table of the child is that of
the fork. -/
theorem stdTables_of_lt {fd : Nat} (h : 2 < fd) (t : Table) :
    stdoutTable (stdinTable t i) nCmd i fd = t fd := by
  unfold stdoutTable stdinTable
  split <;> split <;> simp only [set_of_ne _ _ (show fd ≠ 0 by omega),
    set_of_ne _ _ (show fd ≠ 1 by omega)]

/-- A child whose standard input and output are set is wired. The three fields are the two
descriptors and all others. -/
theorem wired_stdTables (hi : i < nCmd) :
    Wired entry nCmd i (stdoutTable (stdinTable entry i) nCmd i) where
  stdin := by
    have hout : stdoutTable (stdinTable entry i) nCmd i 0 = stdinTable entry i 0 := by
      unfold stdoutTable
      split
      · exact set_of_ne _ _ (by decide)
      · rfl
    rw [hout, stdinTable]
    by_cases hzero : i = 0
    · rw [if_neg (by omega), if_pos hzero]
    · rw [if_pos (by omega), if_neg hzero, set_self]
  stdout := by
    have hin : stdinTable entry i 1 = entry 1 := by
      unfold stdinTable
      split
      · exact set_of_ne _ _ (by decide)
      · rfl
    rw [stdoutTable]
    by_cases hlast : i = nCmd - 1
    · rw [if_neg (by omega), if_pos hlast, hin]
    · rw [if_pos (by omega), if_neg hlast, set_self]
  others := by
    intro fd h₀ h₁
    unfold stdoutTable stdinTable
    split <;> split <;> simp only [set_of_ne _ _ h₀, set_of_ne _ _ h₁]

/-- No end of `sync_pipe` is left in a wired table. Its ends of pipes are those of the stages, and
the rest is as at the entry. -/
theorem Wired.noWriter (hentry : StdTable entry) (h : Wired entry nCmd i t) (fd : Nat) :
    t fd ≠ some (.writer syncPipe) := by
  intro hfd
  by_cases h₀ : fd = 0
  · rw [h₀, h.stdin] at hfd
    split at hfd
    · exact hentry.noWriter 0 _ hfd
    · cases hfd
  · by_cases h₁ : fd = 1
    · rw [h₁, h.stdout] at hfd
      split at hfd
      · exact hentry.noWriter 1 _ hfd
      · exact stagePipe_ne i (End.writer.inj (Option.some.inj hfd))
    · rw [h.others fd h₀ h₁] at hfd
      exact hentry.noWriter fd _ hfd

/-- The child wires its pipes, from the table at the fork. It unblocks its signals, sets its
standard input and output, and then it waits at the barrier. -/
theorem meets_stageChild (hentry : StdTable entry)
    (hd : Distinct entry (decide (i > 0)) (decide (i < nCmd - 1)) sync prev cur) (hpid : 0 < pid)
    (hi : i < nCmd) (pgid : Nat) :
    (stageChild nCmd i sync prev cur pgid).Meets (startSpec pattern nCmd entry) pattern pid
      (.start (heldTable entry i (decide (i > 0)) (decide (i < nCmd - 1)) sync prev cur)) := by
  have hsync := hentry.lt_of_free hd.freeSync
  refine ⟨trivial, trivial, trivial, trivial, ?_⟩
  refine meets_stdinFrom (t := (entry.withPipe sync syncPipe).withPipeIf (decide (i < nCmd - 1)) cur
    (stagePipe i)) hpid (withPipeIf_swap hd.prevCur _ _ _) (fun h => ?_) fun l₁ hl₁ => ?_
  · exact ⟨((hd.freePrev h).withPipe (hd.syncPrev h).symm _).withPipeIf (hd.prevCur h) _,
      hentry.lt_of_free (hd.freePrev h)⟩
  rw [stdinTable_withPipeIf fun h => hentry.lt_of_free (hd.freeCur h),
    stdinTable_withPipe hsync.1 hsync.2] at hl₁
  refine meets_stdoutTo hpid hl₁ (fun h => ?_) fun l₂ hl₂ => ?_
  · have hcur := hentry.lt_of_free (hd.freeCur h)
    exact ⟨(free_stdinTable (hd.freeCur h) hcur.1 hcur.2).withPipe (hd.syncCur h).symm _, hcur⟩
  rw [stdoutTable_withPipe hsync.1 hsync.2] at hl₂
  refine meets_awaitParent hpid hi hl₂ ⟨hd.freeSync.ne, ?_, ?_⟩ (wired_stdTables hi)
    ((wired_stdTables hi).noWriter hentry)
  · rw [stdTables_of_lt hsync.1, hd.freeSync.fst]
  · rw [stdTables_of_lt hsync.2, hd.freeSync.snd]

/-! ### The parent -/

/-- The parent before the job is registered. It has made `k` children, and it holds the ends in
`held`. -/
structure Parent (l : Local StartEvent) (t : Table) (k : Nat) (held : Multiset End) : Prop where
  table : l.table = t
  children : l.children.length = k
  balance : (l.opened : Multiset End) = l.closed + held
  unregistered : ¬ JobAdded l

/-- `add_job` is no other event. So an event of another kind does not register the job. -/
theorem not_jobAdded_emit (h : ¬ JobAdded l)
    (he : ∀ pgid pids isBackground, e ≠ .addJob pgid pids isBackground) :
    ¬ JobAdded (l.emit e) := by
  rintro ⟨pgid, pids, isBackground, hmem⟩
  rcases List.mem_append.mp hmem with hmem | hmem
  · exact h ⟨pgid, pids, isBackground, hmem⟩
  · exact he _ _ _ (List.mem_singleton.mp hmem).symm

/-- An event of the parent other than `add_job` changes neither its descriptors nor its children. -/
theorem Parent.emit (h : Parent l t k held)
    (he : ∀ pgid pids isBackground, e ≠ .addJob pgid pids isBackground) :
    Parent (l.emit e) t k held :=
  ⟨h.table, h.children, h.balance, not_jobAdded_emit h.unregistered he⟩

/-- The parent closes a pipe. Both of its ends go from those that it holds to those that it has
closed. -/
theorem Parent.closedPipe (h : Parent l (t.withPipe p a) k (ends a + held)) :
    Parent (closedPipe l t a) t k held where
  table := rfl
  children := h.children
  balance := by
    show (l.opened : Multiset End) = ((l.closed ++ ends a : List End) : Multiset End) + held
    rw [h.balance, ← add_assoc, Multiset.coe_add]
  unregistered := h.unregistered

/-- The ends of a pipe that may not be there. -/
def endsIf (b : Bool) (a : PipeId) : Multiset End := if b then ends a else 0

/-- The ends of the parent, with the pipes that are there. -/
def heldEnds (i : Nat) (b c : Bool) : Multiset End :=
  ends syncPipe + (endsIf b (stagePipe (i - 1)) + (endsIf c (stagePipe i) + 0))

/-- The same for a pipe that may not be there. Then there are no ends to move. -/
theorem Parent.closedPipeIf (h : Parent l (t.withPipeIf b p a) k (endsIf b a + held)) :
    Parent (if b then Shell.closedPipe l t a else l) t k held := by
  cases b with
  | true => exact h.closedPipe
  | false =>
      rw [endsIf, if_neg Bool.false_ne_true, zero_add] at h
      exact h

/-- The parent opens a pipe. The two ends are in its table, and it holds them until it closes them.
-/
theorem Parent.openPipe {r w : Nat} (h : Parent l t k held) :
    Parent (l.openPipe 0 r w) (t.withPipe (r, w) ⟨0, l.pipeCalls⟩) k
      (ends ⟨0, l.pipeCalls⟩ + held) where
  table := by
    show l.table.withPipe _ _ = _
    rw [h.table]
  children := h.children
  balance := by
    show ((l.opened ++ ends ⟨0, l.pipeCalls⟩ : List End) : Multiset End) = l.closed + _
    rw [← Multiset.coe_add, h.balance, add_assoc, add_comm held]
  unregistered := h.unregistered

/-- The pipe of the stage `i`. It is the call of `pipe` behind that of `sync_pipe` and those of the
`i` stages in front, so its number is `i + 1`. -/
theorem Parent.openStage {r w : Nat}
    (h : Parent l ((entry.withPipe sync syncPipe).withPipeIf b prev (stagePipe (i - 1))) k
      (ends syncPipe + endsIf b (stagePipe (i - 1))))
    (hcalls : l.pipeCalls = i + 1) :
    Parent (l.openPipe 0 r w) (heldTable entry i b true sync prev (r, w)) k
      (heldEnds i b true) := by
  have hopen := h.openPipe (r := r) (w := w)
  rw [hcalls] at hopen
  refine ⟨hopen.table, hopen.children, hopen.balance.trans (congrArg _ ?_), hopen.unregistered⟩
  show (ends (stagePipe i) : Multiset End) + (ends syncPipe + _)
    = ends syncPipe + (_ + (ends (stagePipe i) + 0))
  rw [add_zero]
  ac_rfl

/-- Nothing changes when the function returns. The event is the return itself. -/
theorem Returns.emit (h : Returns pattern nCmd entry l value) :
    Returns pattern nCmd entry (l.emit (.ret value)) value where
  table := h.table
  balance := h.balance
  unblocked sig := by
    show blockedAfter sig (l.events ++ [.ret value]) = false
    rw [blockedAfter, List.foldl_append]
    exact h.unblocked sig
  started hn hall := by
    obtain ⟨hlength, hregistered⟩ := h.started hn hall
    refine ⟨hlength, fun pid hpid => ?_⟩
    obtain ⟨pgid, pids, bg, hmem, hpids⟩ := hregistered pid hpid
    exact ⟨pgid, pids, bg, List.mem_append_left _ hmem, hpids⟩
  failed hn i hi := by
    obtain ⟨hvalue, hadded, hlength⟩ := h.failed hn i hi
    exact ⟨hvalue, not_jobAdded_emit hadded (by simp), hlength⟩

/-- The function returns, and that is all. What it needs is `Returns` in front of it. -/
theorem meets_ret (hentry : StdTable entry) (h : Returns pattern nCmd entry l value) :
    (Prog.emit (.ret value) .done).Meets (startSpec pattern nCmd entry) pattern 0 l := by
  refine ⟨⟨rfl, h⟩, ?_, fun _ => ⟨value, List.mem_append_right _ List.mem_cons_self, h.emit⟩,
    fun h => absurd h (Nat.lt_irrefl 0)⟩
  rintro ⟨fd, hfd⟩
  exact hentry.noWriter fd _ (h.table ▸ hfd)

/-- An error message, when nothing is open any more. The function returns `-1` behind it, and the
signals are not blocked. -/
theorem Parent.meets_fail (h : Parent l entry k 0) (hentry : StdTable entry)
    (hunblocked : ∀ sig, blockedAfter sig l.events = false)
    (hall : nCmd ≤ maxProcPerJob → ¬ AllSucceed pattern)
    (hk : nCmd ≤ maxProcPerJob → ∀ i, FailsAt pattern nCmd i → k = i) (error : ErrorPrint) :
    (Prog.emit (.error error) (.emit (.ret (-1)) .done)).Meets (startSpec pattern nCmd entry)
      pattern 0 l := by
  have hemit := h.emit (e := .error error) (by simp)
  refine ⟨trivial, meets_ret hentry ⟨h.table, ?_, fun sig => ?_,
    fun hn hsucceed => absurd hsucceed (hall hn),
    fun hn i hi => ⟨rfl, hemit.unregistered, h.children.trans (hk hn i hi)⟩⟩⟩
  · have hbalance := h.balance
    rw [add_zero] at hbalance
    exact (Multiset.coe_eq_coe.mp hbalance).symm
  · show blockedAfter sig (l.events ++ [.error error]) = false
    rw [blockedAfter, List.foldl_append]
    exact hunblocked sig

/-- The failure exits of the loop, behind the closing. They unblock the two signals that were
blocked before the first fork, and then they are as in `meets_fail`. -/
theorem Parent.meets_unblock_fail (h : Parent l entry k 0) (hentry : StdTable entry)
    (hall : ¬ AllSucceed pattern)
    (hk : nCmd ≤ maxProcPerJob → ∀ i, FailsAt pattern nCmd i → k = i) :
    (blockSignals false fail).Meets (startSpec pattern nCmd entry) pattern 0 l := by
  refine ⟨trivial, trivial, Parent.meets_fail ((h.emit (by simp)).emit (by simp)) hentry
    (fun sig => ?_) (fun _ => hall) hk _⟩
  show blockedAfter sig (l.events ++ [.block .sigchld false] ++ [.block .sigint false]) = false
  rw [blockedAfter, List.foldl_append, List.foldl_append]
  cases sig <;> rfl

/-- The first failure is at one stage only. The stages in front of it start. -/
theorem FailsAt.unique {i' : Nat} (h : FailsAt pattern nCmd i) (h' : FailsAt pattern nCmd i') :
    i = i' := by
  rcases Nat.lt_trichotomy i i' with hlt | heq | hlt
  · exact absurd (h'.before i hlt) h.fails
  · exact heq
  · exact absurd (h.before i' hlt) h'.fails

/-- If a stage fails, not all calls succeed. Its `pipe` or its `fork` is a call too. -/
theorem FailsAt.not_allSucceed (h : FailsAt pattern nCmd i) : ¬ AllSucceed pattern :=
  fun hall => h.fails ⟨fun _ => (hall 0 (i + 1)).1, (hall 0 i).2⟩

/-- A failure at the stage `i`: all pipes that are there are closed. These are `sync_pipe` and at
most two pipes of stages, and what the parent holds is then empty. -/
theorem Parent.meets_failed {c : Bool} (hentry : StdTable entry)
    (hd : Distinct entry b c sync prev cur)
    (h : Parent l (heldTable entry i b c sync prev cur) i (heldEnds i b c))
    (hfails : FailsAt pattern nCmd i) :
    (closeBoth sync (closeIf b prev (closeIf c cur (blockSignals false fail)))).Meets
      (startSpec pattern nCmd entry) pattern 0 l := by
  have hsync : heldTable entry i b c sync prev cur
      = ((entry.withPipeIf c cur (stagePipe i)).withPipeIf b prev
          (stagePipe (i - 1))).withPipe sync syncPipe := by
    rw [heldTable, withPipeIf_comm hd.syncPrev, withPipeIf_comm hd.syncCur,
      withPipeIf_swap hd.prevCur]
  rw [hsync] at h
  refine meets_closeBoth h.table
    ((hd.freeSync.withPipeIf hd.syncCur _).withPipeIf hd.syncPrev _)
    (fun _ _ => Or.inr hfails.not_allSucceed) ?_
  have h₁ := h.closedPipe
  refine meets_closeIf h₁.table (fun hb => (hd.freePrev hb).withPipeIf (hd.prevCur hb) _)
    (stagePipe_ne _) fun l₂ hl₂ => ?_
  have h₂ := h₁.closedPipeIf
  rw [← hl₂] at h₂
  refine meets_closeIf h₂.table hd.freeCur (stagePipe_ne _) fun l₃ hl₃ => ?_
  have h₃ := h₂.closedPipeIf
  rw [← hl₃] at h₃
  exact h₃.meets_unblock_fail hentry hfails.not_allSucceed fun _ i' hi' => hfails.unique hi'

/-- The barrier falls, and the function returns. The parent closes both ends of `sync_pipe` behind
`add_job` and unblocks the signals. Then it prints a background job, or it waits for the one in the
foreground. -/
theorem meets_release (hentry : StdTable entry) (hfree : entry.Free sync)
    (htable : l.table = entry.withPipe sync syncPipe)
    (hbalance : (l.opened : Multiset End) = l.closed + ends syncPipe)
    (hchildren : l.children.length = nCmd) (hadded : ∃ pgid isBackground,
      .addJob pgid l.children isBackground ∈ l.events)
    (hstarts : ∀ i, ¬ FailsAt pattern nCmd i) (isBackground : Bool) (jobId : Int) :
    (release sync isBackground jobId).Meets (startSpec pattern nCmd entry) pattern 0 l := by
  obtain ⟨pgid, bg, hmem⟩ := hadded
  refine meets_closeBoth htable hfree (fun _ _ => Or.inl ⟨pgid, _, bg, hmem⟩) ⟨trivial, trivial,
    ?_, meets_ret hentry ⟨rfl, ?_, fun sig => ?_, fun _ _ => ⟨hchildren, fun pid hpid =>
      ⟨pgid, l.children, bg, ?_, hpid⟩⟩, fun _ i hi => absurd hi (hstarts i)⟩⟩
  · cases isBackground <;> trivial
  · rw [Multiset.coe_add] at hbalance
    exact (Multiset.coe_eq_coe.mp hbalance).symm
  · show blockedAfter sig (l.events ++ [.block .sigchld false] ++ [.block .sigint false]
      ++ [if isBackground then .printJob jobId else .waitFg jobId]) = false
    rw [blockedAfter, List.foldl_append, List.foldl_append, List.foldl_append]
    cases sig <;> cases isBackground <;> rfl
  · exact List.mem_append_left _ (List.mem_append_left _ (List.mem_append_left _ hmem))

/-- The shell has the write end of `sync_pipe` while it makes the stages. A child that waits for the
end of the file does not get it yet. -/
theorem hasWriter_heldTable {c : Bool} (hd : Distinct entry b c sync prev cur) :
    heldTable entry i b c sync prev cur sync.2 = some (.writer syncPipe) := by
  rw [heldTable, withPipeIf_of_ne fun hc => ⟨(hd.syncCur hc).snd_fst, (hd.syncCur hc).snd_snd⟩,
    withPipeIf_of_ne fun hb => ⟨(hd.syncPrev hb).snd_fst, (hd.syncPrev hb).snd_snd⟩, withPipe_snd]

/-- One fork. The parent goes on with the child made, or it fails and closes what is there. The
child starts with the same table, and `meets_stageChild` is about it. -/
theorem meets_forkStage {next : Nat → Prog StartEvent} (hentry : StdTable entry)
    (hd : Distinct entry (decide (i > 0)) (decide (i < nCmd - 1)) sync prev cur) (hi : i < nCmd)
    (h : Parent l (heldTable entry i (decide (i > 0)) (decide (i < nCmd - 1)) sync prev cur) i
      (heldEnds i (decide (i > 0)) (decide (i < nCmd - 1))))
    (hforks : l.forkCalls = i) (hpipe₀ : pattern.pipe 0 0 = true)
    (hpipe : i < nCmd - 1 → pattern.pipe 0 (i + 1) = true)
    (hstarts : ∀ k, k < i → StageStarts pattern nCmd k) (pgid : Nat)
    (hnext : ∀ pid, StageStarts pattern nCmd i →
      (next pid).Meets (startSpec pattern nCmd entry) pattern 0 (l.fork pid)) :
    (forkStage nCmd i sync prev cur pgid next).Meets (startSpec pattern nCmd entry) pattern 0
      l := by
  refine ⟨⟨rfl, ⟨sync.2, by rw [h.table, hasWriter_heldTable hd]⟩, hforks.trans h.children.symm,
    ?_⟩, fun hfork pid hpid => ⟨?_, ?_⟩, fun hfork => ?_⟩
  · rw [h.children]
    exact hpipe
  · rw [h.table]
    exact meets_stageChild hentry hd hpid hi pgid
  · rw [hforks] at hfork
    exact hnext pid ⟨hpipe, hfork⟩
  · rw [hforks] at hfork
    refine Parent.meets_failed hentry hd ⟨h.table, h.children, h.balance, h.unregistered⟩
      ⟨hi, hpipe₀, hstarts, fun hstart => ?_⟩
    rw [hstart.2] at hfork
    cases hfork

/-- What the parent does with a child that is made: the pipe in front of the stage is closed, and
the one behind it is kept for the next stage. There is no such pipe behind the last stage. -/
theorem meets_parent
    (hd : Distinct entry (decide (i > 0)) (decide (i < nCmd - 1)) sync prev cur)
    (h : Parent l (heldTable entry i (decide (i > 0)) (decide (i < nCmd - 1)) sync prev cur)
      (i + 1) (heldEnds i (decide (i > 0)) (decide (i < nCmd - 1))))
    (hnext : ∀ l', Parent l' ((entry.withPipe sync syncPipe).withPipeIf
        (decide (i + 1 > 0) && decide (i + 1 < nCmd)) (if i < nCmd - 1 then cur else prev)
        (stagePipe (i + 1 - 1))) (i + 1)
        (ends syncPipe + endsIf (decide (i + 1 > 0) && decide (i + 1 < nCmd))
          (stagePipe (i + 1 - 1))) →
      l'.children = l.children → l'.pipeCalls = l.pipeCalls → l'.forkCalls = l.forkCalls →
      next.Meets (startSpec pattern nCmd entry) pattern 0 l') :
    (closeIf (decide (i > 0)) prev next).Meets (startSpec pattern nCmd entry) pattern 0 l := by
  rw [heldTable, heldEnds, withPipeIf_swap hd.prevCur, add_left_comm] at h
  refine meets_closeIf h.table (fun hb => ((hd.freePrev hb).withPipe (hd.syncPrev hb).symm
    _).withPipeIf (hd.prevCur hb) _) (stagePipe_ne _) fun l' hl' => ?_
  have hclosed := h.closedPipeIf
  rw [← hl', add_zero] at hclosed
  have hlast : (decide (i + 1 > 0) && decide (i + 1 < nCmd)) = decide (i < nCmd - 1) := by
    rw [decide_eq_true (Nat.succ_pos i), Bool.true_and, decide_eq_decide]
    omega
  refine hnext l' ?_ ?_ ?_ ?_
  · rw [hlast, Nat.add_sub_cancel]
    by_cases hc : i < nCmd - 1
    · rw [if_pos hc]
      exact hclosed
    · rw [decide_eq_false hc] at hclosed ⊢
      exact hclosed
  all_goals
    rw [hl']
    split <;> rfl

/-- One stage: the fork, and what the parent does behind it. The group of the job is the first
child. -/
theorem meets_stage {next : Nat → Prog StartEvent} (hentry : StdTable entry)
    (hd : Distinct entry (decide (i > 0)) (decide (i < nCmd - 1)) sync prev cur) (hi : i < nCmd)
    (h : Parent l (heldTable entry i (decide (i > 0)) (decide (i < nCmd - 1)) sync prev cur) i
      (heldEnds i (decide (i > 0)) (decide (i < nCmd - 1))))
    (hforks : l.forkCalls = i) (hpipe₀ : pattern.pipe 0 0 = true)
    (hpipe : i < nCmd - 1 → pattern.pipe 0 (i + 1) = true)
    (hstarts : ∀ k, k < i → StageStarts pattern nCmd k) (pgid : Nat)
    (hnext : ∀ pid l', StageStarts pattern nCmd i →
      Parent l' ((entry.withPipe sync syncPipe).withPipeIf
        (decide (i + 1 > 0) && decide (i + 1 < nCmd)) (if i < nCmd - 1 then cur else prev)
        (stagePipe (i + 1 - 1))) (i + 1)
        (ends syncPipe + endsIf (decide (i + 1 > 0) && decide (i + 1 < nCmd))
          (stagePipe (i + 1 - 1))) →
      l'.children = l.children ++ [pid] → l'.pipeCalls = l.pipeCalls → l'.forkCalls = i + 1 →
      (next pid).Meets (startSpec pattern nCmd entry) pattern 0 l') :
    (forkStage nCmd i sync prev cur pgid fun pid =>
      .emit (.setpgid pid (if i = 0 then pid else pgid)) <| closeIf (i > 0) prev <|
        next pid).Meets (startSpec pattern nCmd entry) pattern 0 l := by
  refine meets_forkStage hentry hd hi h hforks hpipe₀ hpipe hstarts pgid
    fun pid hstart => ⟨trivial, ?_⟩
  have hmade : Parent ((l.fork pid).emit (.setpgid pid (if i = 0 then pid else pgid)))
      (heldTable entry i (decide (i > 0)) (decide (i < nCmd - 1)) sync prev cur) (i + 1)
      (heldEnds i (decide (i > 0)) (decide (i < nCmd - 1))) := by
    refine Parent.emit ⟨h.table, ?_, h.balance, h.unregistered⟩ (by simp)
    show (l.children ++ [pid]).length = i + 1
    rw [List.length_append, h.children, List.length_singleton]
  exact meets_parent hd hmade fun l' h' hchildren hpipes hforks' => hnext pid l' hstart h'
    hchildren hpipes (hforks'.trans (congrArg (· + 1) hforks))

/-- The loop of the parent. Induction on the number of stages that are left. In front of each stage
the parent holds `sync_pipe` and the pipe to the stage, if it is not the first one. -/
theorem meets_forkStages (hentry : StdTable entry) (hsync : entry.Free sync)
    (hpipe₀ : pattern.pipe 0 0 = true) (isBackground : Bool) (jobId : Int) (left pgid : Nat)
    (hleft : i + left = nCmd)
    (hprev : i > 0 → i < nCmd → entry.Free prev ∧ Apart sync prev)
    (h : Parent l ((entry.withPipe sync syncPipe).withPipeIf (decide (i > 0) && decide (i < nCmd))
      prev (stagePipe (i - 1))) i
      (ends syncPipe + endsIf (decide (i > 0) && decide (i < nCmd)) (stagePipe (i - 1))))
    (hpipes : i < nCmd → l.pipeCalls = i + 1) (hforks : l.forkCalls = i)
    (hstarts : ∀ k, k < i → StageStarts pattern nCmd k) :
    (forkStages nCmd isBackground jobId sync left i prev cur pgid l.children).Meets
      (startSpec pattern nCmd entry) pattern 0 l := by
  induction left generalizing i prev cur pgid l with
  | zero =>
      obtain rfl : i = nCmd := hleft
      rw [decide_eq_false (lt_irrefl i), Bool.and_false] at h
      refine ⟨⟨rfl, rfl⟩, meets_release (l := l.emit _) hentry hsync h.table ?_ h.children
        ⟨pgid, isBackground, List.mem_append_right _ List.mem_cons_self⟩
        (fun k hk => hk.fails (hstarts k hk.lt)) _ _⟩
      have hbalance := h.balance
      rwa [endsIf, if_neg Bool.false_ne_true, add_zero] at hbalance
  | succ left ih =>
      have hi : i < nCmd := by omega
      rw [decide_eq_true hi, Bool.and_true] at h
      -- The fork, and what is left of the loop behind it.
      have hfork : ∀ (cur : Nat × Nat) (l' : Local StartEvent),
          Distinct entry (decide (i > 0)) (decide (i < nCmd - 1)) sync prev cur →
          Parent l' (heldTable entry i (decide (i > 0)) (decide (i < nCmd - 1)) sync prev cur) i
            (heldEnds i (decide (i > 0)) (decide (i < nCmd - 1))) →
          l'.children = l.children → l'.forkCalls = i → (i + 1 < nCmd → l'.pipeCalls = i + 2) →
          (i < nCmd - 1 → pattern.pipe 0 (i + 1) = true) →
          (forkStage nCmd i sync prev cur pgid fun pid =>
            .emit (.setpgid pid (if i = 0 then pid else pgid)) <| closeIf (i > 0) prev <|
              forkStages nCmd isBackground jobId sync left (i + 1)
                (if i < nCmd - 1 then cur else prev) cur (if i = 0 then pid else pgid)
                (l.children ++ [pid])).Meets (startSpec pattern nCmd entry) pattern 0 l' := by
        intro cur l' hd h' hchildren hforks' hpipes' hpipe
        refine meets_stage hentry hd hi h' hforks' hpipe₀ hpipe hstarts pgid
          fun pid l₂ hstart h₂ hchildren₂ hpipes₂ hforks₂ => ?_
        rw [← hchildren, ← hchildren₂]
        refine ih _ (by omega) (fun _ hlast => ?_) h₂ (fun hlast => ?_) hforks₂ fun k hk => ?_
        · have hc : i < nCmd - 1 := by omega
          rw [if_pos hc]
          exact ⟨hd.freeCur (decide_eq_true hc), hd.syncCur (decide_eq_true hc)⟩
        · exact hpipes₂.trans (hpipes' hlast)
        · rcases Nat.lt_succ_iff_lt_or_eq.mp hk with hk | rfl
          · exact hstarts k hk
          · exact hstart
      have hprev' : decide (i > 0) = true → entry.Free prev ∧ Apart sync prev :=
        fun hb => hprev (of_decide_eq_true hb) hi
      -- Without a new pipe.
      have hnone : Distinct entry (decide (i > 0)) false sync prev cur :=
        ⟨hsync, fun hb => (hprev' hb).1, fun hc => absurd hc Bool.false_ne_true,
          fun hb => (hprev' hb).2, fun hc => absurd hc Bool.false_ne_true,
          fun _ hc => absurd hc Bool.false_ne_true⟩
      have hparent : Parent l (heldTable entry i (decide (i > 0)) false sync prev cur) i
          (heldEnds i (decide (i > 0)) false) := by
        rw [heldEnds, endsIf, endsIf, if_neg Bool.false_ne_true, add_zero, add_zero]
        exact h
      unfold forkStages
      by_cases hc : i < nCmd - 1
      · rw [if_pos hc]
        have hcalls := hpipes hi
        refine ⟨rfl, fun hok r w hne hr hw => ?_, fun hfail => ?_⟩
        · rw [hcalls] at hok
          have hfree : ((entry.withPipe sync syncPipe).withPipeIf (decide (i > 0)) prev
              (stagePipe (i - 1))).Free (r, w) := by
            rw [← h.table]
            exact ⟨hne, hr, hw⟩
          obtain ⟨hfree, hprevCur⟩ := Free.of_withPipeIf (fun hb => (hprev' hb).1.ne) hfree
          obtain ⟨hfree, hsyncCur⟩ := Free.of_withPipe hsync.ne hfree
          rw [decide_eq_true hc] at hfork
          exact hfork (r, w) _ ⟨hsync, fun hb => (hprev' hb).1, fun _ => hfree,
            fun hb => (hprev' hb).2, fun _ => hsyncCur, fun hb _ => hprevCur hb⟩
            (h.openStage hcalls) rfl hforks (fun _ => congrArg (· + 1) hcalls) fun _ => hok
        · rw [hcalls] at hfail
          have hfails : FailsAt pattern nCmd i := by
            refine ⟨hi, hpipe₀, hstarts, fun hstart => ?_⟩
            rw [hstart.1 hc] at hfail
            cases hfail
          show (closeBoth sync (closeIf (decide (i > 0)) prev (closeIf false cur
            (blockSignals false fail)))).Meets (startSpec pattern nCmd entry) pattern 0 l.failPipe
          exact Parent.meets_failed hentry hnone
            ⟨hparent.table, hparent.children, hparent.balance, hparent.unregistered⟩ hfails
      · rw [if_neg hc]
        rw [decide_eq_false hc] at hfork
        exact hfork cur l hnone hparent rfl hforks (fun hlast => by omega)
          fun hlast => absurd hlast hc

/-- The start of the function. The table is that of the entry, and nothing is held and nobody is
forked. -/
theorem parent_start (entry : Table) : Parent (.start entry) entry 0 0 :=
  ⟨rfl, rfl, rfl, fun ⟨_, _, _, hmem⟩ => by cases hmem⟩

/-- Without `sync_pipe` nothing is done. The function prints its error and returns `-1`. -/
theorem meets_noSyncPipe (hentry : StdTable entry) (hfail : pattern.pipe 0 0 = false) :
    fail.Meets (startSpec pattern nCmd entry) pattern 0 (Local.start entry).failPipe := by
  have hparent : Parent (Local.start entry).failPipe entry 0 0 :=
    ⟨rfl, rfl, rfl, (parent_start entry).unregistered⟩
  exact hparent.meets_fail hentry (fun _ => rfl)
    (fun _ hall => absurd ((hall 0 0).1.symm.trans hfail) (by decide))
    (fun _ i hi => absurd (hi.sync.symm.trans hfail) (by decide)) _

/-- `iter_pipe_fork_exec`, from its start on. A job with too many commands and a `sync_pipe` that
fails return at once. Otherwise the loop starts at stage 0. -/
theorem meets_iterPipeForkExec (hentry : StdTable entry) (nPipe : Nat) (isBackground : Bool)
    (jobId : Int) :
    (iterPipeForkExec nPipe isBackground jobId).Meets (startSpec pattern (nPipe + 1) entry)
      pattern 0 (.start entry) := by
  have hstart := parent_start entry
  unfold iterPipeForkExec
  by_cases hmany : nPipe + 1 > maxProcPerJob
  · rw [if_pos hmany]
    exact hstart.meets_fail hentry (fun _ => rfl) (fun hn => absurd hn (not_le_of_gt hmany))
      (fun hn => absurd hn (not_le_of_gt hmany)) _
  · rw [if_neg hmany]
    refine ⟨rfl, fun hok r w hne hr hw => ⟨trivial, trivial, ?_⟩, fun hfail => ?_⟩
    · have hfree : entry.Free (r, w) := ⟨hne, hr, hw⟩
      have hparent := ((hstart.openPipe (r := r) (w := w)).emit (e := .block .sigchld true)
        (by simp)).emit (e := .block .sigint true) (by simp)
      exact meets_forkStages hentry hfree hok isBackground jobId (nPipe + 1) 0
        (Nat.zero_add _) (fun h => absurd h (lt_irrefl 0)) hparent (fun _ => rfl) rfl
        fun k hk => absurd hk k.not_lt_zero
    · exact meets_noSyncPipe hentry hfail

/-- `fork_exec`, from its start on. It is a job with one stage, so it has no pipe but `sync_pipe`.
-/
theorem meets_forkExec (hentry : StdTable entry) (isBackground : Bool) (jobId : Int) :
    (forkExec isBackground jobId).Meets (startSpec pattern 1 entry) pattern 0 (.start entry) := by
  have hstart := parent_start entry
  have hwired : Wired entry 1 0 entry := ⟨rfl, rfl, fun _ _ _ => rfl⟩
  refine ⟨rfl, fun hok r w hne hr hw => ?_, fun hfail => ?_⟩
  · have hfree : entry.Free (r, w) := ⟨hne, hr, hw⟩
    have hparent := ((hstart.openPipe (r := r) (w := w)).emit (e := .block .sigchld true)
      (by simp)).emit (e := .block .sigint true) (by simp)
    have hopen := hparent.balance
    rw [add_zero] at hopen
    refine ⟨trivial, trivial, ⟨rfl, ⟨w, withPipe_snd entry (r, w) _⟩, rfl,
      fun h => absurd h (Nat.not_lt_zero _)⟩, fun hfork pid hpid => ⟨?_, trivial, ⟨rfl, rfl⟩, ?_⟩,
      fun hfork => ?_⟩
    · exact ⟨trivial, trivial, trivial, trivial, meets_awaitParent hpid Nat.one_pos rfl hfree
        hwired (hwired.noWriter hentry)⟩
    · have hstarts : ∀ i, ¬ FailsAt pattern 1 i := by
        intro i hi
        obtain rfl : i = 0 := Nat.lt_one_iff.mp hi.lt
        exact hi.fails ⟨fun h => absurd h (Nat.not_lt_zero _), hfork⟩
      have hrelease : ∀ l : Local StartEvent, l.table = entry.withPipe (r, w) syncPipe →
          (l.opened : Multiset End) = l.closed + ends syncPipe → l.children = [pid] →
          .addJob pid [pid] isBackground ∈ l.events →
          (release (r, w) isBackground jobId).Meets (startSpec pattern 1 entry) pattern 0 l :=
        fun l htable hbalance hchildren hmem => meets_release hentry hfree htable hbalance
          (by rw [hchildren]; rfl) ⟨pid, isBackground, hchildren ▸ hmem⟩ hstarts _ _
      dsimp only
      split
      · exact ⟨trivial, hrelease _ rfl hopen rfl
          (List.mem_append_left _ (List.mem_append_right _ List.mem_cons_self))⟩
      · exact hrelease _ rfl hopen rfl (List.mem_append_right _ List.mem_cons_self)
    · have hfails : FailsAt pattern 1 0 := by
        refine ⟨Nat.one_pos, hok, fun k hk => absurd hk k.not_lt_zero, fun h => ?_⟩
        exact absurd (h.2.symm.trans hfork) (by decide)
      refine meets_closeBoth (a := syncPipe) (t := entry) rfl hfree
        (fun _ _ => Or.inr hfails.not_allSucceed) ?_
      exact Parent.meets_unblock_fail (Parent.closedPipe ⟨rfl, rfl, hparent.balance,
        hparent.unregistered⟩) hentry hfails.not_allSucceed fun _ i hi => hfails.unique hi
  · exact meets_noSyncPipe hentry hfail

/-! ### The tables -/

/-- The programs keep the specification. There are two of them, for a single command and for a
pipeline. -/
theorem Starts.meets {prog : Prog StartEvent} (h : Starts prog nCmd) (hentry : StdTable entry) :
    prog.Meets (startSpec pattern nCmd entry) pattern 0 (.start entry) := by
  cases h with
  | single isBackground jobId => exact meets_forkExec hentry isBackground jobId
  | pipeline nPipe isBackground jobId _ _ =>
      exact meets_iterPipeForkExec hentry nPipe isBackground jobId

/-- When `iter_pipe_fork_exec` returns, the parent has closed what it has opened, and each of it
once, and the signals are unblocked. A child has its pipes and nothing else when it gets to its
command. -/
theorem descriptors_exact (pattern : Pattern) (nPipe : Nat) (isBackground : Bool) (jobId : Int)
    (entry : Table) (hentry : StdTable entry) (s : Processes StartEvent)
    (hrun : Reachable pattern (.init (iterPipeForkExec nPipe isBackground jobId) entry) s) :
    (∀ j value next, j < s.count → (s.proc j).prog = .emit (.ret value) next →
      j = 0 ∧ (s.proc j).locals.table = entry ∧ (s.proc j).locals.opened.Nodup ∧
        (s.proc j).locals.closed.Perm (s.proc j).locals.opened ∧
        ∀ sig, blockedAfter sig (s.proc j).locals.events = false) ∧
      ∀ j i next, j < s.count → (s.proc j).prog = .emit (.run i) next →
        0 < j ∧ i ≤ nPipe ∧ Wired entry (nPipe + 1) i (s.proc j).locals.table := by
  have hmeets := meets_reachable hrun (meets_iterPipeForkExec hentry nPipe isBackground jobId)
  refine ⟨fun j value next hj hprog => ?_, fun j i next hj hprog => ?_⟩
  · have hop := (hmeets j hj).op
    rw [hprog] at hop
    obtain ⟨hzero, hret⟩ := hop
    exact ⟨hzero, hret.table, (fresh_reachable hrun j hj).nodup, hret.balance, hret.unblocked⟩
  · have hop := (hmeets j hj).op
    rw [hprog] at hop
    obtain ⟨hpos, hi, hwired, -⟩ := hop
    exact ⟨hpos, Nat.lt_succ_iff.mp hi, hwired⟩

/-- Three open files. -/
def stdEntry : Table := fun fd => if fd ≤ 2 then some (.file fd) else none

/-- These three files are the descriptors that the entry needs. -/
theorem stdTable_stdEntry : StdTable stdEntry where
  files fd e he := by
    unfold stdEntry at he
    split at he
    · exact ⟨fd, (Option.some.inj he).symm⟩
    · cases he
  std fd hfd := by
    rw [stdEntry, if_pos hfd]
    exact Option.some_ne_none _

/-- From descriptor 3 on nothing is open. -/
theorem finite_stdEntry : stdEntry.Finite := ⟨3, fun _ hfd => if_neg (by omega)⟩

/-- The second `fork` of the shell fails. -/
def oneFork : Pattern := ⟨fun _ _ => true, fun _ k => k == 0⟩

/-- A pipeline of two commands whose second `fork` fails. Both pipes are open then and one child is
started. The parent closes the four ends and is about to return `-1`, with the table of the entry.
The child is at its command. It writes to the pipe between the stages and has no other end. -/
theorem descriptors_exact_oneFork :
    ∃ s, Reachable oneFork (.init (iterPipeForkExec 1 false 1) stdEntry) s ∧ s.count = 2 ∧
      (s.proc 0).prog = .emit (.ret (-1)) .done ∧ (s.proc 0).locals.table = stdEntry ∧
      (s.proc 0).locals.closed.Perm [.reader syncPipe, .writer syncPipe, .reader (stagePipe 0),
        .writer (stagePipe 0)] ∧
      (s.proc 1).prog = .emit (.run 0) .done ∧
      (s.proc 1).locals.table 1 = some (.writer (stagePipe 0)) ∧
      ∀ fd, fd ≠ 1 → (s.proc 1).locals.table fd = stdEntry fd := by
  -- The parent, up to the point at which it returns.
  have hsync := (Relation.ReflTransGen.refl (r := Step oneFork)
    (a := .init (iterPipeForkExec 1 false 1) stdEntry)).tail
      (.pipe (r := 3) (w := 4) Nat.one_pos rfl rfl (by decide) rfl rfl)
  have hblocked := (hsync.tail (.emit Nat.one_pos rfl)).tail (.emit Nat.one_pos rfl)
  have hpipe := hblocked.tail (.pipe (r := 5) (w := 6) Nat.one_pos rfl rfl (by decide) rfl rfl)
  have hfork := hpipe.tail (.fork Nat.one_pos rfl rfl)
  have hfail := (hfork.tail (.emit (j := 0) Nat.two_pos rfl)).tail
    (.failFork (j := 0) Nat.two_pos rfl rfl)
  have hclosed := (((hfail.tail (.close (j := 0) Nat.two_pos rfl)).tail
    (.close (j := 0) Nat.two_pos rfl)).tail (.close (j := 0) Nat.two_pos rfl)).tail
      (.close (j := 0) Nat.two_pos rfl)
  have hparent := ((hclosed.tail (.emit (j := 0) Nat.two_pos rfl)).tail
    (.emit (j := 0) Nat.two_pos rfl)).tail (.emit (j := 0) Nat.two_pos rfl)
  -- The child, up to its `read`.
  have hreset := (((hparent.tail (.emit (j := 1) Nat.one_lt_two rfl)).tail
    (.emit (j := 1) Nat.one_lt_two rfl)).tail (.emit (j := 1) Nat.one_lt_two rfl)).tail
      (.emit (j := 1) Nat.one_lt_two rfl)
  have hstdout := ((hreset.tail (.dup2 (j := 1) Nat.one_lt_two rfl (by decide))).tail
    (.close (j := 1) Nat.one_lt_two rfl)).tail (.close (j := 1) Nat.one_lt_two rfl)
  have hwaits := hstdout.tail (.close (j := 1) Nat.one_lt_two rfl)
  -- No process holds the write end of `sync_pipe` any more, so the `read` ends.
  have hended := hwaits.tail (.readEof (j := 1) (p := syncPipe) Nat.one_lt_two rfl rfl
    fun j hj => by
      obtain rfl | rfl : j = 0 ∨ j = 1 := by
        have htwo : j < 2 := hj
        omega
      · have htable :=
          ((descriptors_exact oneFork 1 false 1 stdEntry stdTable_stdEntry _ hwaits).1 0 (-1)
            .done Nat.two_pos rfl).2.1
        rintro ⟨fd, hfd⟩
        rw [htable] at hfd
        obtain ⟨name, heq⟩ := stdTable_stdEntry.files fd _ hfd
        cases heq
      · have hmeets := meets_reachable hwaits (meets_iterPipeForkExec stdTable_stdEntry 1 false 1)
        exact (hmeets 1 Nat.one_lt_two).op.2.2)
  have hrun := hended.tail (.close (j := 1) Nat.one_lt_two rfl)
  obtain ⟨hreturns, hchild⟩ :=
    descriptors_exact oneFork 1 false 1 stdEntry stdTable_stdEntry _ hrun
  obtain ⟨-, htable, -, hclosed, -⟩ := hreturns 0 (-1) .done Nat.two_pos rfl
  obtain ⟨-, -, hwired⟩ := hchild 1 0 .done Nat.one_lt_two rfl
  refine ⟨_, hrun, rfl, rfl, htable, hclosed, rfl, hwired.stdout, fun fd hfd => ?_⟩
  by_cases hzero : fd = 0
  · rw [hzero]
    exact hwired.stdin
  · exact hwired.others fd hzero hfd

end SysProg.Shell
