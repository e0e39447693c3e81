import Mathlib.Algebra.Order.BigOperators.Group.List
import Mathlib.Algebra.Order.Ring.Nat
import SysProg.Dirtree.Summary
import SysProg.Proofs.Dirtree.Traverse

/-!
# `SysProg.Proofs.Dirtree.Summary`: what the counters are

* `processDirRec_adds`: a call adds each entry below its directory that matches to both summaries.
* `analyzeDirectories_spec`: the reports of a run of `main`, and its totals.
* `value_foldl_add`: a counter is the sum of the column modulo its bound, without the devices.
* `countsAll_iff`: when the summaries count every listed entry.
-/

set_option autoImplicit false

namespace SysProg.Dirtree

open Classical

variable {opts : Options} {st st₁ st₂ : State} {es es₁ es₂ : List Node} {depth fuel : Nat}
  {e : Node} {contents : Except Nat (List Node)}

/-- Between the two states the entries `es` are added to both summaries. -/
structure Adds (st : State) (es : List Node) (st' : State) : Prop where
  dstat : st'.dstat = es.foldl Summary.add st.dstat
  tstat : st'.tstat = es.foldl Summary.add st.tstat

/-! ### The traversal -/

/-- Where nothing is counted the summary stays. -/
theorem Adds.refl (st : State) : Adds st [] st := ⟨rfl, rfl⟩

/-- What is counted in two parts is counted together. -/
theorem Adds.trans (h₁ : Adds st es₁ st₁) (h₂ : Adds st₁ es₂ st₂) :
    Adds st (es₁ ++ es₂) st₂ := by
  refine ⟨?_, ?_⟩
  · rw [List.foldl_append, h₂.dstat, h₁.dstat]
  · rw [List.foldl_append, h₂.tstat, h₁.tstat]

/-- The lines that are held back are printed. Their directories are counted already. -/
theorem flushIfFilter_adds (opts : Options) (st : State) : Adds st [] (flushIfFilter opts st) := by
  rw [flushIfFilter]
  split <;> exact ⟨rfl, rfl⟩

/-- The line of an entry is printed, and the entry is counted. -/
theorem printEntry_adds (opts : Options) (depth : Nat) (e : Node) (st : State) :
    Adds st [e] (printEntry opts depth e st) := by
  have hflush := flushIfFilter_adds opts st
  refine ⟨?_, ?_⟩
  · rw [printEntry, hflush.dstat]
    rfl
  · rw [printEntry, hflush.tstat]
    rfl

/-- A line that is held back counts nothing yet. -/
theorem pushPending_adds {text : List UInt8} (h : pushPending text st = .ok st₁) :
    Adds st [] st₁ := by
  rw [pushPending] at h
  split at h
  · rw [← Except.ok.inj h]
    exact ⟨rfl, rfl⟩
  · exact absurd h (by simp)

/-- The entries on the next `n` levels that match. -/
noncomputable def listedBelow (opts : Options) (n depth : Nat) (contents : Except Nat (List Node)) :
    List Node :=
  ((entriesBelow n depth contents).filter fun v => v.Listed opts).map Visit.node

/-- The same for an entry and the levels below it. -/
noncomputable def listedFrom (opts : Options) (n depth : Nat) (e : Node) : List Node :=
  (if Visit.Listed opts ⟨depth + 1, e⟩ then [e] else []) ++
    listedBelow opts n (depth + 1) e.contents

/-- What is listed below a directory is what is listed from each of its children. -/
theorem listedBelow_succ (n : Nat) : listedBelow opts (n + 1) depth contents
    = (children contents).flatMap (listedFrom opts n depth) := by
  rw [listedBelow, entriesBelow, List.filter_flatMap, List.map_flatMap]
  congr 1
  funext e
  rw [listedFrom, listedBelow, List.filter_cons]
  by_cases hlisted : Visit.Listed opts ⟨depth + 1, e⟩
  · rw [if_pos hlisted, if_pos (decide_eq_true hlisted), List.map_cons, List.singleton_append]
  · rw [if_neg hlisted, if_neg (mt of_decide_eq_true hlisted), List.nil_append]

/-- There is nothing below the depth limit, and below an entry that is not a directory. -/
theorem listedBelow_eq_nil {n : Nat} (h : ¬(e.type = .directory ∧ 0 < n)) :
    listedBelow opts n depth e.contents = [] := by
  cases n with
  | zero => rfl
  | succ n =>
      cases e with
      | file name attr type =>
          have hchildren : children (Node.file name attr type).contents = [] := by
            simp [Node.contents, children, sortedEntries]
          rw [listedBelow_succ, hchildren, List.flatMap_nil]
      | dir name attr contents => exact absurd ⟨rfl, Nat.succ_pos n⟩ h

/-- One round of the loop adds the entry, if it matches, and what is below it. -/
theorem processEntry_adds {n : Nat} (hn : depth + 1 + n = opts.maxDepth)
    {process : Nat → Except Nat (List Node) → State → Except Fault State}
    (hprocess : ∀ {contents st st'}, process (depth + 1) contents st = .ok st' →
      Adds st (listedBelow opts n (depth + 1) contents) st')
    (h : processEntry opts process depth st e = .ok st₁) :
    Adds st (listedFrom opts n depth e) st₁ := by
  obtain ⟨matched, hmatched, hiff⟩ := entryMatches_spec opts e
  have hlisted : Visit.Listed opts ⟨depth + 1, e⟩ ↔ matched = true := hiff.symm
  have hbelow (hclosed : ¬(e.type = .directory ∧ depth + 1 < opts.maxDepth)) :
      listedBelow opts n (depth + 1) e.contents = [] :=
    listedBelow_eq_nil fun hopen => hclosed ⟨hopen.1, by omega⟩
  simp only [processEntry, hmatched, bind, Except.bind, decide_eq_true_eq] at h
  rw [listedFrom]
  cases matched with
  | true =>
      rw [if_pos (hlisted.mpr rfl)]
      refine (printEntry_adds opts depth e st).trans ?_
      by_cases hopen : e.type = .directory ∧ depth + 1 < opts.maxDepth
      · simp only [Bool.not_true, Bool.false_and, Bool.false_eq_true, if_false, if_true,
          if_pos hopen] at h
        exact hprocess h
      · simp only [Bool.not_true, Bool.false_and, Bool.false_eq_true, if_false, if_true,
          if_neg hopen] at h
        rw [hbelow hopen, Except.ok.inj h]
        exact Adds.refl st₁
  | false =>
      rw [if_neg (mt hlisted.mp Bool.false_ne_true), List.nil_append]
      by_cases hopen : e.type = .directory ∧ depth + 1 < opts.maxDepth
      · simp only [hopen, Bool.not_false, decide_true, Bool.not_true, Bool.and_false,
          Bool.false_eq_true, if_false, and_self, if_true, Bool.true_and] at h
        by_cases hsome : opts.pattern.isSome = true
        · -- The name of the directory waits on the stack, which is no part of the summaries.
          rw [if_pos hsome] at h
          cases hpush : pushPending (truncName (indName depth e.name.bytes)) st with
          | error fault =>
              rw [hpush] at h
              exact absurd h (by simp)
          | ok st' =>
              simp only [hpush] at h
              cases hcall : process (depth + 1) e.contents st' with
              | error fault =>
                  rw [hcall] at h
                  exact absurd h (by simp)
              | ok st'' =>
                  simp only [hcall] at h
                  have hadds := (pushPending_adds hpush).trans (hprocess hcall)
                  rw [← Except.ok.inj h]
                  split
                  · exact ⟨hadds.dstat, hadds.tstat⟩
                  · exact hadds
        · rw [if_neg hsome] at h
          exact hprocess h
      · have hst : st = st₁ := by
          by_cases hdir : e.type = .directory
          · have hdeep : ¬depth + 1 < opts.maxDepth := fun hlt => hopen ⟨hdir, hlt⟩
            simpa [hdir, hdeep, pure, Except.pure] using h
          · simpa [hdir, pure, Except.pure] using h
        rw [hbelow hopen, hst]
        exact Adds.refl st₁

/-- A call adds the entries that match on the levels down to the depth limit. -/
theorem processDirRec_adds (hfuel : depth + fuel = opts.maxDepth)
    (h : processDirRec opts fuel depth contents st = .ok st₁) :
    Adds st (listedBelow opts fuel depth contents) st₁ := by
  induction fuel generalizing depth contents st st₁ with
  | zero => exact absurd h (by simp [processDirRec])
  | succ fuel ih =>
      rw [listedBelow_succ]
      cases contents with
      | error errno =>
          simp only [processDirRec] at h
          split at h
          · rw [← Except.ok.inj h]
            exact (flushIfFilter_adds opts st).trans ⟨rfl, rfl⟩
          · exact absurd h (by simp)
      | ok entries =>
          simp only [processDirRec] at h
          simp only [children]
          have hprocess {contents : Except Nat (List Node)} {st st' : State}
              (hcall : processDirRec opts fuel (depth + 1) contents st = .ok st') :
              Adds st (listedBelow opts fuel (depth + 1) contents) st' := ih (by omega) hcall
          -- The loop, one entry after the other.
          generalize sortedEntries entries = rest at h ⊢
          induction rest generalizing st with
          | nil =>
              rw [← Except.ok.inj h]
              exact Adds.refl st
          | cons e rest ihrest =>
              rw [List.foldlM_cons] at h
              cases hentry : processEntry opts (processDirRec opts fuel) depth st e with
              | error fault =>
                  rw [hentry] at h
                  exact absurd h (by simp [bind, Except.bind])
              | ok st₂ =>
                  rw [hentry] at h
                  rw [List.flatMap_cons]
                  exact (processEntry_adds (by omega) hprocess hentry).trans (ihrest h)

/-! ### The listing -/

/-- The detail line of an entry, if there is one. -/
theorem Visit.filter_lines (v : Visit) : (v.lines opts).filter Line.isDetail
    = if v.Listed opts then [detailLine (v.depth - 1) v.node] else [] := by
  have herror : (v.errorLine opts).filter Line.isDetail = [] := by
    rw [Visit.errorLine]
    split
    · split <;> rfl
    · rfl
  rw [Visit.lines, List.filter_append, herror, List.append_nil, Visit.ownLine]
  by_cases hlisted : v.Listed opts
  · rw [if_pos hlisted, if_pos hlisted]
    rfl
  · rw [if_neg hlisted, if_neg hlisted]
    split <;> rfl

/-- The detail lines of a listing are those of the entries that match. -/
theorem filter_listing (root : Except Nat (List Node)) :
    (listing opts root).filter Line.isDetail
      = ((allEntries opts root).filter fun v => v.Listed opts).map
          fun v => detailLine (v.depth - 1) v.node := by
  have hlisting : (listing opts root).filter Line.isDetail
      = ((allEntries opts root).flatMap (Visit.lines opts)).filter Line.isDetail := by
    cases root <;> rfl
  rw [hlisting, List.filter_flatMap]
  induction allEntries opts root with
  | nil => rfl
  | cons v vs ih =>
      rw [List.flatMap_cons, Visit.filter_lines, ih, List.filter_cons]
      by_cases hlisted : v.Listed opts
      · rw [if_pos hlisted, if_pos (decide_eq_true hlisted), List.map_cons, List.singleton_append]
      · rw [if_neg hlisted, if_neg (mt of_decide_eq_true hlisted), List.nil_append]

/-! ### `main` -/

variable {d : Directory} {ds : List Directory}

/-- The report of a directory: its listing, and the entries that its counters count. -/
structure Reported (opts : Options) (d : Directory) (r : Report) : Prop where
  lists : Lists opts d r
  dstat : r.dstat = (printedEntries opts d).foldl Summary.add .zero

/-- The first call of `process_dir_rec` prints the listing. -/
theorem processDirRec_root (h : Sound opts 0 st) (hout : st.output = [])
    (contents : Except Nat (List Node)) :
    ∃ st', processDirRec opts opts.maxDepth 0 contents st = .ok st' ∧ Sound opts 0 st' ∧
      st'.output = listing opts contents := by
  obtain ⟨st', hst', hemits, hsound⟩ :=
    processDirRec_spec (Nat.zero_add opts.maxDepth) opts.one_le contents st h
  have hlines : dirLines opts 0 contents = listing opts contents := by
    cases contents <;> rfl
  have hpending : st.pendingLines = [] := by
    rw [State.pendingLines, List.length_eq_zero_iff.mp (Nat.le_zero.mp h.length_le), List.map_nil]
  rw [hlines] at hemits
  refine ⟨st', hst', hsound, ?_⟩
  by_cases hnil : listing opts contents = []
  · rw [(hemits.quiet hnil).1, hnil, hout]
  · rw [(hemits.flushed hnil).1, hpending, hout, List.append_nil, List.nil_append]

/-- One round of the loop of `main`. The entries that are printed are added to the total, and a
directory that does not open has none. -/
theorem analyzeDirectory_spec (h : Sound opts 0 st) (d : Directory) :
    ∃ r st', analyzeDirectory opts st d = .ok (r, st') ∧ Sound opts 0 st' ∧ Reported opts d r ∧
      st'.tstat = (printedEntries opts d).foldl Summary.add st.tstat := by
  have hpending := List.length_eq_zero_iff.mp (Nat.le_zero.mp h.length_le)
  have hstart : Sound opts 0 { st with output := [], pending := [], dstat := .zero } := by
    have howned := h.owned
    rw [hpending] at howned
    exact ⟨Nat.le_refl 0, howned, fun _ => rfl⟩
  obtain ⟨path, tree⟩ := d
  cases tree with
  | none => exact ⟨_, _, rfl, ⟨hstart.length_le, hstart.owned, hstart.unfiltered⟩, ⟨rfl, rfl⟩, rfl⟩
  | some contents =>
      obtain ⟨st', hst', hsound, hout⟩ := processDirRec_root hstart rfl contents
      have hadds := processDirRec_adds (Nat.zero_add opts.maxDepth) hst'
      refine ⟨⟨path, st'.output, st'.dstat⟩, st', ?_, hsound, ⟨?_, hadds.dstat⟩, hadds.tstat⟩
      · simp only [analyzeDirectory, if_pos (show 0 < opts.maxDepth from opts.one_le), hst', bind,
          Except.bind, pure, Except.pure]
      · rw [Lists, hout, filter_listing]
        rfl

/-- The loop of `main`. Its totals are about all entries. -/
theorem analyzeDirectories_spec (h : Sound opts 0 st) (ds : List Directory) :
    ∃ rs st', analyzeDirectories opts st ds = .ok (rs, st') ∧
      List.Forall₂ (Reported opts) ds rs ∧
      st'.tstat = (ds.flatMap (printedEntries opts)).foldl Summary.add st.tstat := by
  induction ds generalizing st with
  | nil => exact ⟨[], st, rfl, .nil, rfl⟩
  | cons d ds ih =>
      obtain ⟨r, st₁, hst₁, hsound₁, hreported, htotal₁⟩ := analyzeDirectory_spec h d
      obtain ⟨rs, st₂, hst₂, hreports, htotal₂⟩ := ih hsound₁
      refine ⟨r :: rs, st₂, ?_, .cons hreported hreports, ?_⟩
      · simp only [analyzeDirectories, hst₁, hst₂, bind, Except.bind, pure, Except.pure]
      · rw [List.flatMap_cons, List.foldl_append, ← htotal₁, htotal₂]

/-- A run of `main`. -/
theorem analyze_spec (opts : Options) (ds : List Directory) :
    ∃ rs tstat, analyze opts ds = .ok (rs, tstat) ∧ List.Forall₂ (Reported opts) ds rs ∧
      tstat = (ds.flatMap (printedEntries opts)).foldl Summary.add .zero := by
  have hinit : Sound opts 0 State.init := ⟨Nat.le_refl 0, List.Perm.refl _, fun _ => rfl⟩
  obtain ⟨rs, st, hst, hreports, htotal⟩ := analyzeDirectories_spec hinit ds
  refine ⟨rs, st.tstat, ?_, hreports, htotal⟩
  rw [analyze, hst]
  rfl

/-! ### Columns -/

variable {s : Summary} {c : Column}

/-- What an entry adds to a column. A device is in no column of files. -/
def Node.added (e : Node) (c : Column) : Nat := if c = .files ∧ e.IsDevice then 0 else e.worth c

/-- A counter is below the bound of its type. -/
theorem value_lt (s : Summary) (c : Column) : s.value c < c.bound := by
  cases c with
  | files | dirs | links | fifos | socks => exact UInt32.toNat_lt _
  | size | blocks => exact UInt64.toNat_lt _

/-- At the start all counters are zero. -/
theorem value_zero (c : Column) : Summary.zero.value c = 0 := by
  cases c <;> rfl

/-- An entry in a column. -/
theorem value_add (s : Summary) (e : Node) (c : Column) :
    (s.add e).value c = (s.value c + e.added c) % c.bound := by
  have hone (n : UInt32) (p : Prop) [Decidable p] :
      (n + if p then 1 else 0).toNat = (n.toNat + if p then 1 else 0) % 2 ^ 32 := by
    rw [UInt32.toNat_add]
    split <;> rfl
  cases c with
  | files =>
      have hadded : e.added .files = if e.type = .regular then 1 else 0 := by
        cases htype : e.type <;> simp [Node.added, Node.worth, Node.IsDevice, htype]
      rw [hadded]
      exact hone _ _
  | dirs | links | fifos | socks => exact hone _ _
  | size | blocks => exact UInt64.toNat_add _ _

/-- A column of a summary, after some entries. -/
theorem value_foldl_add (es : List Node) (s : Summary) (c : Column) :
    (es.foldl Summary.add s).value c
      = (s.value c + (es.map fun e => e.added c).sum) % c.bound := by
  induction es generalizing s with
  | nil => exact (Nat.mod_eq_of_lt (value_lt s c)).symm
  | cons e es ih =>
      rw [List.foldl_cons, ih, value_add, List.map_cons, List.sum_cons, Nat.mod_add_mod,
        Nat.add_assoc]

/-- Without devices each entry adds what it is worth. -/
theorem value_of_noDevice (h : ∀ e ∈ es, ¬e.IsDevice) (c : Column) :
    (es.foldl Summary.add .zero).value c = worthOf es c % c.bound := by
  have hadded : (es.map fun e => e.added c) = es.map fun e => e.worth c := by
    refine List.map_congr_left fun e he => ?_
    rw [Node.added, if_neg fun hdevice => h e he hdevice.2]
  rw [value_foldl_add, value_zero, Nat.zero_add, hadded, worthOf]

/-- A device is worth something, but it adds nothing. -/
theorem noDevice_of_value (h : (es.foldl Summary.add .zero).value .files = worthOf es .files) :
    ∀ e ∈ es, ¬e.IsDevice := by
  intro e he hdevice
  have hle : (worthOf es .files) ≤ (es.map fun e => e.added .files).sum := by
    rw [← h, value_foldl_add, value_zero, Nat.zero_add]
    exact Nat.mod_le _ _
  have hlt : (es.map fun e => e.added .files).sum < worthOf es .files := by
    refine List.sum_lt_sum _ _ (fun e _ => ?_) ⟨e, he, ?_⟩
    · rw [Node.added]
      split
      · exact Nat.zero_le _
      · exact Nat.le_refl _
    · rw [Node.added, if_pos ⟨rfl, hdevice⟩, Node.worth, if_pos (Or.inr hdevice)]
      exact Nat.one_pos
  exact absurd hle (Nat.not_le.mpr hlt)

/-- Each entry is in one of the columns that count. -/
theorem worthOf_columns (es : List Node) : worthOf es .files + worthOf es .dirs
    + worthOf es .links + worthOf es .fifos + worthOf es .socks = es.length := by
  induction es with
  | nil => rfl
  | cons e es ih =>
      have hone : e.worth .files + e.worth .dirs + e.worth .links + e.worth .fifos
          + e.worth .socks = 1 := by
        cases htype : e.type <;> simp [Node.worth, Node.IsDevice, htype]
      simp only [worthOf, List.map_cons, List.sum_cons, List.length_cons] at ih ⊢
      omega

/-- What two lists of entries are worth is the sum. -/
theorem worthOf_append (es₁ es₂ : List Node) (c : Column) :
    worthOf (es₁ ++ es₂) c = worthOf es₁ c + worthOf es₂ c := by
  rw [worthOf, List.map_append, List.sum_append]
  rfl

/-- If the counters are large enough for all entries, they are for each part. -/
theorem FitsCounters.of_append (h : FitsCounters (es₁ ++ es₂)) :
    FitsCounters es₁ ∧ FitsCounters es₂ := by
  have hrange (c : Column) : worthOf es₁ c + worthOf es₂ c < c.bound :=
    worthOf_append es₁ es₂ c ▸ h.inRange c
  constructor
  · refine ⟨fun e he => h.noDevice e (List.mem_append_left _ he), fun c => ?_⟩
    exact Nat.lt_of_le_of_lt (Nat.le_add_right _ _) (hrange c)
  · refine ⟨fun e he => h.noDevice e (List.mem_append_right _ he), fun c => ?_⟩
    exact Nat.lt_of_le_of_lt (Nat.le_add_left _ _) (hrange c)

/-! ### The summaries -/

variable {r : Report} {rs : List Report} {tstat : Summary}

/-- When the summary of a directory is right. -/
theorem Reported.agrees_iff (h : Reported opts d r) :
    Agrees opts d r ↔ FitsCounters (printedEntries opts d) := by
  constructor
  · intro hagrees
    refine ⟨noDevice_of_value ?_, fun c => ?_⟩
    · rw [← h.dstat]
      exact hagrees.columns .files
    · rw [← hagrees.columns c]
      exact value_lt r.dstat c
  · intro ⟨hno, hrange⟩
    have hcolumns (c : Column) : r.dstat.value c = worthOf (printedEntries opts d) c := by
      rw [h.dstat, value_of_noDevice hno, Nat.mod_eq_of_lt (hrange c)]
    refine ⟨?_, hcolumns⟩
    have hlength : (r.lines.filter Line.isDetail).length = (printedEntries opts d).length := by
      rw [h.lists, printedEntries, List.length_map, List.length_map]
    simp only [hcolumns]
    rw [hlength, worthOf_columns]

/-- The sums of the counters of the directories. -/
theorem sum_columns (h : List.Forall₂ (Agrees opts) ds rs) (c : Column) :
    (rs.map fun r => r.dstat.value c).sum = worthOf (ds.flatMap (printedEntries opts)) c := by
  induction h with
  | nil => rfl
  | cons hagrees _ ih =>
      rw [List.map_cons, List.sum_cons, List.flatMap_cons, worthOf_append, ih, hagrees.columns]

/-- A device that is printed makes the summary of its directory wrong. -/
theorem noDevice_of_agrees (h : List.Forall₂ (Reported opts) ds rs)
    (hagrees : List.Forall₂ (Agrees opts) ds rs) :
    ∀ e ∈ ds.flatMap (printedEntries opts), ¬e.IsDevice := by
  induction h with
  | nil => exact fun e he => absurd he List.not_mem_nil
  | cons hreported _ ih =>
      cases hagrees with
      | cons hfirst hrest =>
          intro e he
          rw [List.flatMap_cons, List.mem_append] at he
          cases he with
          | inl he => exact (hreported.agrees_iff.mp hfirst).noDevice e he
          | inr he => exact ih hrest e he

/-- The summaries of all directories are right when the sums over all of them are in range. -/
theorem agrees_of_fitsCounters (h : List.Forall₂ (Reported opts) ds rs)
    (hfits : FitsCounters (ds.flatMap (printedEntries opts))) :
    List.Forall₂ (Agrees opts) ds rs := by
  induction h with
  | nil => exact .nil
  | cons hreported _ ih =>
      rw [List.flatMap_cons] at hfits
      obtain ⟨hfirst, hrest⟩ := hfits.of_append
      exact .cons (hreported.agrees_iff.mpr hfirst) (ih hrest)

/-- `main` prints for each directory the detail lines of its entries that match. The counters of
all summaries count these entries if and only if none of them is a device and the sums over all
directories are in the range of the counters. -/
theorem countsAll_iff (opts : Options) (ds : List Directory) :
    ∃ rs tstat, analyze opts ds = .ok (rs, tstat) ∧ List.Forall₂ (Lists opts) ds rs ∧
      (CountsAll opts ds rs tstat ↔ FitsCounters (ds.flatMap (printedEntries opts))) := by
  obtain ⟨rs, tstat, hrun, hreports, htotal⟩ := analyze_spec opts ds
  refine ⟨rs, tstat, hrun, hreports.imp fun _ _ h => h.lists, ?_, ?_⟩
  · intro ⟨hagrees, htotals⟩
    refine ⟨noDevice_of_agrees hreports hagrees, fun c => ?_⟩
    · rw [← sum_columns hagrees, ← htotals]
      exact value_lt tstat c
  · intro hfits
    have hagrees := agrees_of_fitsCounters hreports hfits
    refine ⟨hagrees, fun c => ?_⟩
    rw [sum_columns hagrees, htotal, value_of_noDevice hfits.noDevice,
      Nat.mod_eq_of_lt (hfits.inRange c)]

/-- No filter, and no limit of the depth. -/
def defaultOptions : Options := ⟨none, maxDepthLimit, by decide, by decide⟩

/-- A character device `null` of the user and the group `u`. -/
def nullDevice : Node :=
  .file ⟨[110, 117, 108, 108], by decide⟩ ⟨[117], [117], 0, 0⟩ ⟨.charDevice, by decide⟩

/-- The directory `d` with a character device in it. There is a detail line, and all counters
are 0. -/
theorem not_countsAll_device :
    analyze defaultOptions [⟨[100], some (.ok [nullDevice])⟩]
        = .ok ([⟨[100], [detailLine 0 nullDevice], .zero⟩], .zero) ∧
      ¬CountsAll defaultOptions [⟨[100], some (.ok [nullDevice])⟩]
        [⟨[100], [detailLine 0 nullDevice], .zero⟩] .zero := by
  refine ⟨?_, fun h => ?_⟩
  · have hsorted : sortedEntries [nullDevice] = [nullDevice] := List.mergeSort_singleton _
    have hcall : processDirRec defaultOptions defaultOptions.maxDepth 0 (.ok [nullDevice])
        State.init = .ok { State.init with output := [detailLine 0 nullDevice] } := by
      rw [show defaultOptions.maxDepth = 19 + 1 from rfl, processDirRec, hsorted]
      rfl
    rw [analyze, analyzeDirectories, analyzeDirectory]
    show Except.map _ ((processDirRec defaultOptions defaultOptions.maxDepth 0 (.ok [nullDevice])
      State.init >>= _) >>= _) = _
    rw [hcall]
    rfl
  · cases h.agrees with
    | cons hagrees _ => exact absurd hagrees.lines (by decide)

end SysProg.Dirtree
