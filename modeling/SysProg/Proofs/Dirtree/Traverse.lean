import SysProg.Proofs.Dirtree.Validate
import SysProg.Proofs.Dirtree.Listing

/-!
# `SysProg.Proofs.Dirtree.Traverse`: the traversal prints the listing

The stack of the pending names is not touched by a part of the traversal that prints nothing. The
first line of a part takes all pending names with it and leaves the stack empty, and from then on
the part works on its own names only. `Emits` says this, and it composes.

* `processEntry_spec`, `processDirRec_spec`: one entry, and one directory, emit their lines.
* `processDirRoot_listing`: the traversal from the root.
-/

set_option autoImplicit false

namespace SysProg.Dirtree

open SysProg.Lib

variable {opts : Options} {st st₁ st₂ : State} {ls ls₁ ls₂ : List Line} {depth fuel : Nat}
  {e : Node} {contents : Except Nat (List Node)}

/-- The names on the stack, as they are printed. -/
def State.pendingLines (st : State) : List Line := st.pending.map fun p => Line.name p.2

/-- Between the two states the lines `ls` are printed. -/
structure Emits (st : State) (ls : List Line) (st' : State) : Prop where
  quiet : ls = [] → st'.output = st.output ∧ st'.pending = st.pending
  flushed : ls ≠ [] → st'.output = st.output ++ st.pendingLines ++ ls ∧ st'.pending = []

/-- A state inside a call at the depth `depth`. There is at most one pending name for each directory
on the path, and each name that was ever pushed is either pending or freed. -/
structure Sound (opts : Options) (depth : Nat) (st : State) : Prop where
  length_le : st.pending.length ≤ depth
  owned : (st.freed ++ st.pending.map fun p => p.1).Perm (List.range st.strdups)
  unfiltered : opts.pattern = none → st.pending = []

/-! ### Composition -/

/-- A step that prints nothing. -/
theorem Emits.refl (st : State) : Emits st [] st := ⟨fun _ => ⟨rfl, rfl⟩, fun h => absurd rfl h⟩

/-- What two steps print, one after the other. If either of them prints a line, nothing is held back
behind it. -/
theorem Emits.trans (h₁ : Emits st ls₁ st₁) (h₂ : Emits st₁ ls₂ st₂) :
    Emits st (ls₁ ++ ls₂) st₂ := by
  by_cases hnil₁ : ls₁ = []
  · obtain ⟨hout, hpending⟩ := h₁.quiet hnil₁
    have hlines : st₁.pendingLines = st.pendingLines := by
      unfold State.pendingLines
      rw [hpending]
    rw [hnil₁, List.nil_append]
    refine ⟨fun h => ?_, fun h => ?_⟩
    · rw [← hout, ← hpending]
      exact h₂.quiet h
    · rw [← hout, ← hlines]
      exact h₂.flushed h
  · -- The second part finds an empty stack.
    obtain ⟨hout, hpending⟩ := h₁.flushed hnil₁
    have hlines : st₁.pendingLines = [] := by
      unfold State.pendingLines
      rw [hpending]
      rfl
    refine ⟨fun h => absurd (List.append_eq_nil_iff.mp h).1 hnil₁, fun _ => ?_⟩
    by_cases hnil₂ : ls₂ = []
    · obtain ⟨hout₂, hpending₂⟩ := h₂.quiet hnil₂
      rw [hout₂, hpending₂, hnil₂, List.append_nil]
      exact ⟨hout, hpending⟩
    · obtain ⟨hout₂, hpending₂⟩ := h₂.flushed hnil₂
      rw [hout₂, hlines, hout, List.append_nil, List.append_assoc]
      exact ⟨rfl, hpending₂⟩

/-- A part of the traversal leaves the stack as it was, or empty. -/
theorem Emits.pending_length_le (h : Emits st ls st₁) : st₁.pending.length ≤ st.pending.length := by
  by_cases hnil : ls = []
  · rw [(h.quiet hnil).2]
  · rw [(h.flushed hnil).2]
    exact Nat.zero_le _

/-! ### The stack -/

/-- The lines that are held back are printed in order, and none is held back behind it. -/
theorem flushIfFilter_spec (h : Sound opts depth st) :
    (flushIfFilter opts st).output = st.output ++ st.pendingLines ∧
      (flushIfFilter opts st).pending = [] ∧ Sound opts depth (flushIfFilter opts st) := by
  unfold flushIfFilter
  cases hpattern : opts.pattern with
  | none =>
      have hpending := h.unfiltered hpattern
      rw [if_neg (by simp)]
      refine ⟨?_, hpending, h⟩
      rw [State.pendingLines, hpending, List.map_nil, List.append_nil]
  | some p =>
      rw [if_pos Option.isSome_some]
      refine ⟨rfl, rfl, Nat.zero_le _, ?_, fun _ => rfl⟩
      simpa [flushPending] using h.owned

/-- A line behind a flush. -/
theorem emits_print (h : Sound opts depth st) (line : Line) (dstat tstat : Summary) :
    Emits st [line] { flushIfFilter opts st with
        output := (flushIfFilter opts st).output ++ [line], dstat := dstat, tstat := tstat } ∧
      Sound opts depth { flushIfFilter opts st with
        output := (flushIfFilter opts st).output ++ [line], dstat := dstat, tstat := tstat } := by
  obtain ⟨hout, hpending, hsound⟩ := flushIfFilter_spec h
  refine ⟨⟨fun h => absurd h (List.cons_ne_nil _ _), fun _ => ⟨?_, hpending⟩⟩, ?_⟩
  · rw [hout]
  · exact ⟨hsound.length_le, hsound.owned, hsound.unfiltered⟩

/-- A push, for a directory that is not the last one allowed. -/
theorem pushPending_spec (h : Sound opts depth st) (hdepth : depth < maxDepthLimit)
    (hpattern : opts.pattern ≠ none) (text : List UInt8) :
    ∃ st₁, pushPending text st = .ok st₁ ∧ st₁.output = st.output ∧
      st₁.pending = st.pending ++ [(st.strdups, text)] ∧ Sound opts (depth + 1) st₁ := by
  have hlen := h.length_le
  refine ⟨_, if_pos (Nat.lt_of_le_of_lt hlen hdepth), rfl, rfl, ?_, ?_, fun hnone => ?_⟩
  · rw [List.length_append]
    exact Nat.succ_le_succ hlen
  · rw [List.range_succ, List.map_append, ← List.append_assoc]
    exact h.owned.append_right _
  · exact absurd hnone hpattern

/-- A pop of the last name. It prints nothing, and the name is freed. -/
theorem popPending_spec {pending : List (Nat × List UInt8)} {p : Nat × List UInt8}
    (h : Sound opts (depth + 1) st) (hpending : st.pending = pending ++ [p])
    (hlen : pending.length ≤ depth) (hpattern : opts.pattern ≠ none) :
    (popPending st).output = st.output ∧ (popPending st).pending = pending ∧
      Sound opts depth (popPending st) := by
  have hpop : (popPending st).pending = pending := by
    rw [popPending, hpending]
    exact List.dropLast_concat
  refine ⟨rfl, hpop, ?_, ?_, fun hnone => absurd hnone hpattern⟩
  · rw [hpop]
    exact hlen
  · have howned := h.owned
    rw [hpop]
    simp only [popPending, hpending, List.getLast?_concat, Option.map_some, Option.toList_some,
      List.map_append, List.map_cons, List.map_nil] at howned ⊢
    -- The name moves from the stack to the freed ones.
    refine List.Perm.trans ?_ howned
    rw [List.append_assoc]
    exact List.Perm.append_left _ List.perm_append_comm

/-! ### One entry -/

/-- The match of a name. The pattern is a valid one here, so the matcher decides its language and
does not run out of fuel. -/
theorem entryMatches_spec (opts : Options) (e : Node) :
    ∃ b, entryMatches opts e = .ok b ∧ (b = true ↔ Matches opts.pattern e.name) := by
  unfold entryMatches Matches
  cases opts.pattern with
  | none => exact ⟨true, rfl, by simp⟩
  | some p =>
      obtain ⟨ps, hps⟩ := reads_of_validatePattern p.noNul p.accepted
      obtain ⟨b, hb, hiff⟩ := isMatch_spec e.name.noNul hps.wellFormed
      rw [hps.render_eq] at hb
      refine ⟨b, hb, ?_⟩
      constructor
      · intro htrue p' hp'
        rw [← Option.some.inj hp']
        exact ⟨ps, hps, hiff.mp htrue⟩
      · intro h
        obtain ⟨ps', hps', hinf⟩ := h p rfl
        -- Another reading gives the same answer.
        obtain ⟨b', hb', hiff'⟩ := isMatch_spec e.name.noNul hps'.wellFormed
        rw [hps'.render_eq, hb] at hb'
        rw [Except.ok.inj hb']
        exact hiff'.mpr hinf

/-- The lines of a directory: that it cannot be read, or those of what is below it. -/
noncomputable def dirLines (opts : Options) (depth : Nat) (contents : Except Nat (List Node)) :
    List Line :=
  (match contents with
    | .error errno => [.error (List.replicate (depth * 2) space) errno]
    | .ok _ => []) ++
    (entriesBelow (opts.maxDepth - depth) depth contents).flatMap (Visit.lines opts)

/-- The lines of an entry that is found by a call at the depth `depth`, and of what is below it. -/
noncomputable def entryLines (opts : Options) (depth : Nat) (e : Node) : List Line :=
  Visit.lines opts ⟨depth + 1, e⟩ ++ (Visit.below opts ⟨depth + 1, e⟩).flatMap (Visit.lines opts)

/-- The lines of a directory that opens are those of its entries, in the order of the sort. -/
theorem dirLines_ok (hdepth : depth < opts.maxDepth) (entries : List Node) :
    dirLines opts depth (.ok entries)
      = (sortedEntries entries).flatMap (entryLines opts depth) := by
  obtain ⟨n, hn⟩ : ∃ n, opts.maxDepth - depth = n + 1 := ⟨opts.maxDepth - depth - 1, by omega⟩
  rw [dirLines, hn, entriesBelow, List.flatMap_assoc, List.nil_append]
  congr 1
  funext e
  have hn' : opts.maxDepth - (depth + 1) = n := by omega
  rw [entryLines, Visit.below, hn', List.flatMap_cons]

/-- Above the depth limit, the lines below a directory are those of the call for it. -/
theorem Visit.lines_below_eq {v : Visit} (hdepth : v.depth < opts.maxDepth) :
    v.errorLine opts ++ (v.below opts).flatMap (Visit.lines opts)
      = dirLines opts v.depth v.node.contents := by
  unfold Visit.errorLine dirLines Visit.below
  cases v.node.contents with
  | error errno => simp only [if_pos hdepth]
  | ok entries => rfl

/-- At the depth limit, and for an entry that is not a directory, there are no such lines. -/
theorem Visit.lines_below_eq_nil {v : Visit}
    (h : ¬ (v.node.type = .directory ∧ v.depth < opts.maxDepth)) :
    v.errorLine opts ++ (v.below opts).flatMap (Visit.lines opts) = [] := by
  have hbelow : v.below opts = [] := by
    rw [List.eq_nil_iff_forall_not_mem]
    exact fun w hw => h (Visit.of_mem_below hw)
  have herror : v.errorLine opts = [] := by
    by_contra hne
    obtain ⟨hlt, errno, hcontents⟩ := Visit.errorLine_ne_nil_iff.mp hne
    refine h ⟨?_, hlt⟩
    cases hnode : v.node with
    | dir name attr contents => rfl
    | file name attr type =>
        rw [hnode] at hcontents
        exact absurd hcontents (by simp [Node.contents])
  rw [hbelow, herror]
  rfl

/-- What the recursive call is expected to do. -/
def Processes (opts : Options) (depth : Nat)
    (process : Nat → Except Nat (List Node) → State → Except Fault State) : Prop :=
  ∀ contents st, Sound opts depth st → ∃ st', process depth contents st = .ok st' ∧
    Emits st (dirLines opts depth contents) st' ∧ Sound opts depth st'

/-- The lines of an entry: its own, the error line, and those below it. -/
theorem entryLines_eq (opts : Options) (depth : Nat) (e : Node) :
    entryLines opts depth e = Visit.ownLine opts ⟨depth + 1, e⟩ ++
      (Visit.errorLine opts ⟨depth + 1, e⟩ ++
        (Visit.below opts ⟨depth + 1, e⟩).flatMap (Visit.lines opts)) := by
  rw [entryLines, Visit.lines, List.append_assoc]

/-- An entry that matches is listed, and its line flushes the stack. The names of the directories
above it come first. -/
theorem processEntry_listed
    {process : Nat → Except Nat (List Node) → State → Except Fault State}
    (hprocess : depth + 1 < opts.maxDepth → Processes opts (depth + 1) process)
    (h : Sound opts depth st) (hb : entryMatches opts e = .ok true)
    (hlisted : Visit.Listed opts ⟨depth + 1, e⟩) :
    ∃ st', processEntry opts process depth st e = .ok st' ∧
      Emits st (entryLines opts depth e) st' ∧ Sound opts depth st' := by
  unfold processEntry
  simp only [hb, bind, Except.bind]
  obtain ⟨hprint, hsound⟩ := emits_print h (detailLine depth e)
    ((flushIfFilter opts st).dstat.add e) ((flushIfFilter opts st).tstat.add e)
  rw [entryLines_eq, Visit.ownLine_of_listed hlisted]
  by_cases hopen : e.type = .directory ∧ depth + 1 < opts.maxDepth
  · have hdeeper : Sound opts (depth + 1) (printEntry opts depth e st) :=
      ⟨Nat.le_succ_of_le hsound.length_le, hsound.owned, hsound.unfiltered⟩
    obtain ⟨st', hst', hemits, hsound'⟩ := hprocess hopen.2 e.contents _ hdeeper
    refine ⟨st', ?_, ?_, ?_, hsound'.owned, hsound'.unfiltered⟩
    · simpa [hopen] using hst'
    · rw [Visit.lines_below_eq hopen.2]
      exact hprint.trans hemits
    · exact Nat.le_trans hemits.pending_length_le hsound.length_le
  · refine ⟨_, ?_, ?_, hsound⟩
    · simp only [Bool.not_true, Bool.false_and, Bool.false_eq_true, if_false, if_true,
        decide_eq_true_eq, if_neg hopen]
      rfl
    · rw [Visit.lines_below_eq_nil hopen, List.append_nil]
      exact hprint

/-- The name of a directory that does not match waits on the stack during the recursive call. -/
theorem processEntry_waiting
    {process : Nat → Except Nat (List Node) → State → Except Fault State}
    (hprocess : Processes opts (depth + 1) process) (h : Sound opts depth st)
    (hb : entryMatches opts e = .ok false) (hlisted : ¬ Visit.Listed opts ⟨depth + 1, e⟩)
    (hpattern : opts.pattern ≠ none) (hopen : e.type = .directory ∧ depth + 1 < opts.maxDepth) :
    ∃ st', processEntry opts process depth st e = .ok st' ∧
      Emits st (entryLines opts depth e) st' ∧ Sound opts depth st' := by
  have hlimit : depth < maxDepthLimit := by
    have := opts.le_limit
    omega
  obtain ⟨st₁, hst₁, hout₁, hpending₁, hsound₁⟩ := pushPending_spec h hlimit hpattern
    (truncName (indName depth e.name.bytes))
  obtain ⟨st₂, hst₂, hemits, hsound₂⟩ := hprocess e.contents st₁ hsound₁
  have hbelow := Visit.lines_below_eq (v := ⟨depth + 1, e⟩) hopen.2
  have hname := Visit.nameOnly_iff (v := ⟨depth + 1, e⟩) hlisted hopen.1 hopen.2
  have hsome : opts.pattern.isSome = true := Option.isSome_iff_ne_none.mpr hpattern
  unfold processEntry
  simp only [hb, bind, Except.bind, hopen, decide_true, Bool.not_false, Bool.not_true,
    Bool.and_false, Bool.false_eq_true, if_false, and_self, if_true, hsome, Bool.and_self, hst₁,
    hst₂]
  rw [entryLines_eq, hbelow]
  rw [hbelow] at hname
  by_cases hnil : dirLines opts (depth + 1) e.contents = []
  · -- Nothing is printed, and the name is still the last one.
    obtain ⟨hout₂, hpending₂⟩ := hemits.quiet hnil
    rw [hpending₁] at hpending₂
    obtain ⟨hout₃, hpending₃, hsound₃⟩ :=
      popPending_spec hsound₂ hpending₂ h.length_le hpattern
    have hown : Visit.ownLine opts ⟨depth + 1, e⟩ = [] := by
      rw [Visit.ownLine, if_neg hlisted, if_neg (fun hn => hname.mp hn hnil)]
    refine ⟨popPending st₂, ?_, ?_, hsound₃⟩
    · rw [if_pos (by rw [hpending₂, List.length_append]; exact Nat.lt_succ_self _)]
      rfl
    · rw [hown, hnil]
      exact ⟨fun _ => ⟨by rw [hout₃, hout₂, hout₁], hpending₃⟩, fun hne => absurd rfl hne⟩
  · -- The first line below has flushed the stack, the name with it.
    obtain ⟨hout₂, hpending₂⟩ := hemits.flushed hnil
    have hown : Visit.ownLine opts ⟨depth + 1, e⟩
        = [.name (truncName (indName depth e.name.bytes))] := by
      rw [Visit.ownLine, if_neg hlisted, if_pos (hname.mpr hnil)]
      rfl
    refine ⟨st₂, ?_, ?_, ?_, hsound₂.owned, hsound₂.unfiltered⟩
    · rw [if_neg (by rw [hpending₂]; exact Nat.not_lt_zero _)]
      rfl
    · rw [hown]
      refine ⟨fun h => absurd h (List.cons_ne_nil _ _), fun _ => ⟨?_, hpending₂⟩⟩
      rw [hout₂, hout₁, State.pendingLines, hpending₁, List.map_append]
      simp [State.pendingLines]
    · rw [hpending₂]
      exact Nat.zero_le _

/-- One round of the loop emits the lines of the entry. These are its own line and those of the
directory, if it is one and is not too deep. -/
theorem processEntry_spec
    {process : Nat → Except Nat (List Node) → State → Except Fault State}
    (hprocess : depth + 1 < opts.maxDepth → Processes opts (depth + 1) process)
    (h : Sound opts depth st) (e : Node) :
    ∃ st', processEntry opts process depth st e = .ok st' ∧
      Emits st (entryLines opts depth e) st' ∧ Sound opts depth st' := by
  obtain ⟨b, hb, hmatch⟩ := entryMatches_spec opts e
  cases b with
  | true => exact processEntry_listed hprocess h hb (hmatch.mp rfl)
  | false =>
      have hlisted : ¬ Visit.Listed opts ⟨depth + 1, e⟩ := fun hl => by
        have := hmatch.mpr hl
        contradiction
      have hpattern : opts.pattern ≠ none := fun hnone =>
        hlisted fun p hp => by rw [hnone] at hp; contradiction
      by_cases hopen : e.type = .directory ∧ depth + 1 < opts.maxDepth
      · exact processEntry_waiting (hprocess hopen.2) h hb hlisted hpattern hopen
      · -- There is nothing to print.
        have hown : Visit.ownLine opts ⟨depth + 1, e⟩ = [] := by
          rw [Visit.ownLine, if_neg hlisted, if_neg fun hn => hopen ⟨hn.2.1, hn.2.2.1⟩]
        refine ⟨st, ?_, ?_, h⟩
        · unfold processEntry
          simp only [hb, bind, Except.bind]
          by_cases hdir : e.type = .directory
          · simp [hdir, show ¬ depth + 1 < opts.maxDepth from fun hlt => hopen ⟨hdir, hlt⟩, pure,
              Except.pure]
          · simp [hdir, pure, Except.pure]
        · rw [entryLines_eq, hown, Visit.lines_below_eq_nil hopen]
          exact Emits.refl st

/-! ### Directories -/

/-- The loop emits the lines of the entries one after the other. -/
theorem processEntries_spec
    {process : Nat → Except Nat (List Node) → State → Except Fault State}
    (hprocess : depth + 1 < opts.maxDepth → Processes opts (depth + 1) process)
    (h : Sound opts depth st) (entries : List Node) :
    ∃ st', entries.foldlM (processEntry opts process depth) st = .ok st' ∧
      Emits st (entries.flatMap (entryLines opts depth)) st' ∧ Sound opts depth st' := by
  induction entries generalizing st with
  | nil => exact ⟨st, rfl, Emits.refl st, h⟩
  | cons e entries ih =>
      obtain ⟨st₁, hst₁, hemits₁, hsound₁⟩ := processEntry_spec hprocess h e
      obtain ⟨st₂, hst₂, hemits₂, hsound₂⟩ := ih hsound₁
      refine ⟨st₂, ?_, ?_, hsound₂⟩
      · rw [List.foldlM_cons, hst₁]
        exact hst₂
      · rw [List.flatMap_cons]
        exact hemits₁.trans hemits₂

/-- A call at the depth `depth` emits the lines of its directory. The induction is on what is left
of the depth, and inside of it on the entries. -/
theorem processDirRec_spec (hfuel : depth + fuel = opts.maxDepth) (hdepth : depth < opts.maxDepth) :
    Processes opts depth (processDirRec opts fuel) := by
  -- Induction on the number of levels to the depth limit.
  induction fuel generalizing depth with
  | zero => omega
  | succ fuel ih =>
      intro contents st h
      cases contents with
      | error errno =>
          have hind : depth * 2 < 100 := by
            have := opts.le_limit
            unfold maxDepthLimit at this
            omega
          obtain ⟨hemits, hsound⟩ := emits_print h (.error (List.replicate (depth * 2) space) errno)
            (flushIfFilter opts st).dstat (flushIfFilter opts st).tstat
          obtain ⟨n, hn⟩ : ∃ n, opts.maxDepth - depth = n + 1 :=
            ⟨opts.maxDepth - depth - 1, by omega⟩
          refine ⟨_, if_pos hind, ?_, hsound⟩
          rw [dirLines, hn, entriesBelow, children, List.flatMap_nil, List.flatMap_nil,
            List.append_nil]
          exact hemits
      | ok entries =>
          rw [dirLines_ok hdepth]
          exact processEntries_spec (fun hlt => ih (by omega) hlt) h (sortedEntries entries)

/-- The traversal prints the listing of the tree. The stack does not overflow. At the end it is
empty, and each name that was pushed is freed exactly once. The entries of a directory are in order.
What is below an entry follows it in the listing, and when something below it has lines, the entry
has a line of its own. -/
theorem processDirRoot_listing (opts : Options) (root : Except Nat (List Node)) :
    (∃ st, processDirRoot opts root = .ok st ∧ st.output = listing opts root ∧
      st.pending = [] ∧ st.freed.Perm (List.range st.strdups)) ∧
    (∀ entries, (sortedEntries entries).Perm (entries.filter fun e => !isIgnored e) ∧
      (sortedEntries entries).Pairwise Before) ∧
    ∀ v ∈ allEntries opts root, v :: v.below opts <:+: allEntries opts root ∧
      ∀ w ∈ v.below opts, w.lines opts ≠ [] → v.ownLine opts ≠ [] := by
  refine ⟨?_, sortedEntries_ordered, fun v hv => ⟨?_, fun w => Visit.ownLine_ne_nil⟩⟩
  · have hinit : Sound opts 0 State.init := ⟨Nat.le_refl 0, List.Perm.refl _, fun _ => rfl⟩
    obtain ⟨st, hst, hemits, hsound⟩ :=
      processDirRec_spec (Nat.zero_add opts.maxDepth) opts.one_le root State.init hinit
    have hlines : dirLines opts 0 root = listing opts root := by
      cases root <;> rfl
    have hpending : st.pending = [] := by
      have hlen := hsound.length_le
      exact List.length_eq_zero_iff.mp (Nat.le_zero.mp hlen)
    rw [hlines] at hemits
    refine ⟨st, hst, ?_, hpending, ?_⟩
    · by_cases hnil : listing opts root = []
      · rw [(hemits.quiet hnil).1, hnil]
        rfl
      · exact (hemits.flushed hnil).1
    · have howned := hsound.owned
      rwa [hpending, List.map_nil, List.append_nil] at howned
  · obtain ⟨-, -, hinf⟩ := mem_entriesBelow hv
    rw [Nat.zero_add] at hinf
    exact hinf

end SysProg.Dirtree
