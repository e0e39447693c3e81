import Mathlib.Data.List.Perm.Subperm
import SysProg.Memory.HeapImage
import SysProg.Proofs.Memory.Carve

/-!
# `SysProg.Proofs.Memory.HeapImage`: the heap checker means what it says

The checker of `heapmgr2` counts no nodes and marks none. Its walk over the blocks ends because the
addresses grow, and its walk over a list because the back links are compared: they make the nodes
distinct. No node is in two lists because its span has one bin only.
-/

set_option autoImplicit false

namespace SysProg.Memory.Heapmgr2

open SysProg.Lib

namespace HeapImage

variable {I : HeapImage} {b : Fin numBins} {c w prevW fl : Nat} {seen : List Nat}

/-! ### The blocks -/

/-- What `chunk_is_valid` says. The block has a header and a footer below the end of the heap, and
both have its span. -/
theorem isValid_eq_true (h : I.isValid w = true) :
    w < I.hi ∧ 2 ≤ I.span w ∧ I.getFooter w < I.hi ∧ I.footerSpan (I.getFooter w) = I.span w := by
  unfold isValid at h
  by_cases h₀ : w = 0
  · rw [if_pos h₀] at h
    cases h
  rw [if_neg h₀] at h
  by_cases h₁ : w < I.lo
  · rw [if_pos h₁] at h
    cases h
  rw [if_neg h₁] at h
  by_cases h₂ : I.hi ≤ w
  · rw [if_pos h₂] at h
    cases h
  rw [if_neg h₂] at h
  by_cases h₃ : I.span w < 2
  · rw [if_pos h₃] at h
    cases h
  rw [if_neg h₃] at h
  by_cases h₄ : (I.hi : Int) ≤ I.getFooter w
  · rw [if_pos h₄] at h
    cases h
  rw [if_neg h₄] at h
  exact ⟨by omega, by omega, by omega, of_decide_eq_true h⟩

/-- The block behind a valid one starts at most at the end of the heap, for the footer is in front
of it. -/
theorem nextPhys_of_isValid (h : I.isValid w = true) (haligned : chunkUnit ∣ I.hi - w) :
    ∃ n, n = w + chunkUnit * (I.span w).toNat ∧ w + 2 * chunkUnit ≤ n ∧ n ≤ I.hi ∧
      chunkUnit ∣ I.hi - n ∧ I.nextPhys w = if I.hi ≤ n then 0 else n := by
  obtain ⟨hlt, hspan, hfoot, -⟩ := isValid_eq_true h
  obtain ⟨n, hn⟩ : ∃ n : Nat, n = w + chunkUnit * (I.span w).toNat := ⟨_, rfl⟩
  have hcast : (w : Int) + I.span w * chunkUnit = n := by
    rw [hn]
    unfold chunkUnit
    omega
  have hnext : I.nextPhys w = if I.hi ≤ n then 0 else n := by
    unfold nextPhys
    rw [hcast]
    simp only [Int.ofNat_le, Int.toNat_natCast]
  obtain ⟨k, hk⟩ := haligned
  unfold getFooter chunkUnit at hfoot
  unfold chunkUnit at hk hn
  refine ⟨n, hn, ?_, ?_, ⟨(I.hi - n) / 16, ?_⟩, hnext⟩
  · unfold chunkUnit
    omega
  · omega
  · unfold chunkUnit
    omega

/-- What the walk over the blocks from `w` on says, when it stands behind `prevW`. -/
structure Passed (I : HeapImage) (prevW w : Nat) (cs : List Nat) : Prop where
  walk : I.Walk w cs
  span : ∀ c ∈ cs, 2 ≤ I.span c
  footer : ∀ c ∈ cs, I.footerSpan (I.getFooter c) = I.span c
  apart : cs.IsChain fun c d => ¬ (I.status c = chunkFree ∧ I.status d = chunkFree)
  first : prevW ≠ 0 → ¬ (I.status prevW = chunkFree ∧ I.status w = chunkFree)

/-- One more block in front of those that were passed. -/
theorem Passed.cons {cs : List Nat} (hpos : w ≠ 0) (hspan : 2 ≤ I.span w)
    (hfoot : I.footerSpan (I.getFooter w) = I.span w)
    (hfirst : prevW ≠ 0 → ¬ (I.status prevW = chunkFree ∧ I.status w = chunkFree))
    (hcs : I.Passed w (w + chunkUnit * (I.span w).toNat) cs) : I.Passed prevW w (w :: cs) := by
  refine ⟨⟨rfl, hcs.walk⟩, List.forall_mem_cons.mpr ⟨hspan, hcs.span⟩,
    List.forall_mem_cons.mpr ⟨hfoot, hcs.footer⟩, ?_, hfirst⟩
  cases cs with
  | nil => exact List.isChain_singleton _
  | cons d cs =>
      have hd : d = w + chunkUnit * (I.span w).toNat := hcs.walk.1
      refine List.isChain_cons_cons.mpr ⟨?_, hcs.apart⟩
      rw [hd]
      exact hcs.first hpos

/-- The walk over the blocks from `w` on ends, whatever is in memory. The addresses grow and stay
multiples of a unit away from the end. -/
theorem checkBlocks_spec (fuel : Nat) (hpos : w ≠ 0) (hlt : w < I.hi)
    (haligned : chunkUnit ∣ I.hi - w) (hfuel : I.hi - w ≤ fuel) :
    ∃ ok, (∀ extra, I.checkBlocks (fuel + extra) prevW w = .ok ok) ∧
      (ok = true → ∃ cs, I.Passed prevW w cs) := by
  -- Induction on the fuel. Each block takes two units of the distance to the end at least.
  induction fuel generalizing prevW w with
  | zero => omega
  | succ fuel ih =>
      have hstep : ∀ extra, I.checkBlocks (fuel + 1 + extra) prevW w
          = if !I.isValid w then .ok false
            else if prevW ≠ 0 ∧ I.status prevW = chunkFree ∧ I.status w = chunkFree then .ok false
            else I.checkBlocks (fuel + extra) w (I.nextPhys w) := by
        intro extra
        rw [show fuel + 1 + extra = (fuel + extra) + 1 by omega, checkBlocks, if_neg hpos]
      by_cases hvalid : I.isValid w = true
      · obtain ⟨-, hspan, -, hsame⟩ := isValid_eq_true hvalid
        by_cases hpair : prevW ≠ 0 ∧ I.status prevW = chunkFree ∧ I.status w = chunkFree
        · refine ⟨false, fun extra => ?_, fun h => (by cases h)⟩
          rw [hstep, hvalid, if_neg (by decide), if_pos hpair]
        · obtain ⟨n, hn, hge, hle, hdvd, hnext⟩ := nextPhys_of_isValid hvalid haligned
          unfold chunkUnit at hge
          have hfirst : prevW ≠ 0 → ¬ (I.status prevW = chunkFree ∧ I.status w = chunkFree) :=
            fun hne hboth => hpair ⟨hne, hboth⟩
          by_cases hend : I.hi ≤ n
          · -- The last block ends where the heap does.
            refine ⟨true, fun extra => ?_, fun _ => ⟨[w], ?_⟩⟩
            · obtain ⟨fuel, rfl⟩ : ∃ k, fuel = k + 1 := ⟨fuel - 1, by omega⟩
              rw [hstep, hvalid, if_neg (by decide), if_neg hpair, hnext, if_pos hend,
                show fuel + 1 + extra = (fuel + extra) + 1 by omega, checkBlocks, if_pos rfl]
            · refine ⟨⟨rfl, ?_⟩, by simpa using hspan, by simpa using hsame,
                List.isChain_singleton _, hfirst⟩
              show w + chunkUnit * (I.span w).toNat = I.hi
              omega
          · obtain ⟨ok, hok, htrue⟩ : ∃ ok, (∀ extra, I.checkBlocks (fuel + extra) w n = .ok ok) ∧
                (ok = true → ∃ cs, I.Passed w n cs) := ih (by omega) (by omega) hdvd (by omega)
            refine ⟨ok, fun extra => ?_, fun h => ?_⟩
            · rw [hstep, hvalid, if_neg (by decide), if_neg hpair, hnext, if_neg hend]
              exact hok extra
            · obtain ⟨cs, hcs⟩ := htrue h
              exact ⟨w :: cs, .cons hpos hspan hsame hfirst (hn ▸ hcs)⟩
      · refine ⟨false, fun extra => ?_, fun h => (by cases h)⟩
        rw [hstep, if_pos (by simpa using hvalid)]

/-! ### The lists -/

/-- What the checker finds of a node of the list `b`. -/
def NodeOf (I : HeapImage) (b : Fin numBins) (c : Nat) : Prop :=
  I.status c = chunkFree ∧ getBinIndex (I.span c) = b.val

/-- The nodes that a walk has passed are fewer than the addresses. -/
theorem length_lt_size (htrail : Trail I.nextFree I.prevFree 0 (I.heads b) seen fl)
    (hlt : ∀ c ∈ seen, c < I.size) : seen.length < I.size := by
  have hnodup : (0 :: seen).Nodup :=
    List.nodup_cons.mpr ⟨fun h₀ => htrail.ne_null h₀ rfl, htrail.nodup⟩
  have hsub : 0 :: seen ⊆ List.range I.size := by
    intro c hc
    rw [List.mem_range]
    obtain rfl | hc := List.mem_cons.mp hc
    · have hpos := I.lo_lt
      have hle := I.hi_le
      omega
    · exact hlt c hc
  have hle := (hnodup.subperm hsub).length_le
  rw [List.length_cons, List.length_range] at hle
  omega

/-- The walk over a list ends, whatever is in memory. The fuel and the nodes that it has passed are
as many as the addresses together. -/
theorem checkList_spec (fuel : Nat) (htrail : Trail I.nextFree I.prevFree 0 (I.heads b) seen fl)
    (hback : fl ≠ 0 → seen ≠ [] → I.prevFree fl = seen.head?.getD 0)
    (hlt : ∀ c ∈ seen, c < I.size) (hfl : fl < I.size) (hnodes : ∀ c ∈ seen, I.NodeOf b c)
    (hfuel : I.size ≤ fuel + seen.length) :
    ∃ ok, (∀ extra, I.checkList b (fuel + extra) fl = .ok ok) ∧
      (ok = true → ∃ l, Trail I.nextFree I.prevFree 0 (I.heads b) l 0 ∧ ∀ c ∈ l, I.NodeOf b c) := by
  have hlen := length_lt_size htrail hlt
  induction fuel generalizing seen fl with
  | zero => omega
  | succ fuel ih =>
      have hsucc : ∀ extra, fuel + 1 + extra = (fuel + extra) + 1 := fun extra => by omega
      by_cases hnull : fl = 0
      · refine ⟨true, fun extra => ?_, fun _ => ⟨seen, hnull ▸ htrail, hnodes⟩⟩
        rw [hsucc, checkList, if_pos hnull]
      -- The four comparisons, each of which may reject the node.
      by_cases hstatus : I.status fl ≠ chunkFree
      · refine ⟨false, fun extra => ?_, fun h => (by cases h)⟩
        rw [hsucc, checkList, if_neg hnull]
        simp only [if_pos hstatus]
      by_cases hhead : fl = I.heads b ∧ I.prevFree fl ≠ 0
      · refine ⟨false, fun extra => ?_, fun h => (by cases h)⟩
        rw [hsucc, checkList, if_neg hnull]
        simp only [if_neg hstatus, if_pos hhead]
      by_cases hnext : I.nextFree fl ≠ 0 ∧ I.prevFree (I.nextFree fl) ≠ fl
      · refine ⟨false, fun extra => ?_, fun h => (by cases h)⟩
        rw [hsucc, checkList, if_neg hnull]
        simp only [if_neg hstatus, if_neg hhead, if_pos hnext]
      by_cases hbin : getBinIndex (I.span fl) ≠ b.val
      · refine ⟨false, fun extra => ?_, fun h => (by cases h)⟩
        rw [hsucc, checkList, if_neg hnull]
        simp only [if_neg hstatus, if_neg hhead, if_neg hnext, if_pos hbin]
      -- The node is passed. Its back link is the node before it, or `NULL` at the head.
      have hprev : I.prevFree fl = seen.head?.getD 0 := by
        cases seen with
        | nil =>
            have hfirst : fl = I.heads b := htrail
            exact not_not.mp fun hne => hhead ⟨hfirst, hne⟩
        | cons c seen => exact hback hnull (List.cons_ne_nil _ _)
      have htrail' : Trail I.nextFree I.prevFree 0 (I.heads b) (fl :: seen) (I.nextFree fl) :=
        ⟨rfl, hnull, hprev, htrail⟩
      have hlt' : ∀ c ∈ fl :: seen, c < I.size := List.forall_mem_cons.mpr ⟨hfl, hlt⟩
      have hnodes' : ∀ c ∈ fl :: seen, I.NodeOf b c :=
        List.forall_mem_cons.mpr ⟨⟨not_not.mp hstatus, not_not.mp hbin⟩, hnodes⟩
      have hback' : I.nextFree fl ≠ 0 → fl :: seen ≠ [] →
          I.prevFree (I.nextFree fl) = (fl :: seen).head?.getD 0 :=
        fun hne _ => not_not.mp fun hneq => hnext ⟨hne, hneq⟩
      obtain ⟨ok, hok, htrue⟩ := ih htrail' hback' hlt' (I.nextFree_lt fl) hnodes'
        (by rw [List.length_cons]; omega) (length_lt_size htrail' hlt')
      refine ⟨ok, fun extra => ?_, htrue⟩
      rw [hsucc, checkList, if_neg hnull]
      simp only [if_neg hstatus, if_neg hhead, if_neg hnext, if_neg hbin]
      exact hok extra

/-- The walk over some lists ends. When its answer is `TRUE`, each list has an end, and all its
nodes pass their tests. -/
theorem checkLists_spec (I : HeapImage) (bins : List (Fin numBins)) :
    ∃ ok, (∀ extra, I.checkLists (I.size + extra) bins = .ok ok) ∧
      (ok = true → ∀ b ∈ bins, ∃ l, Trail I.nextFree I.prevFree 0 (I.heads b) l 0 ∧
        ∀ c ∈ l, I.NodeOf b c) := by
  induction bins with
  | nil => exact ⟨true, fun _ => rfl, fun _ _ hb => (by cases hb)⟩
  | cons b bins ih =>
      have hstart : Trail I.nextFree I.prevFree 0 (I.heads b) [] (I.heads b) := rfl
      obtain ⟨ok, hok, htrue⟩ := checkList_spec I.size hstart
        (fun _ hne => absurd rfl hne) (fun _ hc => (by cases hc)) (I.heads_lt b)
        (fun _ hc => (by cases hc)) (Nat.le_refl _)
      obtain ⟨ok', hok', htrue'⟩ := ih
      cases ok with
      | false =>
          refine ⟨false, fun extra => ?_, fun h => (by cases h)⟩
          rw [checkLists, hok extra]
          rfl
      | true =>
          refine ⟨ok', fun extra => ?_, fun h => List.forall_mem_cons.mpr ⟨htrue rfl, htrue' h⟩⟩
          rw [checkLists, hok extra]
          exact hok' extra

/-! ### The checker -/

/-- A node that is reached from the head is a node of the list. -/
theorem Reaches.mem {l : List Nat} (hl : Linked I.nextFree I.prevFree 0 0 (I.heads b) l)
    (hc : I.Reaches b c) : c ∈ l := by
  induction hc with
  | head hne =>
      cases l with
      | nil => exact absurd hl hne
      | cons x l =>
          rw [show I.heads b = x from hl.1]
          exact List.mem_cons_self
  | next hc hne ih =>
      obtain ⟨xs, ys, rfl⟩ := List.append_of_mem ih
      have hnext := hl.next_eq
      cases ys with
      | nil => exact absurd hnext hne
      | cons y ys =>
          rw [show _ = y from hnext]
          simp

/-- A list without an end does not lead to `NULL`. -/
theorem Endless.not_linked (hb : I.Endless b) {before : Nat} {l : List Nat} (hc : I.Reaches b c) :
    ¬ Linked I.nextFree I.prevFree 0 before c l := by
  induction l generalizing before c with
  | nil =>
      intro hnull
      cases hc with
      | head hne => exact hne hnull
      | next hc hne => exact hne hnull
  | cons x l ih =>
      intro ⟨hx, _, _, hrest⟩
      obtain rfl : c = x := hx
      exact ih (hc.next (hb.2 c hc)) hrest

/-- Lists with different bins have different nodes. -/
theorem nodup_flatMap {ls : Fin numBins → List Nat} (hnodup : ∀ b, (ls b).Nodup)
    (hbin : ∀ b, ∀ c ∈ ls b, I.NodeOf b c) : ((List.finRange numBins).flatMap ls).Nodup := by
  refine List.nodup_flatMap.mpr ⟨fun b _ => hnodup b, ?_⟩
  refine (List.nodup_finRange numBins).imp ?_
  intro b b' hne c hc hc'
  have heq := (hbin b c hc).2.symm.trans (hbin b' c hc').2
  exact hne (Fin.ext (by exact_mod_cast heq))

/-- Two checks, one after the other. -/
theorem bind_and {x y : Except Stop Bool} {a a' : Bool} (hx : x = .ok a) (hy : y = .ok a') :
    (x.bind fun ok => if ok then y else .ok false) = .ok (a && a') := by
  rw [hx, hy]
  cases a with
  | false => rfl
  | true => rfl

/-- For every heap image the checker ends. When it answers `TRUE`, the blocks tile the heap and the
free lists are what they should be. So a list that is cyclic or shares a node with another one is
rejected. -/
theorem checkHeapValidity_answers (I : HeapImage) : ∃ ok, I.Answers ok := by
  have hlt := I.lo_lt
  have hle := I.hi_le
  by_cases hlo : I.lo = 0
  · have hfalse : ∀ fuel, I.checkHeapValidity fuel = .ok false := by
      intro fuel
      unfold checkHeapValidity
      rw [if_pos hlo]
    exact ⟨false, fun fuel _ => hfalse fuel, fun h => (by cases h), fun _ _ => rfl,
      fun _ _ _ _ _ _ => rfl⟩
  have hcheck : ∀ fuel, I.checkHeapValidity fuel = (I.checkBlocks fuel 0 I.lo).bind fun ok =>
      if ok then I.checkLists fuel (List.finRange numBins) else .ok false := by
    intro fuel
    unfold checkHeapValidity
    rw [if_neg hlo, if_neg (by omega), if_neg (by omega)]
  obtain ⟨blocks, hblocks, hsound⟩ : ∃ ok,
      (∀ extra, I.checkBlocks (I.size + extra) 0 I.lo = .ok ok) ∧
        (ok = true → ∃ cs, I.Passed 0 I.lo cs) :=
    checkBlocks_spec I.size hlo I.lo_lt I.aligned (by omega)
  obtain ⟨lists, hlists, hnodes⟩ := checkLists_spec I (List.finRange numBins)
  have hends : ∀ fuel, I.size ≤ fuel → I.checkHeapValidity fuel = .ok (blocks && lists) := by
    intro fuel hfuel
    obtain ⟨extra, rfl⟩ : ∃ k, fuel = I.size + k := ⟨fuel - I.size, by omega⟩
    exact (hcheck _).trans (bind_and (hblocks extra) (hlists extra))
  have hchecked : (blocks && lists) = true → ∃ cs ls, I.Checked cs ls := by
    intro htrue
    obtain ⟨hb, hl⟩ := Bool.and_eq_true_iff.mp htrue
    obtain ⟨cs, hcs⟩ := hsound hb
    choose ls htrail hnode using fun b => hnodes hl b (List.mem_finRange b)
    refine ⟨cs, fun b => (ls b).reverse, hcs.walk, hcs.span, hcs.footer, hcs.apart, ?_, ?_, ?_, ?_⟩
    · intro b
      have hlinked : Linked I.nextFree I.prevFree 0 0 (I.heads b) ((ls b).reverse ++ []) :=
        (htrail b).linked rfl
      rwa [List.append_nil] at hlinked
    · exact nodup_flatMap (fun b => List.nodup_reverse.mpr (htrail b).nodup)
        fun b c hc => hnode b c (List.mem_reverse.mp hc)
    · exact fun b c hc => (hnode b c (List.mem_reverse.mp hc)).1
    · exact fun b c hc => (hnode b c (List.mem_reverse.mp hc)).2
  refine ⟨_, hends, hchecked, fun b hb => ?_, fun b b' c hne hc hc' => ?_⟩
  · refine Bool.eq_false_iff.mpr fun htrue => ?_
    obtain ⟨cs, ls, hI⟩ := hchecked htrue
    exact hb.not_linked (.head hb.1) (hI.linked b)
  · refine Bool.eq_false_iff.mpr fun htrue => ?_
    obtain ⟨cs, ls, hI⟩ := hchecked htrue
    -- The node would have both bins.
    have hbin := hI.bin b c (hc.mem (hI.linked b))
    rw [hI.bin b' c (hc'.mem (hI.linked b'))] at hbin
    exact hne (Fin.ext (by exact_mod_cast hbin.symm))

end HeapImage

/-! ### The checker in memory -/

section
variable {h : Heap (Fin numBins)} {lo_lt : h.lo < h.hi} {aligned : chunkUnit ∣ h.hi - h.lo}
  {hi_le : h.hi ≤ 2 ^ 64} {heads_lt : ∀ b, h.heads b < 2 ^ 64} {c w prevW fl : Nat}
  {b : Fin numBins}

/-- The footer in memory is at the exact address. -/
theorem OffsetsFit.getFooter_eq {m : Mem} (hc : OffsetsFit m c) :
    getFooter m c = (((c : Int) + (chunkGetSpan m c - 1) * chunkUnit) % 2 ^ 64).toNat := by
  have hge := hc.ge
  have hle := hc.le
  unfold chunkUnit intMax at hge hle
  have hunits : i32 (chunkGetSpan m c - 1) = chunkGetSpan m c - 1 := i32_eq (by omega) (by omega)
  have hoffset : i32 ((chunkGetSpan m c - 1) * chunkUnit) = (chunkGetSpan m c - 1) * chunkUnit :=
    i32_eq (by unfold chunkUnit; omega) (by unfold chunkUnit; omega)
  unfold getFooter ptrAdd
  rw [hunits, hoffset]

/-- The previous block in the list, as the bytes have it and as the image has it. -/
theorem OffsetsFit.prevFree_eq (hc : OffsetsFit h.mem c) :
    chunkGetPrevFree h.mem c = (image h lo_lt aligned hi_le heads_lt).prevFree c := by
  unfold chunkGetPrevFree HeapImage.prevFree HeapImage.getFooter image
  simp only [hc.getFooter_eq]

/-- The next block in memory is at the exact address. -/
theorem OffsetsFit.nextPhys_eq (hc : OffsetsFit h.mem c) (hspan : 2 ≤ chunkGetSpan h.mem c) :
    chunkGetNextPhys h.mem c h.hi = (image h lo_lt aligned hi_le heads_lt).nextPhys c := by
  have hle := hc.le
  have hstop := hc.stop
  obtain ⟨n, hn⟩ : ∃ n : Nat, (n : Int) = c + chunkGetSpan h.mem c * chunkUnit :=
    ⟨((c : Int) + chunkGetSpan h.mem c * chunkUnit).toNat,
      Int.toNat_of_nonneg (by unfold chunkUnit; omega)⟩
  unfold chunkUnit intMax at hle
  have hoffset : i32 (chunkGetSpan h.mem c * chunkUnit) = chunkGetSpan h.mem c * chunkUnit :=
    i32_eq (by unfold chunkUnit; omega) (by unfold chunkUnit; omega)
  have hptr : ptrAdd c (chunkGetSpan h.mem c * chunkUnit) = n :=
    ptrAdd_eq hn.symm (by rw [← hn] at hstop; exact_mod_cast hstop)
  unfold chunkGetNextPhys HeapImage.nextPhys image
  simp only [hoffset, hptr, ← hn, Int.ofNat_le, Int.toNat_natCast]

/-- The check of a block in memory is exact. -/
theorem OffsetsFit.isValid_eq (hc : OffsetsFit h.mem c) :
    chunkIsValid h.mem c h.lo h.hi = (image h lo_lt aligned hi_le heads_lt).isValid c := by
  have hstop := hc.stop
  unfold chunkIsValid HeapImage.isValid HeapImage.getFooter image
  by_cases hspan : chunkGetSpan h.mem c < 2
  · simp only [if_pos hspan]
  · -- The address of the footer is not reduced.
    obtain ⟨f, hf⟩ : ∃ f : Nat, (f : Int) = c + (chunkGetSpan h.mem c - 1) * chunkUnit :=
      ⟨((c : Int) + (chunkGetSpan h.mem c - 1) * chunkUnit).toNat,
        Int.toNat_of_nonneg (by unfold chunkUnit; omega)⟩
    have hlt : (f : Int) < 2 ^ 64 := by
      unfold chunkUnit at hf hstop
      omega
    have hmod : ((f : Int) % 2 ^ 64).toNat = f := by omega
    simp only [hc.getFooter_eq, ← hf, hmod, Int.ofNat_le]

/-- The walk over the blocks in memory is exact. It visits only blocks whose offsets fit into an
`int`. -/
theorem checkBlocks_image (hfit : ∀ c, Visited h c → OffsetsFit h.mem c) (fuel : Nat)
    (hw : Visited h w) : checkBlocks h fuel prevW w
      = (image h lo_lt aligned hi_le heads_lt).checkBlocks fuel prevW w := by
  obtain ⟨I, hI⟩ : ∃ I, I = image h lo_lt aligned hi_le heads_lt := ⟨_, rfl⟩
  have hstatus : I.status = chunkGetStatus h.mem := by rw [hI, image]
  have hspan : I.span = chunkGetSpan h.mem := by rw [hI, image]
  have hvalid : ∀ c, Visited h c → chunkIsValid h.mem c h.lo h.hi = I.isValid c := by
    intro c hc
    rw [hI]
    exact (hfit c hc).isValid_eq
  have hnext : ∀ c, Visited h c → I.isValid c = true →
      chunkGetNextPhys h.mem c h.hi = I.nextPhys c := by
    intro c hc hok
    have hge := (HeapImage.isValid_eq_true hok).2.1
    rw [hspan] at hge
    rw [hI]
    exact (hfit c hc).nextPhys_eq hge
  rw [← hI]
  clear hI
  induction fuel generalizing prevW w with
  | zero => rfl
  | succ fuel ih =>
      rw [checkBlocks, HeapImage.checkBlocks, hvalid w hw, hstatus]
      by_cases hok : I.isValid w = true
      · rw [hnext w hw hok, ih (hnext w hw hok ▸ hw.nextPhys)]
      · rw [Bool.not_eq_true] at hok
        simp only [hok, Bool.not_false, if_true]

/-- The walk over a list in memory is exact. Its nodes are visited, so their offsets fit into an
`int`. -/
theorem checkList_image (hfit : ∀ c, Visited h c → OffsetsFit h.mem c) (fuel : Nat)
    (hfl : Visited h fl) : checkList binOf h b fuel fl
      = (image h lo_lt aligned hi_le heads_lt).checkList b fuel fl := by
  obtain ⟨I, hI⟩ : ∃ I, I = image h lo_lt aligned hi_le heads_lt := ⟨_, rfl⟩
  have hstatus : I.status = chunkGetStatus h.mem := by rw [hI, image]
  have hspan : I.span = chunkGetSpan h.mem := by rw [hI, image]
  have hnext : I.nextFree = chunkGetNextFree h.mem := by rw [hI, image]
  have hheads : I.heads = h.heads := by rw [hI, image]
  have hprev : ∀ c, Visited h c → chunkGetPrevFree h.mem c = I.prevFree c := by
    intro c hc
    rw [hI]
    exact (hfit c hc).prevFree_eq
  -- The bin of a span is its index.
  have hbin : ∀ span : Int, binOf span ≠ some b ↔ getBinIndex span ≠ b.val := by
    intro span
    rw [not_iff_not]
    refine ⟨binOf_eq_some, fun hindex => ?_⟩
    have hrange : 0 ≤ getBinIndex span ∧ getBinIndex span < numBins := by
      have hb := b.isLt
      omega
    unfold binOf
    simp only [dif_pos hrange]
    exact congrArg some (Fin.ext (by simp only; omega))
  rw [← hI]
  clear hI
  induction fuel generalizing fl with
  | zero => rfl
  | succ fuel ih =>
      have hrest := ih hfl.nextFree
      rw [checkList, HeapImage.checkList]
      simp only [hstatus, hspan, hnext, hheads, hprev fl hfl, hprev _ hfl.nextFree, hrest, hbin]

/-- The check of the lists of the heap is that of its image. -/
theorem checkLists_image (hfit : ∀ c, Visited h c → OffsetsFit h.mem c)
    (bins : List (Fin numBins)) : checkLists binOf h bins
      = (image h lo_lt aligned hi_le heads_lt).checkLists (2 ^ 64) bins := by
  induction bins with
  | nil => rfl
  | cons b bins ih =>
      have hheads : (image h lo_lt aligned hi_le heads_lt).heads b = h.heads b := by rw [image]
      rw [checkLists, HeapImage.checkLists, hheads, ih, checkList_image hfit _ (.head b)]

/-- As long as the offsets fit, the checker in memory is the exact one. So what is shown of the
exact one holds of the checker. -/
theorem checkHeapValidity_image (hfit : ∀ c, Visited h c → OffsetsFit h.mem c) :
    checkHeapValidity h
      = (image h lo_lt aligned hi_le heads_lt).checkHeapValidity (2 ^ 64) := by
  obtain ⟨I, hI⟩ : ∃ I, I = image h lo_lt aligned hi_le heads_lt := ⟨_, rfl⟩
  have hlo : I.lo = h.lo := by rw [hI, image]
  have hhi : I.hi = h.hi := by rw [hI, image]
  have hheads : I.heads = h.heads := by rw [hI, image]
  have hblocks : checkBlocks h (2 ^ 64) 0 h.lo = I.checkBlocks (2 ^ 64) 0 h.lo := by
    rw [hI]
    exact checkBlocks_image hfit _ .lo
  have hlists : ∀ bins, checkLists binOf h bins = I.checkLists (2 ^ 64) bins := by
    intro bins
    rw [hI]
    exact checkLists_image hfit bins
  rw [← hI]
  unfold checkHeapValidity SysProg.Memory.checkHeapValidity HeapImage.checkHeapValidity
  rw [hblocks, hlo, hhi, hheads]
  simp only [hlists]

end

end SysProg.Memory.Heapmgr2
