import SysProg.Proofs.Kvs.SharedInv

/-!
# `SysProg.Proofs.Kvs.SharedStep`: every step keeps the invariant of the shared table

One lemma for each kind of step: `SharedInv.call`, `SharedInv.lockMove`, `SharedInv.begin`,
`SharedInv.access` with one case for each place of a thread, and `SharedInv.release`. Only
the release changes the map of the returned operations.
-/

set_option autoImplicit false

namespace SysProg.Kvs

open SysProg.Lib

variable {Tid : Type} [Fintype Tid] [DecidableEq Tid]

namespace SharedInv

variable {s : Shared Tid} {ps : Int → List Ptr} {m : CString → Option CString}

/-! ### Inside a bucket -/

omit [DecidableEq Tid] in
/-- In the bucket of a writer, a live node is in the chain or in the hands of the writer. -/
theorem live_home (h : SharedInv s ps m) {t : Tid} {r : Request} {q : Ptr} {n : Node}
    (hw : (s.locks (s.index r)).Writing t)
    (hn : s.table.nodes q = some n) (hi : s.table.index n.key = s.index r) :
    q ∈ ps (s.index r) ∨ (s.pc t).node = some q := by
  cases h.live q n hn with
  | inl hin => exact Or.inl (hi ▸ hin)
  | inr hown =>
      obtain ⟨u, hu⟩ := hown
      by_cases hut : u = t
      · exact Or.inr (hut ▸ hu)
      · -- Another owner would work in the same bucket.
        exfalso
        have hwork : ∃ r', (s.pc u).working = some r' := by
          cases hpc : s.pc u <;> rw [hpc] at hu <;> cases hu <;> exact ⟨_, rfl⟩
        obtain ⟨r', hwork⟩ := hwork
        obtain ⟨n', hn', hi'⟩ := h.node_home (Pc.request_of_working hwork) hu
        rw [hn, Option.some.injEq] at hn'
        subst hn'
        have hheld := h.holds u r' hwork
        rw [← hi', hi] at hheld
        exact h.not_writing hheld (Ne.symm hut) hw

omit [DecidableEq Tid] in
/-- A live node that stays where it was satisfies the last premise of `write`. -/
theorem live_or (h : SharedInv s ps m) {t : Tid} {r : Request} {q : Ptr} {n : Node} {P : Prop}
    (hw : (s.locks (s.index r)).Writing t) (hn : s.table.nodes q = some n)
    (hin : q ∈ ps (s.index r) ∨ (s.pc t).node = some q → P) :
    s.table.index n.key = s.index r ∧ P ∨
      s.table.index n.key ≠ s.index r ∧ s.table.nodes q = some n := by
  by_cases hi : s.table.index n.key = s.index r
  · exact Or.inl ⟨hi, hin (h.live_home hw hn hi)⟩
  · exact Or.inr ⟨hi, hn⟩

omit [Fintype Tid] [DecidableEq Tid] in
/-- The operations that change the table take the write lock. -/
theorem writing_of_holds {l : LockState Tid} {t : Tid} {r : Request}
    (hr : ∀ key, r.op ≠ .read key) (hp : (l.phase t).Holds r.access) : l.Writing t := by
  have hacc : r.access = .write := by
    unfold Request.access
    cases hop : r.op with
    | read key => exact absurd hop (hr key)
    | _ => rfl
  rw [hacc] at hp
  exact hp

omit [DecidableEq Tid] in
/-- What a thread knows behind the lock: it holds the lock, and it knows the chain of its bucket
and its own place. -/
theorem at_work (h : SharedInv s ps m) {t : Tid} {r : Request} {pc : Pc} (hpc : s.pc t = pc)
    (hwork : pc.working = some r) :
    ((s.locks (s.index r)).phase t).Holds r.access ∧
      Bucket s.table (s.index r) (ps (s.index r)) (pc.after m) ∧
      Local s.table (ps (s.index r)) m (s.index r) pc := by
  subst hpc
  have hr := Pc.request_of_working hwork
  have hp := h.holds t r hwork
  exact ⟨hp, h.bucket_of_holds hr hp, h.locals t r hr⟩

/-- A thread whose lock function has returned enters the loop. -/
theorem «begin» (h : SharedInv s ps m) {t : Tid} {r : Request} (hpc : s.pc t = .locking r)
    (hheld : s.Holding (s.index r) t) :
    SharedInv (s.setPc t (.walk r 0 (s.table.buckets (s.index r)))) ps m := by
  have hr : (s.pc t).request = some r := by rw [hpc]; rfl
  have hp := (h.locking t r hpc).holds hheld
  have hb := h.bucket_of_holds hr hp
  rw [hpc] at hb
  exact h.stay hr hp rfl (by rw [hpc]; rfl) (by rw [hpc]; rfl)
    ⟨[], ps (s.index r), rfl, Walked.start hb⟩

/-- One step of the loop. The nodes that the thread has passed do not have the key. -/
theorem walk (h : SharedInv s ps m) {t : Tid} {r : Request} {prev node : Ptr} {mem : Alloc}
    {table : Table} {pc : Pc} (hpc : s.pc t = .walk r prev node)
    (hacc : Shared.access s.table (s.index r) mem (s.pc t) = some (table, pc)) :
    table = s.table ∧ SharedInv (s.setPc t pc) ps m := by
  have hr : (s.pc t).request = some r := by rw [hpc]; rfl
  have hafter : (s.pc t).after m = m := by rw [hpc]; rfl
  have hnone : (s.pc t).node = none := by rw [hpc]; rfl
  obtain ⟨hp, hb, hloc⟩ := h.at_work hpc rfl
  rw [hpc] at hacc
  -- The loop ends at `NULL`, and otherwise compares the key of the node.
  obtain ⟨pre, suf, hps, hwalk⟩ := hloc
  rw [hps] at hb
  by_cases hnode : node = 0
  · subst hnode
    have habsent : m r.op.key = none := Walked.absent hb hwalk rfl
    simp only [Shared.access, if_true] at hacc
    -- The three operations that answer `0` when the key is absent.
    have hzero : r.op.apply m true = (m, ⟨0, none⟩) →
        SharedInv (s.setPc t (.unlocking r ⟨⟨0, none⟩, true⟩)) ps m := by
      intro happly
      refine h.stay hr hp rfl ?_ hnone.symm ?_
      · rw [hafter]
        show (r.op.apply m true).1 = m
        rw [happly]
      · show (⟨0, none⟩ : Reply CString) = (r.op.apply m true).2
        rw [happly]
    cases hop : r.op with
    | insert key value =>
        rw [hop] at hacc habsent
        cases hacc
        exact ⟨rfl, h.stay hr hp rfl hafter.symm hnone.symm ⟨key, value, hop, habsent⟩⟩
    | read key | update key value | delete key =>
        rw [hop] at hacc habsent
        cases hacc
        have hm : m key = none := habsent
        exact ⟨rfl, hzero (by simp only [hop, MapOp.apply, hm])⟩
  -- Away from `NULL` the cursor is on a live node, so the access cannot fault.
  · obtain ⟨rest, n, rfl, hn, -⟩ := hwalk.exists_cons hnode
    simp only [Shared.access, if_neg hnode, hn] at hacc
    by_cases hkey : n.key = r.op.key
    · rw [if_pos hkey] at hacc
      cases hacc
      exact ⟨rfl, h.stay hr hp rfl hafter.symm hnone.symm
        ⟨pre, rest, n, hps, hwalk.last, hn, hkey⟩⟩
    · rw [if_neg hkey] at hacc
      cases hacc
      refine ⟨rfl, h.stay hr hp rfl hafter.symm hnone.symm ⟨pre ++ [node], rest, ?_, ?_⟩⟩
      · rw [hps]
        simp
      · exact hwalk.advance hn hkey

omit [DecidableEq Tid] in
/-- What a thread knows at a node with its key: the place of the node in the chain, and the
value in the map. -/
theorem at_found (h : SharedInv s ps m) {t : Tid} {r : Request} {prev node : Ptr}
    (hpc : s.pc t = .found r prev node) :
    ((s.locks (s.index r)).phase t).Holds r.access ∧
      Bucket s.table (s.index r) (ps (s.index r)) m ∧
      ∃ pre suf n, ps (s.index r) = pre ++ node :: suf ∧ prev = pre.getLastD 0 ∧
        s.table.nodes node = some n ∧ n.key = r.op.key ∧ s.table.index n.key = s.index r ∧
        m r.op.key = some n.value := by
  obtain ⟨hp, hb, pre, suf, n, hps, hprev, hn, hkey⟩ := h.at_work hpc rfl
  have hmem : node ∈ ps (s.index r) := by rw [hps]; simp
  refine ⟨hp, hb, pre, suf, n, hps, hprev, hn, hkey, hb.home node hmem n hn, ?_⟩
  rw [hps] at hb
  rw [← hkey]
  exact Walked.found hb hn

/-- An access at a node that does not change the table. -/
theorem found_stay (h : SharedInv s ps m) {t : Tid} {r : Request} {prev node : Ptr} {o : Outcome}
    (hpc : s.pc t = .found r prev node) (hsame : (r.op.apply m o.allocated).1 = m)
    (hreply : o.reply = (r.op.apply m o.allocated).2) :
    SharedInv (s.setPc t (.unlocking r o)) ps m := by
  have hr : (s.pc t).request = some r := by rw [hpc]; rfl
  have hafter : (s.pc t).after m = m := by rw [hpc]; rfl
  have hnone : (s.pc t).node = none := by rw [hpc]; rfl
  exact h.stay hr (h.at_found hpc).1 rfl (by rw [hafter]; exact hsame) hnone.symm hreply

/-- `hash_update` puts the new value into the node. The node keeps its key and its place in the
chain, and the thread is left with its unlock and its answer. -/
theorem found_update (h : SharedInv s ps m) {t : Tid} {r : Request} {prev node : Ptr}
    {key value : CString} {n : Node} (hpc : s.pc t = .found r prev node)
    (hop : r.op = .update key value) (hn : s.table.nodes node = some n) :
    ∃ ps', SharedInv { s.setPc t (.unlocking r ⟨⟨1, none⟩, true⟩) with
      table := s.table.setNode node { n with value := value } } ps' m := by
  have hr : (s.pc t).request = some r := by rw [hpc]; rfl
  have hnone : (s.pc t).node = none := by rw [hpc]; rfl
  obtain ⟨hp, hb, pre, suf, n', hps, -, hn', hkey, hin, hsome⟩ := h.at_found hpc
  rw [hn, Option.some.injEq] at hn'
  subst hn'
  have hmem : node ∈ ps (s.index r) := by rw [hps]; simp
  have hw := writing_of_holds (by simp [hop]) hp
  have hm : m key = some n.value := by rw [hop] at hsome; exact hsome
  have hnk : n.key = key := by rw [hkey, hop]; rfl
  have hset : Bucket (s.table.setNode node { n with value := value }) (s.index r)
      (ps (s.index r)) ((Pc.unlocking r ⟨⟨1, none⟩, true⟩).after m) := by
    simpa only [Pc.after, hop, MapOp.apply, hm, hnk, if_true] using hb.setValue hmem hn value
  refine ⟨_, h.write hr hp hw rfl rfl (fun _ _ => rfl) (fun _ _ => rfl)
    (fun q n' hq hne => ?_) hset ?_ fun q n' hq => ?_⟩
  · -- A node of another bucket is not the node that is written to.
    have hqn : q ≠ node := by
      intro heq
      rw [heq, hn, Option.some.injEq] at hq
      exact hne (hq ▸ hin)
    simpa [Table.setNode, hqn] using hq
  · simp only [Local, hop, MapOp.apply, hm, if_true]
  · by_cases hqn : q = node
    · subst hqn
      have hq' : { n with value := value } = n' := by simpa [Table.setNode] using hq
      subst hq'
      exact Or.inl ⟨hin, Or.inl hmem⟩
    · have hq' : s.table.nodes q = some n' := by simpa [Table.setNode, hqn] using hq
      refine h.live_or hw hq' fun hmem => ?_
      cases hmem with
      | inl hin => exact Or.inl hin
      | inr hown => rw [hnone] at hown; cases hown

/-- `hash_delete` takes the node out of the chain. The node stays live until it is freed. -/
theorem found_delete (h : SharedInv s ps m) {t : Tid} {r : Request} {prev node : Ptr}
    {key : CString} {n : Node} {t' : Table} (hpc : s.pc t = .found r prev node)
    (hop : r.op = .delete key) (hn : s.table.nodes node = some n)
    (hcut : s.table.unlink (s.index r) ⟨prev, node, n⟩ = some t') :
    ∃ ps', SharedInv { s.setPc t (.unlinked r node) with table := t' } ps' m := by
  have hr : (s.pc t).request = some r := by rw [hpc]; rfl
  have hnone : (s.pc t).node = none := by rw [hpc]; rfl
  obtain ⟨hp, hb, pre, suf, n', hps, hprev, hn', hkey, hin, hsome⟩ := h.at_found hpc
  rw [hn, Option.some.injEq] at hn'
  subst hn'
  have hw := writing_of_holds (by simp [hop]) hp
  have hm : m key = some n.value := by rw [hop] at hsome; exact hsome
  have hnk : n.key = key := by rw [hkey, hop]; rfl
  rw [hps] at hb
  obtain ⟨t₁, hcut', hb', hsize, hheads, hsizes, hnodes⟩ :=
    hb.unlink (f := ⟨prev, node, n⟩) hn hprev
  rw [hcut, Option.some.injEq] at hcut'
  subst hcut'
  have hout : node ∉ pre ++ suf := (List.nodup_middle.mp hb.nodup).notMem
  have hself : t'.nodes node = some n :=
    (hnodes node fun hin' => hout (List.mem_append_left suf hin')).trans hn
  have hindex : ∀ k, t'.index k = s.table.index k := by
    intro k
    unfold Table.index
    rw [hsize]
  have hbucket : Bucket t' (s.index r) (pre ++ suf) ((Pc.unlinked r node).after m) := by
    simpa only [Pc.after, hop, MapOp.apply, hm, hnk] using hb'
  refine ⟨_, h.write hr hp hw rfl hsize hheads hsizes (fun q n' hq hne => ?_) hbucket
    ⟨key, n.value, hop, hm, hout, n, hself, (hindex _).trans hin⟩ fun q n' hq => ?_⟩
  · -- A node of another bucket is not in this chain.
    rw [hnodes q fun hin' => ?_]
    · exact hq
    · obtain ⟨n₀, hn₀, hi₀⟩ := h.exists_node (h.index_inRange r)
        (show q ∈ ps (s.index r) by rw [hps]; exact List.mem_append_left _ hin')
      rw [hq, Option.some.injEq] at hn₀
      exact hne (hn₀ ▸ hi₀)
  · by_cases hqn : q = node
    · subst hqn
      rw [hself, Option.some.injEq] at hq
      subst hq
      exact Or.inl ⟨hin, Or.inr rfl⟩
    · by_cases hqs : q ∈ pre ++ suf
      · exact Or.inl ⟨(hindex _).symm.trans (hb'.home q hqs n' hq), Or.inl hqs⟩
      · rw [hnodes q fun hin' => hqs (List.mem_append_left suf hin')] at hq
        refine h.live_or hw hq fun hmem => ?_
        cases hmem with
        | inl hmem' =>
            rw [hps] at hmem'
            simp only [List.mem_append, List.mem_cons] at hmem' hqs
            tauto
        | inr hown => rw [hnone] at hown; cases hown

/-- The access at a node with the key. What the function does there depends on which one of the four
it is. -/
theorem found (h : SharedInv s ps m) {t : Tid} {r : Request} {prev node : Ptr} {mem : Alloc}
    {table : Table} {pc : Pc} (hpc : s.pc t = .found r prev node)
    (hacc : Shared.access s.table (s.index r) mem (s.pc t) = some (table, pc)) :
    ∃ ps', SharedInv { s.setPc t pc with table := table } ps' m := by
  obtain ⟨_, hb, pre, suf, n, hps, hprev, hn, hkey, _, hsome⟩ := h.at_found hpc
  rw [hpc] at hacc
  simp only [Shared.access, hn] at hacc
  cases hop : r.op with
  | insert key value =>
      have hm : m key = some n.value := by rw [hop] at hsome; exact hsome
      rw [hop] at hacc
      cases hacc
      exact ⟨ps, h.found_stay hpc (by simp only [hop, MapOp.apply, hm])
        (by simp only [hop, MapOp.apply, hm])⟩
  | read key =>
      have hm : m key = some n.value := by rw [hop] at hsome; exact hsome
      rw [hop] at hacc
      cases hacc
      exact ⟨ps, h.found_stay hpc (by simp only [hop, MapOp.apply, hm])
        (by simp only [hop, MapOp.apply, hm])⟩
  | update key value =>
      have hm : m key = some n.value := by rw [hop] at hsome; exact hsome
      rw [hop] at hacc
      simp only at hacc
      -- `strdup` succeeds or fails.
      split at hacc
      · cases hacc
        exact h.found_update hpc hop hn
      · cases hacc
        exact ⟨ps, h.found_stay hpc (by simp [hop, MapOp.apply, hm])
          (by simp [hop, MapOp.apply, hm])⟩
  | delete key =>
      rw [hps] at hb
      obtain ⟨t', hcut, _⟩ := hb.unlink (f := ⟨prev, node, n⟩) hn hprev
      rw [hop] at hacc
      simp only [hcut, Option.some.injEq, Prod.mk.injEq] at hacc
      obtain ⟨rfl, rfl⟩ := hacc
      exact h.found_delete hpc hop hn hcut

/-- `hash_insert` builds its node, or gives up. The node belongs to the thread until it is linked.
-/
theorem build (h : SharedInv s ps m) {t : Tid} {r : Request} {mem : Alloc} {table : Table}
    {pc : Pc} (hpc : s.pc t = .build r) (hfit : mem.Fits s.table)
    (hacc : Shared.access s.table (s.index r) mem (s.pc t) = some (table, pc)) :
    SharedInv { s.setPc t pc with table := table } ps m := by
  have hr : (s.pc t).request = some r := by rw [hpc]; rfl
  have hafter : (s.pc t).after m = m := by rw [hpc]; rfl
  have hnone : (s.pc t).node = none := by rw [hpc]; rfl
  obtain ⟨hp, hb, hloc⟩ := h.at_work hpc rfl
  rw [hpc] at hacc
  obtain ⟨key, value, hop, hm⟩ := hloc
  have hw := writing_of_holds (by simp [hop]) hp
  simp only [Shared.access, hop] at hacc
  split at hacc
  · rename_i hok
    rw [Option.some.injEq, Prod.mk.injEq] at hacc
    obtain ⟨rfl, rfl⟩ := hacc
    have hok' : mem.node ≠ 0 ∧ mem.key = true ∧ mem.value = true := by
      simpa [Alloc.succeeds, and_assoc] using hok
    -- `malloc` returns an address that no live node has.
    have hdead : s.table.nodes mem.node = none := hfit
    have hout : ∀ j, s.table.InRange j → mem.node ∉ ps j := by
      intro j hj hin
      obtain ⟨n, hn, -⟩ := h.exists_node hj hin
      rw [hdead] at hn
      cases hn
    have hne : ∀ q n, s.table.nodes q = some n → q ≠ mem.node := by
      intro q n hn heq
      rw [heq, hdead] at hn
      cases hn
    have hsame : ∀ q, q ≠ mem.node →
        (s.table.setNode mem.node ⟨key, value, s.table.buckets (s.index r)⟩).nodes q
          = s.table.nodes q := fun q hq => Function.update_of_ne hq _ _
    have hkey : s.table.index key = s.index r := by simp [Shared.index, hop, MapOp.key]
    have hbucket : Bucket
        (s.table.setNode mem.node ⟨key, value, s.table.buckets (s.index r)⟩) (s.index r)
        (ps (s.index r)) ((Pc.publish r mem.node).after m) := by
      refine hb.congr rfl rfl rfl ((hsame 0 hok'.1.symm).trans hb.null) (fun q hq => ?_)
        fun _ _ => rfl
      obtain ⟨n, hn⟩ := hb.exists_node hq
      exact hsame q (hne q n hn)
    rw [← Function.update_eq_self (s.index r) ps]
    refine h.write hr hp hw rfl rfl (fun _ _ => rfl) (fun _ _ => rfl)
      (fun q n hn _ => (hsame q (hne q n hn)).trans hn) hbucket
      ⟨key, value, hop, hm, by simp [Table.setNode], hout _ (h.index_inRange r)⟩
      fun q n hn => ?_
    by_cases hq : q = mem.node
    · subst hq
      have hn' : (⟨key, value, s.table.buckets (s.index r)⟩ : Node) = n := by
        simpa [Table.setNode] using hn
      subst hn'
      exact Or.inl ⟨hkey, Or.inr rfl⟩
    · rw [hsame q hq] at hn
      refine h.live_or hw hn fun hmem => ?_
      cases hmem with
      | inl hin => exact Or.inl hin
      | inr hown => rw [hnone] at hown; cases hown
  -- An allocation failed. The code frees what it has, and the table is as before.
  · rw [Option.some.injEq, Prod.mk.injEq] at hacc
    obtain ⟨rfl, rfl⟩ := hacc
    refine h.stay hr hp rfl ?_ hnone.symm ?_
    · rw [hafter]
      simp [Pc.after, hop, MapOp.apply, hm]
    · simp [Local, hop, MapOp.apply, hm]

/-- `hash_insert` links its node. From here on the other threads can see it, and the key is in the
map. -/
theorem publish (h : SharedInv s ps m) {t : Tid} {r : Request} {p : Ptr}
    (hpc : s.pc t = .publish r p) :
    ∃ ps', SharedInv { s.setPc t (.unlocking r ⟨⟨1, none⟩, true⟩) with
      table := s.table.publish (s.index r) p } ps' m := by
  have hr : (s.pc t).request = some r := by rw [hpc]; rfl
  have hown : (s.pc t).node = some p := by rw [hpc]; rfl
  obtain ⟨hp, hb, key, value, hop, hm, hn, -⟩ := h.at_work hpc rfl
  have hw := writing_of_holds (by simp [hop]) hp
  have hkey : s.table.index key = s.index r := by simp [Shared.index, hop, MapOp.key]
  have hbucket : Bucket (s.table.publish (s.index r) p) (s.index r) (p :: ps (s.index r))
      ((Pc.unlocking r ⟨⟨1, none⟩, true⟩).after m) := by
    simpa only [Pc.after, hop, MapOp.apply, hm, if_true] using hb.publish hn hkey hm
  refine ⟨_, h.write hr hp hw rfl rfl (fun j hj => Function.update_of_ne hj _ _)
    (fun j hj => Function.update_of_ne hj _ _) (fun q n hq _ => hq) hbucket ?_
    fun q n hq => ?_⟩
  · simp only [Local, hop, MapOp.apply, hm, if_true]
  · have hq' : s.table.nodes q = some n := hq
    -- Outside of the chain the writer had only the node that it links now.
    refine h.live_or hw hq' fun hmem => Or.inl ?_
    cases hmem with
    | inl hin => exact List.mem_cons_of_mem p hin
    | inr hqp =>
        rw [hown, Option.some.injEq] at hqp
        exact hqp ▸ List.mem_cons_self

/-- `hash_delete` frees the node that it took out of the chain. No link to it is left, so no other
thread can come to it. -/
theorem unlinked (h : SharedInv s ps m) {t : Tid} {r : Request} {p : Ptr}
    (hpc : s.pc t = .unlinked r p) :
    SharedInv { s.setPc t (.unlocking r ⟨⟨1, none⟩, true⟩) with table := s.table.freeNode p }
      ps m := by
  have hr : (s.pc t).request = some r := by rw [hpc]; rfl
  have hown : (s.pc t).node = some p := by rw [hpc]; rfl
  obtain ⟨hp, hb, key, value, hop, hm, hout, n, hn, hi⟩ := h.at_work hpc rfl
  have hw := writing_of_holds (by simp [hop]) hp
  have hsame : ∀ q, q ≠ p → (s.table.freeNode p).nodes q = s.table.nodes q :=
    fun q hq => Function.update_of_ne hq _ _
  -- The freed node was in no chain, so no chain changes.
  have hself : (s.table.freeNode p).nodes p = none := by simp [Table.freeNode]
  have hpne : p ≠ 0 := by
    intro heq
    rw [heq, h.null] at hn
    cases hn
  have hbucket : Bucket (s.table.freeNode p) (s.index r) (ps (s.index r))
      ((Pc.unlocking r ⟨⟨1, none⟩, true⟩).after m) := by
    refine hb.congr rfl rfl rfl ((hsame 0 hpne.symm).trans h.null) (fun q hq => hsame q ?_)
      fun _ _ => rfl
    intro heq
    exact hout (heq ▸ hq)
  rw [← Function.update_eq_self (s.index r) ps]
  refine h.write hr hp hw rfl rfl (fun _ _ => rfl) (fun _ _ => rfl)
    (fun q n' hq hne => ?_) hbucket ?_ fun q n' hq => ?_
  · rw [hsame q fun heq => ?_]
    · exact hq
    · rw [heq, hn, Option.some.injEq] at hq
      exact hne (hq ▸ hi)
  · simp only [Local, hop, MapOp.apply, hm]
  · have hqp : q ≠ p := by
      intro heq
      rw [heq, hself] at hq
      cases hq
    rw [hsame q hqp] at hq
    refine h.live_or hw hq fun hmem => ?_
    cases hmem with
    | inl hin => exact Or.inl hin
    | inr hown' =>
        rw [hown, Option.some.injEq] at hown'
        exact absurd hown'.symm hqp

/-- Every access of a thread in its bucket keeps the invariant. There is one lemma for each place of
the functions. -/
theorem access (h : SharedInv s ps m) {t : Tid} {r : Request} {mem : Alloc} {table : Table}
    {pc : Pc} (hr : (s.pc t).request = some r) (hfit : mem.Fits s.table)
    (hacc : Shared.access s.table (s.index r) mem (s.pc t) = some (table, pc)) :
    ∃ ps', SharedInv { s.setPc t pc with table := table } ps' m := by
  cases hpc : s.pc t with
  | walk r' prev node =>
      rw [hpc] at hr
      cases hr
      obtain ⟨rfl, hinv⟩ := h.walk hpc hacc
      exact ⟨ps, hinv⟩
  | found r' prev node =>
      rw [hpc] at hr
      cases hr
      exact h.found hpc hacc
  | build r' =>
      rw [hpc] at hr
      cases hr
      exact ⟨ps, h.build hpc hfit hacc⟩
  | publish r' p =>
      rw [hpc] at hr hacc
      cases hr
      cases hacc
      exact h.publish hpc
  | unlinked r' p =>
      rw [hpc] at hr hacc
      cases hr
      cases hacc
      exact ⟨ps, h.unlinked hpc⟩
  | _ => rw [hpc] at hacc; cases hacc

omit [Fintype Tid] [DecidableEq Tid] in
/-- An access belongs to the same request, unless it faults. -/
theorem request_of_access {table table' : Table} {idx : Int} {mem : Alloc} {pc pc' : Pc}
    (hacc : Shared.access table idx mem pc = some (table', pc')) :
    pc'.request = pc.request ∨ pc' = .fault := by
  unfold Shared.access at hacc
  repeat' split at hacc
  all_goals first
    | (cases hacc; done)
    | (cases hacc; exact Or.inl rfl)
    | (cases hacc; exact Or.inr rfl)

/-- A `work` step keeps the invariant and the requests. The thread holds the lock of its bucket, as
a reader or as the writer. -/
theorem work (h : SharedInv s ps m) {s' : Shared Tid} {t : Tid} {mem : Alloc}
    (hfit : mem.Fits s.table) (hstep : s.work t mem = some s') :
    (∃ ps', SharedInv s' ps' m) ∧ ∀ u, (s'.pc u).request = (s.pc u).request := by
  -- The accesses in the bucket.
  have haccess : ∀ r, (s.pc t).request = some r →
      ((Shared.access s.table (s.index r) mem (s.pc t)).map fun a =>
        { s.setPc t a.2 with table := a.1 }) = some s' →
      (∃ ps', SharedInv s' ps' m) ∧ ∀ u, (s'.pc u).request = (s.pc u).request := by
    intro r hr hmap
    obtain ⟨⟨table, pc⟩, hacc, rfl⟩ := Option.map_eq_some_iff.mp hmap
    obtain ⟨ps', hinv⟩ := h.access hr hfit hacc
    refine ⟨⟨ps', hinv⟩, fun u => ?_⟩
    show ((s.setPc t pc).pc u).request = _
    by_cases hut : u = t
    · subst hut
      have hfault := hinv.noFault u
      rw [Shared.setPc_pc_self] at hfault ⊢
      exact (request_of_access hacc).resolve_right hfault
    · rw [Shared.setPc_pc_ne _ _ _ hut]
  unfold Shared.work at hstep
  cases hpc : s.pc t with
  | locking r =>
      rw [hpc] at hstep
      simp only at hstep
      split at hstep
      · rename_i hheld
        cases hstep
        refine ⟨⟨ps, h.begin hpc hheld⟩, fun u => ?_⟩
        by_cases hut : u = t
        · subst hut
          rw [Shared.setPc_pc_self, hpc]
          rfl
        · rw [Shared.setPc_pc_ne _ _ _ hut]
      · cases hstep
  | idle | unlocking r o | fault => rw [hpc] at hstep; cases hstep
  | walk r prev node | found r prev node | build r | publish r p | unlinked r p =>
      rw [hpc] at hstep haccess
      exact haccess r rfl hstep

/-! ### The lock functions -/

omit [Fintype Tid] in
/-- Who writes in a bucket after a step of its lock: the thread of the step, or another one
that wrote before, or nobody. -/
theorem view_cases {t : Tid} {i : Int} {l : LockState Tid} {pc : Pc}
    {m' x : CString → Option CString} (hothers : (s.locks i).Others l t)
    (hx : Shared.View { s.setPc t pc with locks := Function.update s.locks i l } m' i x) :
    l.Writing t ∧ x = pc.after m' ∨
      (∃ u, u ≠ t ∧ (s.locks i).Writing u ∧ x = (s.pc u).after m') ∨
      (∀ u, u ≠ t → ¬ (s.locks i).Writing u) ∧ ¬ l.Writing t ∧ x = m' := by
  have hself : Function.update s.locks i l i = l := by rw [Function.update_self]
  cases hx with
  | inl hw =>
      obtain ⟨u, hu, rfl⟩ := hw
      have hu' : (Function.update s.locks i l i).Writing u := hu
      rw [hself] at hu'
      by_cases hut : u = t
      · subst hut
        exact Or.inl ⟨hu', by rw [Shared.setPc_pc_self]⟩
      · exact Or.inr (Or.inl ⟨u, hut, (hothers.writing_iff hut).mp hu',
          by rw [Shared.setPc_pc_ne _ _ _ hut]⟩)
  | inr hno =>
      obtain ⟨hno, rfl⟩ := hno
      have hno' : ∀ u, ¬ l.Writing u := by
        intro u hu
        have hnot : ¬ (Function.update s.locks i l i).Writing u := hno u
        rw [hself] at hnot
        exact hnot hu
      exact Or.inr (Or.inr ⟨fun u hut hu => hno' u ((hothers.writing_iff hut).mpr hu),
        hno' t, rfl⟩)

/-- The lock invariant of a bucket after a step of its lock. -/
theorem lockInv_step (h : SharedInv s ps m) (hcard : Fintype.card Tid < 2 ^ 32) {i : Int}
    {a : LockAction Tid} {l : LockState Tid} {es : List (LockEvent Tid)}
    (hstep : (s.locks i).step a = some (l, es)) : ∃ q, LockInv l q :=
  LockInv.step (h.lock i) (LockState.inRange_of_card hcard _).2
    (LockState.inRange_of_card hcard _).1 hstep

/-- A thread calls one of the four functions. It goes to the lock of its bucket, and the table
stays. -/
theorem call (h : SharedInv s ps m) (hcard : Fintype.card Tid < 2 ^ 32) {s₁ : Shared Tid}
    {t : Tid} {r : Request} (hpc : s.pc t = .idle)
    (hstep : s.lockStep r (.call t r.access) = some s₁) :
    SharedInv (s₁.setPc t (.locking r)) ps m := by
  obtain ⟨⟨l, es⟩, hl, rfl⟩ := Option.map_eq_some_iff.mp hstep
  have hothers : (s.locks (s.index r)).Others l t := LockState.others_of_step hl
  have hlock := h.lockInv_step hcard hl
  have hphase : l.phase t = .called r.access ∧ (s.locks (s.index r)).phase t = .idle := by
    cases LockState.shape_of_step hl with
    | call hp => exact ⟨by simp, hp⟩
  show SharedInv { s.setPc t (.locking r) with
    locks := Function.update s.locks (s.index r) l } ps m
  refine h.relock hothers hlock (fun r' hr' => ?_) (by rw [hpc]; rfl)
    (Or.inr ⟨r, rfl, rfl, ?_⟩) (fun _ _ => rfl) (fun _ _ _ _ _ => rfl) fun x hx => ?_
  · rw [hpc] at hr'
    cases hr'
  · rw [hphase.1]
    rfl
  -- A thread that has just called the function does not write, before or after.
  · rcases view_cases hothers hx with ⟨hw, -⟩ | ⟨u, -, hu, rfl⟩ | ⟨hno, -, rfl⟩
    · obtain ⟨k, hk⟩ := hw
      rw [hphase.1] at hk
      cases hk
    · exact Or.inl ⟨u, hu, rfl⟩
    · refine Or.inr ⟨fun u hu => ?_, rfl⟩
      by_cases hut : u = t
      · subst hut
        obtain ⟨k, hk⟩ := hu
        rw [hphase.2] at hk
        cases hk
      · exact hno u hut hu

/-- A thread moves inside its lock function. The chains and the map stay as they are, and the other
threads do not move in the lock. -/
theorem lockMove (h : SharedInv s ps m) (hcard : Fintype.card Tid < 2 ^ 32) {s₁ : Shared Tid}
    {t : Tid} {r : Request} {move : LockMove} (hpc : s.pc t = .locking r)
    (hstep : s.lockStep r (move.action t) = some s₁) : SharedInv s₁ ps m := by
  obtain ⟨⟨l, es⟩, hl, rfl⟩ := Option.map_eq_some_iff.mp hstep
  have htid : (move.action t : LockAction Tid).tid = t := by cases move <;> rfl
  have hothers : (s.locks (s.index r)).Others l t := htid ▸ LockState.others_of_step hl
  have hlock := h.lockInv_step hcard hl
  obtain ⟨hfor, -, hnot⟩ := LockState.for_of_lockMove hl (h.locking t r hpc)
  -- The thread stays in its lock function, as `relock` wants it.
  have hsame : s.setPc t (.locking r) = s := by
    unfold Shared.setPc
    rw [← hpc, Function.update_eq_self]
  suffices hinv : SharedInv { s.setPc t (.locking r) with
      locks := Function.update s.locks (s.index r) l } ps m by rwa [hsame] at hinv
  refine h.relock hothers hlock (fun r' hr' => ?_)
    (by rw [hpc]; rfl) (Or.inr ⟨r, rfl, rfl, hfor⟩) (fun _ _ => rfl) (fun _ _ _ _ _ => rfl)
    fun x hx => ?_
  · rw [hpc] at hr'
    cases hr'
    rfl
  · rcases view_cases hothers hx with ⟨hw, rfl⟩ | ⟨u, -, hu, rfl⟩ | ⟨hno, -, rfl⟩
    · -- The thread has just been admitted, so nobody wrote before.
      refine Or.inr ⟨fun u hu => ?_, rfl⟩
      by_cases hut : u = t
      · exact hnot (hut ▸ hu)
      · obtain ⟨q, hq⟩ := hlock
        exact hut (hq.queue.writer_unique ((hothers.writing_iff hut).mpr hu) hw)
    · exact Or.inl ⟨u, hu, rfl⟩
    · refine Or.inr ⟨fun u hu => ?_, rfl⟩
      by_cases hut : u = t
      · exact hnot (hut ▸ hu)
      · exact hno u hut hu

/-- A thread releases the lock and returns. Its change becomes a change of the map of the
returned operations. -/
theorem release (h : SharedInv s ps m) (hcard : Fintype.card Tid < 2 ^ 32) {s₁ : Shared Tid}
    {t : Tid} {r : Request} {o : Outcome} (hpc : s.pc t = .unlocking r o)
    (hstep : s.lockStep r (r.unlock t) = some s₁) :
    SharedInv (s₁.setPc t .idle) ps (r.op.apply m o.allocated).1 := by
  obtain ⟨⟨l, es⟩, hl, rfl⟩ := Option.map_eq_some_iff.mp hstep
  have hr : (s.pc t).request = some r := by rw [hpc]; rfl
  have hp := h.holds t r (by rw [hpc]; rfl)
  have hafter : (s.pc t).after m = (r.op.apply m o.allocated).1 := by rw [hpc]; rfl
  have htid : (r.unlock t : LockAction Tid).tid = t := by
    unfold Request.unlock
    split <;> rfl
  have hothers : (s.locks (s.index r)).Others l t := htid ▸ LockState.others_of_step hl
  have hlock := h.lockInv_step hcard hl
  obtain ⟨l', es', hl', hidle⟩ := LockState.exists_unlock hp
  rw [hl, Option.some.injEq, Prod.mk.injEq] at hl'
  obtain ⟨rfl, -⟩ := hl'
  -- A reader changes nothing.
  have hread : ¬ (s.locks (s.index r)).Writing t → (r.op.apply m o.allocated).1 = m := by
    intro hnot
    rcases h.mode hp with hw | ⟨⟨quick, hacc⟩, -⟩
    · exact absurd hw hnot
    · rw [← hafter]
      exact Pc.after_read m hr hacc
  show SharedInv { s.setPc t .idle with locks := Function.update s.locks (s.index r) l } ps
    (r.op.apply m o.allocated).1
  refine h.relock hothers hlock (fun r' hr' => ?_) (by rw [hpc]; rfl)
    (Or.inl ⟨rfl, hidle⟩) (fun k hk => ?_) (fun u r' hut hwork hi => ?_) fun x hx => ?_
  · rw [hr, Option.some.injEq] at hr'
    exact hr' ▸ rfl
  · refine MapOp.apply_ne m _ r.op fun heq => hk ?_
    rw [heq]
    rfl
  · -- Another thread in the bucket is a reader, and then so is `t`.
    rw [hread]
    intro hw
    have hheld := h.holds u r' hwork
    rw [hi] at hheld
    exact h.not_writing hheld (Ne.symm hut) hw
  · rcases view_cases hothers hx with ⟨hw, -⟩ | ⟨u, hut, hu, -⟩ | ⟨hno, -, rfl⟩
    · obtain ⟨k, hk⟩ := hw
      rw [hidle] at hk
      cases hk
    · exact absurd hu (h.not_writing hp hut)
    · by_cases hw : (s.locks (s.index r)).Writing t
      -- The new map is the one the bucket held while `t` was writing.
      · exact Or.inl ⟨t, hw, hafter.symm⟩
      · refine Or.inr ⟨fun u hu => ?_, hread hw⟩
        by_cases hut : u = t
        · exact hw (hut ▸ hu)
        · exact hno u hut hu

end SharedInv

end SysProg.Kvs
