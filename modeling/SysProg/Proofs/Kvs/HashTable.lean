import SysProg.Lib.Run
import SysProg.Proofs.Kvs.HashBucket

/-!
# `SysProg.Proofs.Kvs.HashTable`: the hash table refines a map

`Rep t ps m` says that every bucket of `t` holds the map `m` on its own keys, and that every
live node is in a chain. `call_spec` is the one lemma about a call: it returns, its reply is
that of the map, and the table represents the new map. `hash_table_refines_map` follows by
induction over the calls.
-/

set_option autoImplicit false

namespace SysProg.Kvs

open SysProg.Lib

/-- One call on the abstract map, with the allocator's answers reduced to whether memory was
available. -/
def mapStep (m : CString → Option CString) (c : MapOp CString CString × Alloc) :
    Option ((CString → Option CString) × List (Reply CString)) :=
  some ((c.1.apply m (c.2.succeeds c.1)).1, [(c.1.apply m (c.2.succeeds c.1)).2])

/-- The index of a bucket. -/
def Table.InRange (t : Table) (i : Int) : Prop := 0 ≤ i ∧ i < t.hashSize.toNat

/-- The table stores the map `m` in well-formed chains. -/
structure Table.Refines (t : Table) (m : CString → Option CString) : Prop where
  /-- The hash of every key is an index. -/
  hash_inRange : ∀ key, t.InRange (t.index key)
  /-- `bucket_sizes` holds the lengths of the chains, and every node is in the chain of its
  key. -/
  chains : ∃ ps : Int → List Ptr,
    (∀ i, t.InRange i → Seg t.next (t.buckets i) (ps i) 0 ∧ (ps i).Nodup ∧
      (t.bucketSizes i).toNat = (ps i).length) ∧
    ∀ p n, t.nodes p = some n → p ∈ ps (t.index n.key)
  /-- No key is in two nodes. -/
  unique : ∀ p q n n', t.nodes p = some n → t.nodes q = some n' → n.key = n'.key → p = q
  content : ∀ k v, m k = some v ↔ ∃ p n, t.nodes p = some n ∧ n.key = k ∧ n.value = v

/-- Every bucket holds `m` on its keys, in the nodes `ps i`, and no other node is live. -/
structure Rep (t : Table) (ps : Int → List Ptr) (m : CString → Option CString) : Prop where
  pos : 0 < t.hashSize
  le : t.hashSize ≤ 2147483647
  null : t.nodes 0 = none
  bucket : ∀ i, t.InRange i → Bucket t i (ps i) m
  live : ∀ p n, t.nodes p = some n → p ∈ ps (t.index n.key)

namespace Rep

variable {t t' : Table} {ps : Int → List Ptr} {m : CString → Option CString}

/-- The hash of a key is an index of the array. -/
theorem index_inRange (h : Rep t ps m) (key : CString) : t.InRange (t.index key) :=
  hash_range key h.pos h.le

/-- A table that represents a map refines it. The operations keep this, one lemma for each of them.
-/
theorem refines (h : Rep t ps m) : t.Refines m where
  hash_inRange := h.index_inRange
  chains := ⟨ps, fun i hi => ⟨(h.bucket i hi).chain, (h.bucket i hi).nodup,
    (h.bucket i hi).size_toNat⟩, h.live⟩
  unique p q n n' hn hn' hkey := by
    have hp := h.live p n hn
    have hq := h.live q n' hn'
    rw [← hkey] at hq
    exact (h.bucket _ (h.index_inRange n.key)).unique p hp q hq n n' hn hn' hkey
  content k v := by
    rw [(h.bucket _ (h.index_inRange k)).content k v rfl]
    constructor
    · intro ⟨p, _, n, hrest⟩
      exact ⟨p, n, hrest⟩
    · intro ⟨p, n, hn, hk, hv⟩
      exact ⟨p, hk ▸ h.live p n hn, n, hn, hk, hv⟩

/-- The empty table. -/
theorem init {n : UInt64} (hpos : 0 < n) (hle : n ≤ 2147483647) :
    Rep (hashInit n) (fun _ => []) (fun _ => none) where
  pos := hpos
  le := hle
  null := rfl
  bucket i _ :=
    { null := rfl
      chain := rfl
      size := rfl
      home := fun p hp => by cases hp
      unique := fun p hp => by cases hp
      content := fun k v _ => by simp }
  live p n hn := by cases hn

/-- One bucket changes, with one key of the map. The other buckets and their nodes stay. -/
theorem updateBucket {key : CString} {new : Option CString} {qs : List Ptr} (h : Rep t ps m)
    (hsize : t'.hashSize = t.hashSize)
    (hheads : ∀ j, j ≠ t.index key → t'.buckets j = t.buckets j)
    (hsizes : ∀ j, j ≠ t.index key → t'.bucketSizes j = t.bucketSizes j)
    (hnodes : ∀ j, t.InRange j → j ≠ t.index key → ∀ p ∈ ps j, t'.nodes p = t.nodes p)
    (hbucket : Bucket t' (t.index key) qs (Function.update m key new))
    (hlive : ∀ p n, t'.nodes p = some n → t.index n.key = t.index key ∧ p ∈ qs ∨
      t.index n.key ≠ t.index key ∧ t.nodes p = some n) :
    Rep t' (Function.update ps (t.index key) qs) (Function.update m key new) := by
  have hindex : ∀ k, t'.index k = t.index k := by
    intro k
    unfold Table.index
    rw [hsize]
  refine ⟨hsize ▸ h.pos, hsize ▸ h.le, hbucket.null, fun i hi => ?_, fun p n hn => ?_⟩
  · unfold Table.InRange at hi
    rw [hsize] at hi
    by_cases hik : i = t.index key
    · subst hik
      rw [Function.update_self]
      exact hbucket
    · rw [Function.update_of_ne hik]
      -- A key of another bucket is not the key that changes.
      refine (h.bucket i hi).congr hsize (hheads i hik) (hsizes i hik) hbucket.null
        (hnodes i hi hik) fun k hk => ?_
      have hne : k ≠ key := by
        intro heq
        exact hik (heq ▸ hk.symm)
      exact Function.update_of_ne hne _ _
  · rw [hindex]
    cases hlive p n hn with
    | inl hin =>
        rw [hin.1, Function.update_self]
        exact hin.2
    | inr hout =>
        rw [Function.update_of_ne hout.1]
        exact h.live p n hout.2

/-- A node that stays where it was satisfies the last premise of `updateBucket`. -/
theorem live_or {key : CString} {qs : List Ptr} {p : Ptr} {n : Node} (h : Rep t ps m)
    (hn : t.nodes p = some n) (hin : p ∈ ps (t.index key) → p ∈ qs) :
    t.index n.key = t.index key ∧ p ∈ qs ∨ t.index n.key ≠ t.index key ∧ t.nodes p = some n := by
  by_cases hkey : t.index n.key = t.index key
  · exact Or.inl ⟨hkey, hin (hkey ▸ h.live p n hn)⟩
  · exact Or.inr ⟨hkey, hn⟩

/-! ### The three changes of a table -/

/-- A new node is linked into the bucket of its key. The other buckets have other nodes, so they
stay as they are. -/
theorem publish (h : Rep t ps m) {p : Ptr} {key value : CString} (hdead : t.nodes p = none)
    (hp : p ≠ 0) (habsent : m key = none) :
    Rep ((t.setNode p ⟨key, value, t.buckets (t.index key)⟩).publish (t.index key) p)
      (Function.update ps (t.index key) (p :: ps (t.index key)))
      (Function.update m key (some value)) := by
  have hb := h.bucket _ (h.index_inRange key)
  have hsame : ∀ q, q ≠ p →
      (t.setNode p ⟨key, value, t.buckets (t.index key)⟩).nodes q = t.nodes q :=
    fun q hq => Function.update_of_ne hq _ _
  have hself : (t.setNode p ⟨key, value, t.buckets (t.index key)⟩).nodes p
      = some ⟨key, value, t.buckets (t.index key)⟩ := Function.update_self p _ _
  -- The new node is in no chain yet.
  have hout : ∀ j, t.InRange j → ∀ q ∈ ps j, q ≠ p := by
    intro j hj q hq heq
    exact (h.bucket j hj).notMem_of_none hdead (heq ▸ hq)
  have hbuilt : Bucket (t.setNode p ⟨key, value, t.buckets (t.index key)⟩) (t.index key)
      (ps (t.index key)) m :=
    hb.congr rfl rfl rfl ((hsame 0 hp.symm).trans hb.null)
      (fun q hq => hsame q (hout _ (h.index_inRange key) q hq)) fun _ _ => rfl
  have hlinked := hbuilt.publish (p := p) hself rfl habsent
  refine h.updateBucket rfl (fun j hj => Function.update_of_ne hj _ _)
    (fun j hj => Function.update_of_ne hj _ _)
    (fun j hj _ q hq => hsame q (hout j hj q hq)) hlinked fun q n hn => ?_
  have hn' : (t.setNode p ⟨key, value, t.buckets (t.index key)⟩).nodes q = some n := hn
  by_cases hqp : q = p
  · subst hqp
    rw [hself, Option.some.injEq] at hn'
    subst hn'
    exact Or.inl ⟨rfl, List.mem_cons_self⟩
  · rw [hsame q hqp] at hn'
    exact h.live_or hn' (List.mem_cons_of_mem p)

/-- The value of a node is replaced. Only the bucket of its key is concerned. -/
theorem setValue (h : Rep t ps m) {p : Ptr} {n : Node} (hnode : t.nodes p = some n)
    (value : CString) :
    Rep (t.setNode p { n with value := value }) ps (Function.update m n.key (some value)) := by
  have hp : p ∈ ps (t.index n.key) := h.live p n hnode
  have hin := h.index_inRange n.key
  have hsame : ∀ q, q ≠ p → (t.setNode p { n with value := value }).nodes q = t.nodes q :=
    fun q hq => Function.update_of_ne hq _ _
  have hself : (t.setNode p { n with value := value }).nodes p
      = some { n with value := value } := Function.update_self p _ _
  have hset : Bucket (t.setNode p { n with value := value }) (t.index n.key)
      (ps (t.index n.key)) (Function.update m n.key (some value)) :=
    (h.bucket _ hin).setValue hp hnode value
  have hrep : Rep (t.setNode p { n with value := value })
      (Function.update ps (t.index n.key) (ps (t.index n.key)))
      (Function.update m n.key (some value)) := by
    refine h.updateBucket rfl (fun _ _ => rfl) (fun _ _ => rfl) (fun j hj hne q hq => ?_) hset
      fun q n' hn' => ?_
    · refine hsame q fun heq => ?_
      exact (h.bucket j hj).disjoint (h.bucket _ hin) hne hq (heq ▸ hp)
    · by_cases hqp : q = p
      · subst hqp
        rw [hself, Option.some.injEq] at hn'
        subst hn'
        exact Or.inl ⟨rfl, hp⟩
      · rw [hsame q hqp] at hn'
        exact h.live_or hn' id
  rwa [Function.update_eq_self] at hrep

/-- A node is unlinked and freed. No other chain goes through it, so no link to it is left. -/
theorem delete (h : Rep t ps m) {key : CString} {pre suf : List Ptr} {f : Found}
    (hps : ps (t.index key) = pre ++ f.ptr :: suf) (hprev : f.prev = pre.getLastD 0)
    (hnode : t.nodes f.ptr = some f.node) (hkey : f.node.key = key) :
    ∃ t', t.unlink (t.index key) f = some t' ∧ t'.hashSize = t.hashSize ∧
      Rep (t'.freeNode f.ptr) (Function.update ps (t.index key) (pre ++ suf))
        (Function.update m key none) := by
  have hin := h.index_inRange key
  have hb := h.bucket _ hin
  rw [hps] at hb
  obtain ⟨t', heq, hcut, hsize, hheads, hsizes, hnodes⟩ := hb.unlink hnode hprev
  refine ⟨t', heq, hsize, ?_⟩
  have hsame : ∀ q, q ≠ f.ptr → (t'.freeNode f.ptr).nodes q = t'.nodes q :=
    fun q hq => Function.update_of_ne hq _ _
  have hself : (t'.freeNode f.ptr).nodes f.ptr = none := Function.update_self f.ptr _ _
  have hfout : f.ptr ∉ pre ++ suf := (List.nodup_middle.mp hb.nodup).notMem
  have hfree : Bucket (t'.freeNode f.ptr) (t.index key) (pre ++ suf)
      (Function.update m key none) := by
    rw [← hkey] at hcut ⊢
    refine hcut.congr rfl rfl rfl ?_ (fun q hq => hsame q fun heq => hfout (heq ▸ hq))
      fun _ _ => rfl
    refine (hsame 0 fun heq => ?_).trans hcut.null
    rw [← heq, hb.null] at hnode
    cases hnode
  -- Only nodes of the bucket were written.
  have hrest : ∀ q, q ∉ pre ++ f.ptr :: suf → (t'.freeNode f.ptr).nodes q = t.nodes q := by
    intro q hq
    simp only [List.mem_append, List.mem_cons, not_or] at hq
    rw [hsame q hq.2.1, hnodes q hq.1]
  refine h.updateBucket hsize hheads hsizes (fun j hj hne q hq => hrest q ?_) hfree
    fun q n hn => ?_
  · rw [← hps]
    exact (h.bucket j hj).disjoint (h.bucket _ hin) hne hq
  · have hqf : q ≠ f.ptr := by
      intro heq
      rw [heq, hself] at hn
      cases hn
    by_cases hmem : q ∈ pre ++ f.ptr :: suf
    · -- A node of the chain kept its key.
      have hq' : q ∈ pre ++ suf := by
        simp only [List.mem_append, List.mem_cons] at hmem ⊢
        tauto
      have hhome := hfree.home q hq' n hn
      have hindex : (t'.freeNode f.ptr).index n.key = t.index n.key := by
        unfold Table.index
        show (hash n.key t'.hashSize).toInt = _
        rw [hsize]
      exact Or.inl ⟨hindex.symm.trans hhome, hq'⟩
    · rw [hrest q hmem] at hn
      exact h.live_or hn fun hin' => absurd (hps ▸ hin') hmem

/-! ### One call -/

/-- `hash_insert` inserts an absent key when all three allocations succeed. If the key is there it
answers so, and if an allocation fails the table stays. -/
theorem insert_spec (h : Rep t ps m) {mem : Alloc} (hfit : mem.Fits t) (key value : CString) :
    ∃ t' ps', hashInsert t key value mem
        = some (t', ((MapOp.insert key value).apply m (mem.succeeds (.insert key value))).2) ∧
      Rep t' ps' ((MapOp.insert key value).apply m (mem.succeeds (.insert key value))).1 := by
  obtain ⟨r, hfind, hres⟩ := find_spec (h.bucket _ (h.index_inRange key)) rfl
  have hok : mem.succeeds (.insert key value)
      = (decide (mem.node ≠ 0) && mem.key && mem.value) := rfl
  cases hres with
  | found _ _ _ _ hm =>
      simp only [MapOp.apply, hm]
      exact ⟨t, ps, by simp only [hashInsert, hfind], h⟩
  | absent hm =>
      simp only [MapOp.apply, hm, hok]
      -- `hash_insert` allocates the node first, and then both strings.
      by_cases hnode : mem.node = 0
      · simp only [hnode, ne_eq, not_true_eq_false, decide_false, Bool.false_and,
          Bool.false_eq_true, if_false]
        exact ⟨t, ps, by simp only [hashInsert, hfind, hnode, if_true], h⟩
      · simp only [hnode, ne_eq, not_false_eq_true, decide_true, Bool.true_and]
        cases hdup : mem.key && mem.value with
        | false =>
            -- A `strdup` failed, and the node is freed again.
            have hfail : (!mem.key || !mem.value) = true := by rw [← Bool.not_and, hdup]; rfl
            exact ⟨t, ps, by simp [hashInsert, hfind, hnode, hfail], h⟩
        | true =>
            have hboth : (!mem.key || !mem.value) = false := by rw [← Bool.not_and, hdup]; rfl
            exact ⟨_, _, by simp [hashInsert, hfind, hnode, hboth], h.publish hfit hnode hm⟩

/-- `hash_read` changes nothing. -/
theorem read_spec (h : Rep t ps m) (allocated : Bool) (key : CString) :
    hashRead t key = some (t, ((MapOp.read key).apply m allocated).2) ∧
      ((MapOp.read key).apply m allocated).1 = m := by
  obtain ⟨r, hfind, hres⟩ := find_spec (h.bucket _ (h.index_inRange key)) rfl
  cases hres with
  | found _ _ _ _ hm => simp [hashRead, hfind, MapOp.apply, hm]
  | absent hm => simp [hashRead, hfind, MapOp.apply, hm]

/-- `hash_update` replaces the value of a present key when `strdup` succeeds. -/
theorem update_spec (h : Rep t ps m) (mem : Alloc) (key value : CString) :
    ∃ t', hashUpdate t key value mem
        = some (t', ((MapOp.update key value).apply m mem.value).2) ∧
      Rep t' ps ((MapOp.update key value).apply m mem.value).1 := by
  obtain ⟨r, hfind, hres⟩ := find_spec (h.bucket _ (h.index_inRange key)) rfl
  cases hres with
  | found _ _ hnode hkey hm =>
      simp only [MapOp.apply, hm]
      cases hok : mem.value with
      | true =>
          have hrep := h.setValue hnode value
          rw [hkey] at hrep
          exact ⟨_, by simp [hashUpdate, hfind, hok, hkey], hrep⟩
      | false => exact ⟨t, by simp [hashUpdate, hfind, hok], h⟩
  | absent hm =>
      simp only [MapOp.apply, hm]
      exact ⟨t, by simp only [hashUpdate, hfind], h⟩

/-- `hash_delete` removes a present key. -/
theorem delete_spec (h : Rep t ps m) (allocated : Bool) (key : CString) :
    ∃ t' ps', hashDelete t key = some (t', ((MapOp.delete key).apply m allocated).2) ∧
      Rep t' ps' ((MapOp.delete key).apply m allocated).1 := by
  obtain ⟨r, hfind, hres⟩ := find_spec (h.bucket _ (h.index_inRange key)) rfl
  cases hres with
  | found hps hprev hnode hkey hm =>
      obtain ⟨t', heq, -, hrep⟩ := h.delete hps hprev hnode hkey
      simp only [MapOp.apply, hm]
      exact ⟨_, _, by simp only [hashDelete, hfind, heq], hrep⟩
  | absent hm =>
      simp only [MapOp.apply, hm]
      exact ⟨t, ps, by simp only [hashDelete, hfind], h⟩

/-- A call returns, answers like the map, and leaves the table representing the new map. -/
theorem call_spec (h : Rep t ps m) {mem : Alloc} (hfit : mem.Fits t)
    (op : MapOp CString CString) :
    ∃ t' ps', t.call mem op = some (t', (op.apply m (mem.succeeds op)).2) ∧
      Rep t' ps' (op.apply m (mem.succeeds op)).1 := by
  cases op with
  | insert key value => exact h.insert_spec hfit key value
  | read key =>
      obtain ⟨heq, hsame⟩ := h.read_spec (mem.succeeds (.read key)) key
      exact ⟨t, ps, heq, hsame.symm ▸ h⟩
  | update key value =>
      obtain ⟨t', heq, hrep⟩ := h.update_spec mem key value
      exact ⟨t', ps, heq, hrep⟩
  | delete key => exact h.delete_spec _ key

/-- One step of a run is one call on the map. -/
theorem step_spec (h : Rep t ps m) {mem : Alloc} (hfit : mem.Fits t)
    (op : MapOp CString CString) :
    ∃ t' ps', t.step (op, mem) = some (t', [(op.apply m (mem.succeeds op)).2]) ∧
      Rep t' ps' (op.apply m (mem.succeeds op)).1 := by
  obtain ⟨t', ps', hcall, hrep⟩ := h.call_spec hfit op
  have hdead : ¬ (t.nodes mem.node).isSome = true := by
    rw [show t.nodes mem.node = none from hfit]
    simp
  exact ⟨t', ps', by simp [Table.step, hdead, hcall], hrep⟩

end Rep

/-- The state and the replies of a run are those of the map. The induction is on the calls, with one
lemma for each of the four functions. -/
theorem rep_of_run {n : UInt64} (hpos : 0 < n) (hle : n ≤ 2147483647)
    {calls : List (MapOp CString CString × Alloc)} {t : Table} {replies : List (Reply CString)}
    (hrun : run Table.step (hashInit n) calls = some (t, replies)) :
    ∃ m ps, run mapStep (fun _ => none) calls = some (m, replies) ∧ Rep t ps m := by
  -- Induction on the calls from the end. `Rep` is the invariant, and the last call is a step.
  induction calls using List.reverseRecOn generalizing t replies with
  | nil =>
      simp only [run_nil, Option.some.injEq, Prod.mk.injEq] at hrun
      obtain ⟨rfl, rfl⟩ := hrun
      exact ⟨_, _, rfl, Rep.init hpos hle⟩
  | append_singleton calls c ih =>
      obtain ⟨op, mem⟩ := c
      obtain ⟨t₁, replies₁, es, hrun₁, hstep, rfl⟩ := run_snoc_eq_some hrun
      obtain ⟨m₁, ps₁, hmap, hrep⟩ := ih hrun₁
      -- A step whose `malloc` returned a live node is no step of the table.
      have hfit : mem.Fits t₁ := by
        cases hnode : t₁.nodes mem.node with
        | none => exact hnode
        | some n => simp [Table.step, hnode] at hstep
      obtain ⟨t', ps', hstep', hrep'⟩ := hrep.step_spec hfit op
      rw [hstep', Option.some.injEq, Prod.mk.injEq] at hstep
      obtain ⟨rfl, rfl⟩ := hstep
      refine ⟨_, ps', ?_, hrep'⟩
      rw [run_append, hmap, Option.bind_some, run_singleton]
      rfl

/-- The hash table refines a finite map. After every sequence of calls, with any pattern of
allocation failures, the replies so far are those of the map, and the table stores that map.
Every further call returns with the reply of the map, and a reply of `-1` leaves the map as
it was. -/
theorem hash_table_refines_map (n : UInt64) (hpos : 0 < n) (hle : n ≤ 2147483647)
    (calls : List (MapOp CString CString × Alloc)) (t : Table) (replies : List (Reply CString))
    (hrun : run Table.step (hashInit n) calls = some (t, replies)) :
    ∃ m, run mapStep (fun _ => none) calls = some (m, replies) ∧ t.Refines m ∧
      ∀ op mem, mem.Fits t →
        ∃ t' r m', t.step (op, mem) = some (t', [r]) ∧ op.apply m (mem.succeeds op) = (m', r) ∧
          t'.Refines m' ∧ (r.code = -1 → m' = m) := by
  obtain ⟨m, ps, hmap, hrep⟩ := rep_of_run hpos hle hrun
  refine ⟨m, hmap, hrep.refines, fun op mem hfit => ?_⟩
  obtain ⟨t', ps', hstep, hrep'⟩ := hrep.step_spec hfit op
  exact ⟨t', _, _, hstep, rfl, hrep'.refines, MapOp.apply_of_code_neg⟩

/-- Two keys in one bucket, an insertion that runs out of memory, and the deletion of the
node in the tail of the chain. -/
theorem hash_table_refines_map_collisions :
    ∃ t replies m,
      run Table.step (hashInit 1) [(.insert ⟨[97], by decide⟩ ⟨[49], by decide⟩, ⟨8, true, true⟩),
        (.insert ⟨[98], by decide⟩ ⟨[50], by decide⟩, ⟨16, true, true⟩),
        (.insert ⟨[99], by decide⟩ ⟨[51], by decide⟩, ⟨24, true, false⟩),
        (.delete ⟨[97], by decide⟩, ⟨0, false, false⟩),
        (.read ⟨[98], by decide⟩, ⟨0, false, false⟩)] = some (t, replies) ∧
      replies.map Reply.code = [1, 1, -1, 1, 1] ∧ t.Refines m := by
  have hrun : run Table.step (hashInit 1)
      [(.insert ⟨[97], by decide⟩ ⟨[49], by decide⟩, ⟨8, true, true⟩),
        (.insert ⟨[98], by decide⟩ ⟨[50], by decide⟩, ⟨16, true, true⟩),
        (.insert ⟨[99], by decide⟩ ⟨[51], by decide⟩, ⟨24, true, false⟩),
        (.delete ⟨[97], by decide⟩, ⟨0, false, false⟩),
        (.read ⟨[98], by decide⟩, ⟨0, false, false⟩)] = some (_, _) := rfl
  obtain ⟨m, -, href, -⟩ := hash_table_refines_map 1 (by decide) (by decide) _ _ _ hrun
  exact ⟨_, _, m, hrun, by decide, href⟩

end SysProg.Kvs
