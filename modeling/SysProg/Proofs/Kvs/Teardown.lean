import SysProg.Kvs.Teardown
import SysProg.Proofs.Kvs.SharedLinear

/-!
# `SysProg.Proofs.Kvs.Teardown`: the end of a table at rest

A table is at rest when no thread is in a table function. `skvsDestroy_spec` is the main result: the
dump shows the map of the table, and every node is freed.

* `dumpChain_seg` and `destroyChain_seg` are the two loops over a chain.
* `Rep.hashDump` and `Rep.hashDestroy` are the loops over the buckets.
-/

set_option autoImplicit false

namespace SysProg.Kvs

open SysProg.Lib

/-- The entries in the nodes of a list. -/
def Table.entries (t : Table) (ps : List Ptr) : List (CString × CString) :=
  ps.filterMap fun p => (t.nodes p).map fun n => (n.key, n.value)

section
variable {t : Table} {p : Ptr} {n : Node} {ps suf : List Ptr} {cur : Ptr} {i : Int}
  {m : CString → Option CString} {e : CString × CString}

/-- The entries of a bucket, node by node. -/
theorem Table.entries_cons (hn : t.nodes p = some n) :
    t.entries (p :: ps) = (n.key, n.value) :: t.entries ps := by
  unfold Table.entries
  exact List.filterMap_cons_some (by rw [hn, Option.map_some])

/-- An entry of a bucket is the key and the value of one of its nodes. -/
theorem Table.mem_entries :
    e ∈ t.entries ps ↔ ∃ p ∈ ps, ∃ n, t.nodes p = some n ∧ n.key = e.1 ∧ n.value = e.2 := by
  unfold Table.entries
  rw [List.mem_filterMap]
  constructor
  · rintro ⟨p, hp, hmap⟩
    obtain ⟨n, hn, rfl⟩ := Option.map_eq_some_iff.mp hmap
    exact ⟨p, hp, n, hn, rfl, rfl⟩
  · rintro ⟨p, hp, n, hn, hkey, hvalue⟩
    refine ⟨p, hp, Option.map_eq_some_iff.mpr ⟨n, hn, ?_⟩⟩
    rw [hkey, hvalue]

/-! ### The loops over a chain -/

/-- The loop in `hash_dump` prints the nodes of the chain, in their order. The fuel is enough for
it. -/
theorem dumpChain_seg (hseg : Seg t.next cur suf 0) (hnull : t.nodes 0 = none) {fuel : Nat}
    (hfuel : suf.length < fuel) :
    t.dumpChain fuel cur = some ((t.entries suf).map fun e => dumpEntry e.1 e.2).flatten := by
  have hnext : t.next 0 = none := by rw [Table.next, hnull, Option.map_none]
  induction suf generalizing cur fuel with
  | nil =>
      obtain ⟨fuel, rfl⟩ : ∃ k, fuel = k + 1 := ⟨fuel - 1, by rw [List.length_nil] at hfuel; omega⟩
      have hcur : cur = 0 := hseg
      rw [Table.dumpChain, if_pos hcur]
      rfl
  | cons p suf ih =>
      rw [List.length_cons] at hfuel
      obtain ⟨fuel, rfl⟩ : ∃ k, fuel = k + 1 := ⟨fuel - 1, by omega⟩
      have hne : p ≠ 0 := hseg.ne_null hnext List.mem_cons_self
      obtain ⟨rfl, y, hy, hrest⟩ := hseg
      obtain ⟨n, hn, rfl⟩ := next_eq_some.mp hy
      rw [Table.dumpChain, if_neg hne, hn]
      show (t.dumpChain fuel n.next).map _ = _
      rw [ih hrest (by omega), Table.entries_cons hn]
      rfl

/-- The loop in `hash_destroy` frees the nodes of the chain. It reads the link of a node first, so
it never follows one that is freed. -/
theorem destroyChain_seg (hseg : Seg t.next cur suf 0) (hnull : t.nodes 0 = none) {fuel : Nat}
    (hfuel : suf.length < fuel) :
    Table.destroyChain fuel t cur
      = some { t with nodes := fun q => if q ∈ suf then none else t.nodes q } := by
  have hnext : t.next 0 = none := by rw [Table.next, hnull, Option.map_none]
  have hnodup := hseg.nodup hnext
  induction suf generalizing t cur fuel with
  | nil =>
      obtain ⟨fuel, rfl⟩ : ∃ k, fuel = k + 1 := ⟨fuel - 1, by rw [List.length_nil] at hfuel; omega⟩
      have hcur : cur = 0 := hseg
      rw [Table.destroyChain, if_pos hcur]
      simp only [List.not_mem_nil, if_false]
  | cons p suf ih =>
      rw [List.length_cons] at hfuel
      obtain ⟨fuel, rfl⟩ : ∃ k, fuel = k + 1 := ⟨fuel - 1, by omega⟩
      have hne : p ≠ 0 := hseg.ne_null hnext List.mem_cons_self
      obtain ⟨hp, hrestnodup⟩ := List.nodup_cons.mp hnodup
      obtain ⟨rfl, y, hy, hrest⟩ := hseg
      obtain ⟨n, hn, rfl⟩ := next_eq_some.mp hy
      -- The rest of the chain is not freed yet.
      have hsame : ∀ q, q ≠ cur → (t.freeNode cur).nodes q = t.nodes q :=
        fun q hq => Function.update_of_ne hq _ _
      have hlinks : ∀ q ∈ suf, (t.freeNode cur).next q = t.next q := by
        intro q hq
        have hqne : q ≠ cur := fun heq => hp (heq ▸ hq)
        rw [Table.next, Table.next, hsame q hqne]
      have hnull' : (t.freeNode cur).nodes 0 = none := (hsame 0 hne.symm).trans hnull
      rw [Table.destroyChain, if_neg hne, hn]
      show Table.destroyChain fuel (t.freeNode cur) n.next = _
      rw [ih (hrest.congr hlinks) hnull' (by omega)
        (by rw [Table.next, hnull', Option.map_none]) hrestnodup]
      congr 2
      funext q
      by_cases hq : q = cur
      · subst hq
        rw [if_neg hp, if_pos List.mem_cons_self]
        exact Function.update_self q none t.nodes
      · rw [hsame q hq]
        simp only [List.mem_cons, hq, false_or]

/-! ### The entries of a bucket -/

/-- Every node of a bucket is live, so there are as many entries as nodes. -/
theorem Bucket.length_entries (h : Bucket t i ps m) : (t.entries ps).length = ps.length := by
  have hall : ∀ qs : List Ptr, (∀ q ∈ qs, q ∈ ps) → (t.entries qs).length = qs.length := by
    intro qs
    induction qs with
    | nil => exact fun _ => rfl
    | cons q qs ih =>
        intro hqs
        obtain ⟨n, hn⟩ := h.exists_node (hqs q List.mem_cons_self)
        rw [Table.entries_cons hn, List.length_cons, List.length_cons,
          ih fun q' hq' => hqs q' (List.mem_cons_of_mem _ hq')]
  exact hall ps fun _ hq => hq

/-- A bucket has no key twice. All its nodes are in the map, and the map has one value for each key.
-/
theorem Bucket.nodup_keys (h : Bucket t i ps m) : ((t.entries ps).map Prod.fst).Nodup := by
  have hall : ∀ qs : List Ptr, (∀ q ∈ qs, q ∈ ps) → qs.Nodup →
      ((t.entries qs).map Prod.fst).Nodup := by
    intro qs
    induction qs with
    | nil => exact fun _ _ => List.nodup_nil
    | cons q qs ih =>
        intro hqs hnodup
        obtain ⟨hq, hnodup⟩ := List.nodup_cons.mp hnodup
        obtain ⟨n, hn⟩ := h.exists_node (hqs q List.mem_cons_self)
        rw [Table.entries_cons hn, List.map_cons, List.nodup_cons]
        refine ⟨fun hmem => ?_, ih (fun q' hq' => hqs q' (List.mem_cons_of_mem _ hq')) hnodup⟩
        obtain ⟨e, he, hkey⟩ := List.mem_map.mp hmem
        obtain ⟨q', hq', n', hn', hkey', -⟩ := Table.mem_entries.mp he
        have hsame := h.unique q (hqs q List.mem_cons_self) q' (hqs q' (List.mem_cons_of_mem _ hq'))
          n n' hn hn' (hkey.symm.trans hkey'.symm)
        exact hq (hsame ▸ hq')
  exact hall ps (fun _ hq => hq) h.nodup

/-- The body of the second loop in `hash_dump`: the heading with the counters, and one line for each
node. -/
theorem Bucket.dumpBucket {i : Nat} (h : Bucket t i ps m) {rw : RwLock}
    (hreaders : rw.currentReaders = 0) (hwriters : rw.currentWriters = 0) :
    t.dumpBucket rw i = some (renderBucket i (t.entries ps)) := by
  have hsize := h.size_toNat
  unfold Table.dumpBucket renderBucket
  by_cases hnil : ps = []
  · subst hnil
    rw [if_pos (UInt64.toNat.inj hsize), if_pos (show t.entries [] = [] from rfl)]
  · have hlen : 0 < ps.length := List.length_pos_of_ne_nil hnil
    have hentries : t.entries ps ≠ [] := by
      intro hnone
      have hzero := h.length_entries
      rw [hnone, List.length_nil] at hzero
      omega
    have hne : t.bucketSizes i ≠ 0 := by
      intro hzero
      rw [hzero, UInt64.toNat_zero] at hsize
      omega
    rw [if_neg hne, if_neg hentries, dumpChain_seg h.chain h.null h.length_lt, h.length_entries,
      ← h.size]
    unfold dumpHeading
    rw [hreaders, hwriters]
    rfl

end

/-! ### The loops over the buckets -/

/-- A loop over a list that does not fail. -/
theorem mapM_eq_some {α β : Type} {f : α → Option β} {g : α → β} {l : List α}
    (h : ∀ a ∈ l, f a = some (g a)) : l.mapM f = some (l.map g) := by
  induction l with
  | nil => rfl
  | cons a l ih =>
      rw [List.mapM_cons, h a List.mem_cons_self, ih fun b hb => h b (List.mem_cons_of_mem a hb)]
      rfl

/-- The sum of sizes that were counted in 64 bits. -/
theorem foldl_add_ofNat {α : Type} {f : Nat → UInt64} {chains : Nat → List α} {l : List Nat}
    (h : ∀ i ∈ l, f i = UInt64.ofNat (chains i).length) (total : Nat) :
    l.foldl (fun total i => total + f i) (UInt64.ofNat total)
      = UInt64.ofNat (total + (l.flatMap chains).length) := by
  induction l generalizing total with
  | nil => rfl
  | cons i l ih =>
      rw [List.foldl_cons, h i List.mem_cons_self, ← UInt64.ofNat_add,
        ih fun j hj => h j (List.mem_cons_of_mem i hj), List.flatMap_cons, List.length_append,
        Nat.add_assoc]

namespace Rep

variable {t : Table} {ps : Int → List Ptr} {m : CString → Option CString}

/-- The bucket at an index of the array, with the index as a natural number. -/
theorem bucket_nat (h : Rep t ps m) {i : Nat} (hi : i < t.hashSize.toNat) :
    Bucket t i (ps i) m :=
  h.bucket i ⟨Int.natCast_nonneg i, Int.ofNat_lt.mpr hi⟩

/-- The dump of a table that nobody uses. It is the text that is rendered from the entries of the
buckets. -/
theorem hashDump (h : Rep t ps m) {locks : Int → RwLock}
    (hreaders : ∀ i, (locks i).currentReaders = 0) (hwriters : ∀ i, (locks i).currentWriters = 0) :
    Kvs.hashDump t locks = some (renderDump t.hashSize.toNat fun i => t.entries (ps i)) := by
  have hbuckets : ((List.range t.hashSize.toNat).mapM fun (i : Nat) => t.dumpBucket (locks i) i)
      = some ((List.range t.hashSize.toNat).map fun (i : Nat) =>
          renderBucket i (t.entries (ps i))) :=
    mapM_eq_some fun i hi =>
      (h.bucket_nat (List.mem_range.mp hi)).dumpBucket (hreaders i) (hwriters i)
  have htotal : t.totalEntries = UInt64.ofNat
      ((List.range t.hashSize.toNat).flatMap fun (i : Nat) => t.entries (ps i)).length := by
    have hsum := foldl_add_ofNat (l := List.range t.hashSize.toNat) (f := (t.bucketSizes ·))
      (fun i hi => by
        have hb := h.bucket_nat (List.mem_range.mp hi)
        rw [hb.length_entries, hb.size]) 0
    rw [Nat.zero_add] at hsum
    unfold Table.totalEntries
    exact hsum
  unfold Kvs.hashDump renderDump
  rw [hbuckets, htotal]
  rfl

/-- The dump shows the map. Each key is in exactly one bucket, with its value. -/
theorem shows (h : Rep t ps m) :
    Shows t.hashSize m (renderDump t.hashSize.toNat fun i => t.entries (ps i)) := by
  refine ⟨fun i => t.entries (ps i), rfl, fun i hi => ⟨(h.bucket_nat hi).nodup_keys, ?_⟩, ?_⟩
  · intro e he
    obtain ⟨p, hp, n, hn, hkey, -⟩ := Table.mem_entries.mp he
    have hhome := (h.bucket_nat hi).home p hp n hn
    rw [hkey] at hhome
    exact hhome
  · intro k v
    constructor
    · intro hm
      obtain ⟨hpos, hlt⟩ := h.index_inRange k
      obtain ⟨p, hp, n, hn, hkey, hvalue⟩ :=
        ((h.bucket _ (h.index_inRange k)).content k v rfl).mp hm
      have hcast : (((t.index k).toNat : Nat) : Int) = t.index k := Int.toNat_of_nonneg hpos
      refine ⟨(t.index k).toNat, by omega, ?_⟩
      show (k, v) ∈ t.entries (ps ((t.index k).toNat : Nat))
      rw [hcast]
      exact Table.mem_entries.mpr ⟨p, hp, n, hn, hkey, hvalue⟩
    · rintro ⟨i, hi, he⟩
      obtain ⟨p, hp, n, hn, hkey, hvalue⟩ := Table.mem_entries.mp he
      have hhome := (h.bucket_nat hi).home p hp n hn
      rw [hkey] at hhome
      exact ((h.bucket_nat hi).content k v hhome).mpr ⟨p, hp, n, hn, hkey, hvalue⟩

/-- What `hash_destroy` has done behind the first `k` buckets. -/
structure Destroyed (t : Table) (ps : Int → List Ptr) (k : Nat) (t' : Table) : Prop where
  hashSize : t'.hashSize = t.hashSize
  buckets : t'.buckets = t.buckets
  freed : ∀ j < k, ∀ p ∈ ps j, t'.nodes p = none
  kept : ∀ p, t'.nodes p = none ∨ t'.nodes p = t.nodes p
  later : ∀ p, (∀ j < k, p ∉ ps j) → t'.nodes p = t.nodes p

section
variable {Tid : Type} [Fintype Tid] {locks : Int → LockState Tid}

/-- One round of the loop in `hash_destroy`. The nodes of this bucket go, and those of the others
stay. -/
theorem destroyBucket (h : Rep t ps m) (hidle : ∀ i t, (locks i).phase t = .idle) {k : Nat}
    (hk : k < t.hashSize.toNat) {t' : Table} (hd : Destroyed t ps k t') :
    ∃ t'', t'.destroyBucket (locks k) k = some t'' ∧ Destroyed t ps (k + 1) t'' := by
  have hb := h.bucket_nat hk
  -- The buckets before have other nodes.
  have hlive : ∀ p ∈ ps k, t'.nodes p = t.nodes p := by
    refine fun p hp => hd.later p fun j hj hpj => ?_
    exact hb.disjoint (h.bucket_nat (hj.trans hk)) (by omega) hp hpj
  have hnull : t'.nodes 0 = none := by
    rcases hd.kept 0 with hnone | hsame
    · exact hnone
    · exact hsame.trans h.null
  have hseg : Seg t'.next (t'.buckets k) (ps k) 0 := by
    rw [hd.buckets]
    refine hb.chain.congr fun p hp => ?_
    rw [Table.next, Table.next, hlive p hp]
  unfold Table.destroyBucket rwlockDestroy
  rw [destroyChain_seg hseg hnull hb.length_lt, if_pos (hidle k)]
  refine ⟨_, rfl, ?_⟩
  constructor
  case hashSize => exact hd.hashSize
  case buckets => exact hd.buckets
  case freed =>
    intro j hj p hp
    show (if p ∈ ps k then none else t'.nodes p) = none
    split
    · rfl
    · rename_i hout
      rcases Nat.lt_succ_iff_lt_or_eq.mp hj with hlt | rfl
      · exact hd.freed j hlt p hp
      · exact absurd hp hout
  case kept =>
    intro p
    show (if p ∈ ps k then none else t'.nodes p) = none ∨
      (if p ∈ ps k then none else t'.nodes p) = t.nodes p
    split
    · exact Or.inl rfl
    · exact hd.kept p
  case later =>
    intro p hp
    show (if p ∈ ps k then none else t'.nodes p) = _
    rw [if_neg (hp k (Nat.lt_succ_self k))]
    exact hd.later p fun j hj => hp j (Nat.lt_succ_of_lt hj)

/-- `hash_destroy` frees every node, and no node twice. The buckets have no node in common. -/
theorem hashDestroy (h : Rep t ps m) (hidle : ∀ i t, (locks i).phase t = .idle) :
    ∃ t', Kvs.hashDestroy t locks = some t' ∧ ∀ p, t'.nodes p = none := by
  -- Induction on the number of buckets that are done.
  have hloop : ∀ k ≤ t.hashSize.toNat, ∃ t', (List.range k).foldlM
      (fun (t : Table) (i : Nat) => t.destroyBucket (locks i) i) t = some t' ∧
      Destroyed t ps k t' := by
    intro k
    induction k with
    | zero =>
        intro _
        exact ⟨t, rfl, rfl, rfl, fun j hj => absurd hj (Nat.not_lt_zero j), fun _ => Or.inr rfl,
          fun _ _ => rfl⟩
    | succ k ih =>
        intro hk
        obtain ⟨t', hfold, hd⟩ := ih (by omega)
        obtain ⟨t'', hstep, hd'⟩ := h.destroyBucket hidle hk hd
        refine ⟨t'', ?_, hd'⟩
        rw [List.range_succ, List.foldlM_append, hfold]
        simp only [Option.bind_eq_bind, Option.bind_some, List.foldlM_cons, List.foldlM_nil, hstep,
          Option.pure_def]
  obtain ⟨t', hfold, hd⟩ := hloop _ le_rfl
  refine ⟨t', hfold, fun p => ?_⟩
  rcases hd.kept p with hnone | hsame
  · exact hnone
  · cases hn : t.nodes p with
    | none => rw [hsame, hn]
    | some n =>
        obtain ⟨hpos, hlt⟩ := h.index_inRange n.key
        have hcast : (((t.index n.key).toNat : Nat) : Int) = t.index n.key :=
          Int.toNat_of_nonneg hpos
        refine hd.freed (t.index n.key).toNat (by omega) p ?_
        rw [hcast]
        exact h.live p n hn

end

end Rep

section
variable {Tid : Type} [Fintype Tid] {s : Shared Tid} {ps : Int → List Ptr}
  {m : CString → Option CString}

/-- A lock that no thread is in has its counters at zero. -/
theorem LockInv.counters_of_idle {l : LockState Tid} {q : List (Tid × Wait)} (h : LockInv l q)
    (hidle : ∀ t, l.phase t = .idle) : l.rw.currentReaders = 0 ∧ l.rw.currentWriters = 0 := by
  have hreaders : l.readers = 0 := by
    rw [LockState.readers, Finset.card_eq_zero, Finset.filter_eq_empty_iff]
    intro t _ ht
    rw [hidle t] at ht
    cases ht
  refine ⟨?_, h.queue.inactive fun t ht => ?_⟩
  · rw [← UInt32.toNat_inj, UInt32.toNat_zero, h.exact, hreaders]
  · obtain ⟨k, hk⟩ := ht
    rw [hidle t] at hk
    cases hk

/-- At rest no thread is in a lock. -/
theorem SharedInv.locks_of_idle (h : SharedInv s ps m) (hidle : ∀ t, s.pc t = .idle) (i : Int)
    (t : Tid) : (s.locks i).phase t = .idle :=
  h.away t i fun r hr => by rw [hidle t] at hr; cases hr

/-- At rest the table represents the map. -/
theorem SharedInv.rep_of_idle (h : SharedInv s ps m) (hidle : ∀ t, s.pc t = .idle) :
    Rep s.table ps m where
  pos := h.pos
  le := h.le
  null := h.null
  bucket i hi := h.bucket i hi m (Or.inr ⟨h.not_writing_of_idle hidle i, rfl⟩)
  live p n hn := by
    rcases h.live p n hn with hin | ⟨t, ht⟩
    · exact hin
    · rw [hidle t] at ht
      cases ht

/-- `skvs_destroy` on a table at rest. The dump shows the map, and no node is left. -/
theorem skvsDestroy_spec (h : SharedInv s ps m) (hidle : ∀ t, s.pc t = .idle) :
    ∃ t' text, skvsDestroy s true = some (t', text) ∧ Shows s.table.hashSize m text ∧
      ∀ p, t'.nodes p = none := by
  have hrep := h.rep_of_idle hidle
  have hphase := h.locks_of_idle hidle
  have hcounters : ∀ i, (s.locks i).rw.currentReaders = 0 ∧ (s.locks i).rw.currentWriters = 0 := by
    intro i
    obtain ⟨q, hq⟩ := h.lock i
    exact hq.counters_of_idle (hphase i)
  obtain ⟨t', hdestroy, hfreed⟩ := hrep.hashDestroy hphase
  refine ⟨t', _, ?_, hrep.shows, hfreed⟩
  unfold skvsDestroy
  rw [if_pos rfl, hrep.hashDump (fun i => (hcounters i).1) fun i => (hcounters i).2, hdestroy]
  rfl

end

end SysProg.Kvs
