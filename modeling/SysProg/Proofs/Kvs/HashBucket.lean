import Mathlib.Data.List.Perm.Subperm
import SysProg.Lib.Chain
import SysProg.Kvs.HashTable

/-!
# `SysProg.Proofs.Kvs.HashBucket`: one bucket of the table

`Bucket t i ps m` says that the bucket `i` represents the map `m` on the keys that hash to
`i`: its chain runs through the nodes `ps`, no key occurs twice, and the stored size is the
length of the chain.

* `Bucket.congr` is the frame rule. Writes to other buckets and other nodes do not matter.
* `Bucket.publish`, `Bucket.setValue` and `Bucket.unlink` are the three ways the code changes
  a chain, with the map they lead to.
* `Walked` is the invariant of the loop over the chain: the key is in no node before the
  cursor. `Walked.start`, `Walked.advance`, `Walked.absent` and `Walked.found` are its rules,
  and `search_of_walked` runs the whole loop with them.
* `hash_range`: a hash value is an index into the bucket array.
-/

set_option autoImplicit false

namespace SysProg.Kvs

open SysProg.Lib

/-- The value of `hash` is a valid index, for every table size that fits an `int`. -/
theorem hash_range (key : CString) {n : UInt64} (hpos : 0 < n) (hle : n ≤ 2147483647) :
    0 ≤ (hash key n).toInt ∧ (hash key n).toInt < n.toNat := by
  unfold hash
  generalize key.bytes.foldl
    (fun (hash : UInt32) c => (hash <<< 5) + c.toInt8.toInt32.toUInt32) 0 = x
  have hn : 0 < n.toNat := by simpa [UInt64.lt_iff_toNat_lt] using hpos
  have hn' : n.toNat ≤ 2147483647 := by simpa [UInt64.le_iff_toNat_le] using hle
  -- The remainder fits in the `unsigned int` and, as `n` fits an `int`, in the `int`.
  have hmod : (x.toUInt64 % n).toNat < n.toNat := by
    rw [UInt64.toNat_mod]
    exact Nat.mod_lt _ hn
  have hsmall : (x.toUInt64 % n).toUInt32.toNat = (x.toUInt64 % n).toNat := by
    rw [UInt64.toNat_toUInt32]
    exact Nat.mod_eq_of_lt (by omega)
  have hint : ((x.toUInt64 % n).toUInt32.toInt32).toInt = ((x.toUInt64 % n).toNat : Int) := by
    rw [← hsmall]
    show (x.toUInt64 % n).toUInt32.toBitVec.toInt = _
    rw [BitVec.toInt_eq_toNat_of_lt]
    · rfl
    · show 2 * (x.toUInt64 % n).toUInt32.toNat < 2 ^ 32
      omega
  rw [hint]
  omega

/-- The bucket `i` holds the map `m` in the nodes `ps`. -/
structure Bucket (t : Table) (i : Int) (ps : List Ptr) (m : CString → Option CString) :
    Prop where
  null : t.nodes 0 = none
  chain : Seg t.next (t.buckets i) ps 0
  size : t.bucketSizes i = UInt64.ofNat ps.length
  home : ∀ p ∈ ps, ∀ n, t.nodes p = some n → t.index n.key = i
  unique : ∀ p ∈ ps, ∀ q ∈ ps, ∀ n n', t.nodes p = some n → t.nodes q = some n' →
    n.key = n'.key → p = q
  content : ∀ k v, t.index k = i →
    (m k = some v ↔ ∃ p ∈ ps, ∃ n, t.nodes p = some n ∧ n.key = k ∧ n.value = v)

/-- The loop over the chain `pre ++ suf` is at `cur`, after the nodes `pre`, and none of them
has the key. -/
structure Walked (t : Table) (pre suf : List Ptr) (key : CString) (prev cur : Ptr) : Prop where
  rest : Seg t.next cur suf 0
  last : prev = pre.getLastD 0
  passed : ∀ p ∈ pre, ∀ n, t.nodes p = some n → n.key ≠ key

/-- The link of a node, when the node is live. -/
theorem next_eq_some {t : Table} {p q : Ptr} :
    t.next p = some q ↔ ∃ n, t.nodes p = some n ∧ n.next = q := by
  simp [Table.next]

namespace Bucket

variable {t t' : Table} {i : Int} {ps : List Ptr} {m m' : CString → Option CString}

/-- The chain ends at `NULL`, which is no node. -/
theorem next_null (h : Bucket t i ps m) : t.next 0 = none := by
  simp [Table.next, h.null]

/-- No node is twice in a bucket, since the chain would not end otherwise. -/
theorem nodup (h : Bucket t i ps m) : ps.Nodup := h.chain.nodup h.next_null

/-- Every node of the chain is live. -/
theorem exists_node (h : Bucket t i ps m) {p : Ptr} (hp : p ∈ ps) :
    ∃ n, t.nodes p = some n := by
  obtain ⟨q, hq⟩ := h.chain.exists_next hp
  obtain ⟨n, hn, -⟩ := next_eq_some.mp hq
  exact ⟨n, hn⟩

/-- There are fewer than `2 ^ 64` addresses besides `NULL`. -/
theorem length_lt (h : Bucket t i ps m) : ps.length < 2 ^ 64 := by
  have hnodup : (ps.map UInt64.toNat).Nodup := h.nodup.map fun _ _ => UInt64.toNat.inj
  -- The nodes are different addresses from 1 on.
  have hsub : ps.map UInt64.toNat ⊆ List.range' 1 (2 ^ 64 - 1) := by
    intro a ha
    obtain ⟨p, hp, rfl⟩ := List.mem_map.mp ha
    have hne : p ≠ 0 := h.chain.ne_null h.next_null hp
    have hpos : p.toNat ≠ 0 := fun h0 => hne (UInt64.toNat.inj h0)
    have hlt := p.toNat_lt
    rw [List.mem_range'_1]
    omega
  have hle := (List.subperm_of_subset hnodup hsub).length_le
  rw [List.length_map, List.length_range'] at hle
  omega

/-- The stored size is the length of the chain. -/
theorem size_toNat (h : Bucket t i ps m) : (t.bucketSizes i).toNat = ps.length := by
  rw [h.size, UInt64.toNat_ofNat']
  exact Nat.mod_eq_of_lt h.length_lt

/-- The bucket depends only on its own head, its own size and its own nodes, and on the map
at its own keys. -/
theorem congr (h : Bucket t i ps m) (hsize : t'.hashSize = t.hashSize)
    (hhead : t'.buckets i = t.buckets i) (hlen : t'.bucketSizes i = t.bucketSizes i)
    (hnull : t'.nodes 0 = none) (hnodes : ∀ p ∈ ps, t'.nodes p = t.nodes p)
    (hm : ∀ k, t.index k = i → m' k = m k) : Bucket t' i ps m' := by
  have hindex : ∀ k, t'.index k = t.index k := by
    intro k
    unfold Table.index
    rw [hsize]
  refine ⟨hnull, ?_, hlen ▸ h.size, ?_, ?_, ?_⟩
  · rw [hhead]
    refine h.chain.congr fun p hp => ?_
    simp only [Table.next, hnodes p hp]
  · intro p hp n hn
    rw [hindex]
    exact h.home p hp n (hnodes p hp ▸ hn)
  · intro p hp q hq n n' hn hn'
    exact h.unique p hp q hq n n' (hnodes p hp ▸ hn) (hnodes q hq ▸ hn')
  · intro k v hk
    rw [hindex] at hk
    rw [hm k hk, h.content k v hk]
    constructor
    · intro ⟨p, hp, n, hn, hkv⟩
      exact ⟨p, hp, n, (hnodes p hp).trans hn, hkv⟩
    · intro ⟨p, hp, n, hn, hkv⟩
      exact ⟨p, hp, n, (hnodes p hp).symm.trans hn, hkv⟩

/-- A node of one bucket is in no other bucket. -/
theorem disjoint {j : Int} {qs : List Ptr} (h : Bucket t i ps m) (h' : Bucket t j qs m')
    (hij : i ≠ j) {p : Ptr} (hp : p ∈ ps) : p ∉ qs := by
  intro hq
  obtain ⟨n, hn⟩ := h.exists_node hp
  exact hij ((h.home p hp n hn).symm.trans (h'.home p hq n hn))

/-- A dead address is in no chain. -/
theorem notMem_of_none (h : Bucket t i ps m) {p : Ptr} (hp : t.nodes p = none) : p ∉ ps := by
  intro hmem
  obtain ⟨n, hn⟩ := h.exists_node hmem
  rw [hp] at hn
  cases hn

/-! ### The three changes of a chain -/

/-- A new node with an absent key is linked at the head. The chain behind it is the old one, and the
map has one key more. -/
theorem publish (h : Bucket t i ps m) {p : Ptr} {key value : CString}
    (hnode : t.nodes p = some ⟨key, value, t.buckets i⟩) (hi : t.index key = i)
    (habsent : m key = none) :
    Bucket (t.publish i p) i (p :: ps) (Function.update m key (some value)) := by
  -- No node of the chain has the key.
  have hfresh : ∀ q ∈ ps, ∀ n, t.nodes q = some n → n.key ≠ key := by
    intro q hq n hn hkey
    have hsome := (h.content key n.value hi).mpr ⟨q, hq, n, hn, hkey, rfl⟩
    rw [habsent] at hsome
    cases hsome
  have hnew : ∀ {x n}, t.nodes x = some n → x = p → n = ⟨key, value, t.buckets i⟩ := by
    intro x n hx heq
    rw [heq, hnode] at hx
    exact (Option.some.inj hx).symm
  refine ⟨h.null, ?_, ?_, ?_, ?_, ?_⟩
  · have hhead : (t.publish i p).buckets i = p := by simp [Table.publish, Table.setHead,
      Table.setSize]
    rw [hhead]
    exact ⟨rfl, t.buckets i, next_eq_some.mpr ⟨_, hnode, rfl⟩, h.chain⟩
  · show Function.update t.bucketSizes i (t.bucketSizes i + 1) i = _
    rw [Function.update_self, h.size, List.length_cons, UInt64.ofNat_add]
    rfl
  · intro q hq n hn
    cases List.mem_cons.mp hq with
    | inl hqp =>
        rw [hnew hn hqp]
        exact hi
    | inr hmem => exact h.home q hmem n hn
  · intro q hq r hr n n' hn hn' hkey
    -- The new node has the new key, and no other node has it.
    cases List.mem_cons.mp hq with
    | inl hqp =>
        cases List.mem_cons.mp hr with
        | inl hrp => rw [hqp, hrp]
        | inr hr =>
            rw [hnew hn hqp] at hkey
            exact absurd hkey.symm (hfresh r hr n' hn')
    | inr hq =>
        cases List.mem_cons.mp hr with
        | inl hrp =>
            rw [hnew hn' hrp] at hkey
            exact absurd hkey (hfresh q hq n hn)
        | inr hr => exact h.unique q hq r hr n n' hn hn' hkey
  · intro k v hk
    by_cases hkey : k = key
    · subst hkey
      rw [Function.update_self, Option.some.injEq]
      constructor
      · intro hv
        exact ⟨p, List.mem_cons_self, _, hnode, rfl, hv⟩
      · intro ⟨q, hq, n, hn, hnk, hnv⟩
        cases List.mem_cons.mp hq with
        | inl hqp =>
            rw [hnew hn hqp] at hnv
            exact hnv
        | inr hmem => exact absurd hnk (hfresh q hmem n hn)
    · rw [Function.update_of_ne hkey, h.content k v hk]
      constructor
      · intro ⟨q, hq, hrest⟩
        exact ⟨q, List.mem_cons_of_mem p hq, hrest⟩
      · intro ⟨q, hq, n, hn, hnk, hnv⟩
        cases List.mem_cons.mp hq with
        | inl hqp =>
            rw [hnew hn hqp] at hnk
            exact absurd hnk.symm hkey
        | inr hmem => exact ⟨q, hmem, n, hn, hnk, hnv⟩

/-- The value of a node is replaced. No link changes, so the chain is the same, and the map changes
at the key of the node. -/
theorem setValue (h : Bucket t i ps m) {p : Ptr} {n : Node} (hp : p ∈ ps)
    (hnode : t.nodes p = some n) (value : CString) :
    Bucket (t.setNode p { n with value := value }) i ps
      (Function.update m n.key (some value)) := by
  -- Every node keeps its key and its link.
  have hnodes : ∀ q n', (t.setNode p { n with value := value }).nodes q = some n' →
      ∃ n₀, t.nodes q = some n₀ ∧ n₀.key = n'.key ∧ n₀.next = n'.next ∧
        n'.value = if q = p then value else n₀.value := by
    intro q n' hq
    by_cases hqp : q = p
    · subst hqp
      simp only [Table.setNode, Function.update_self, Option.some.injEq] at hq
      subst hq
      exact ⟨n, hnode, rfl, rfl, (if_pos rfl).symm⟩
    · simp only [Table.setNode, Function.update_of_ne hqp] at hq
      exact ⟨n', hq, rfl, rfl, (if_neg hqp).symm⟩
  -- The same from the old table to the new one.
  have hback : ∀ q n₀, t.nodes q = some n₀ → ∃ n',
      (t.setNode p { n with value := value }).nodes q = some n' ∧ n'.key = n₀.key ∧
        n'.next = n₀.next ∧ n'.value = if q = p then value else n₀.value := by
    intro q n₀ hq
    by_cases hqp : q = p
    · subst hqp
      rw [hnode, Option.some.injEq] at hq
      subst hq
      exact ⟨{ n with value := value }, by simp [Table.setNode], rfl, rfl, (if_pos rfl).symm⟩
    · exact ⟨n₀, by simp [Table.setNode, hqp, hq], rfl, rfl, (if_neg hqp).symm⟩
  have hpne : p ≠ 0 := h.chain.ne_null h.next_null hp
  refine ⟨?_, ?_, h.size, ?_, ?_, ?_⟩
  · simp [Table.setNode, Function.update_of_ne hpne.symm, h.null]
  · refine h.chain.congr fun q hq => ?_
    obtain ⟨n₀, hn₀⟩ := h.exists_node hq
    obtain ⟨n', hn', -, hnext, -⟩ := hback q n₀ hn₀
    simp [Table.next, hn', hn₀, hnext]
  · intro q hq n' hn'
    obtain ⟨n₀, hn₀, hkey, -, -⟩ := hnodes q n' hn'
    rw [← hkey]
    exact h.home q hq n₀ hn₀
  · intro q hq r hr n₁ n₂ hn₁ hn₂ hkey
    obtain ⟨m₁, hm₁, hk₁, -, -⟩ := hnodes q n₁ hn₁
    obtain ⟨m₂, hm₂, hk₂, -, -⟩ := hnodes r n₂ hn₂
    exact h.unique q hq r hr m₁ m₂ hm₁ hm₂ (by rw [hk₁, hk₂, hkey])
  · intro k v hk
    by_cases hkey : k = n.key
    · subst hkey
      rw [Function.update_self, Option.some.injEq]
      constructor
      · intro hv
        obtain ⟨n', hn', hk', -, hv'⟩ := hback p n hnode
        exact ⟨p, hp, n', hn', hk', by rw [hv', if_pos rfl, hv]⟩
      · intro ⟨q, hq, n', hn', hnk, hnv⟩
        obtain ⟨n₀, hn₀, hk₀, -, hv₀⟩ := hnodes q n' hn'
        have hqp : q = p := h.unique q hq p hp n₀ n hn₀ hnode (hk₀.trans hnk)
        rw [← hnv, hv₀, if_pos hqp]
    · rw [Function.update_of_ne hkey, h.content k v hk]
      constructor
      · intro ⟨q, hq, n₀, hn₀, hnk, hnv⟩
        have hqp : q ≠ p := by
          intro heq
          rw [heq, hnode, Option.some.injEq] at hn₀
          exact hkey (by rw [hn₀, hnk])
        obtain ⟨n', hn', hk', -, hv'⟩ := hback q n₀ hn₀
        exact ⟨q, hq, n', hn', hk'.trans hnk, by rw [hv', if_neg hqp, hnv]⟩
      · intro ⟨q, hq, n', hn', hnk, hnv⟩
        obtain ⟨n₀, hn₀, hk₀, -, hv₀⟩ := hnodes q n' hn'
        have hqp : q ≠ p := by
          intro heq
          rw [heq, hnode, Option.some.injEq] at hn₀
          exact hkey (by rw [hn₀, hk₀, hnk])
        rw [if_neg hqp] at hv₀
        exact ⟨q, hq, n₀, hn₀, hk₀.trans hnk, hv₀.symm.trans hnv⟩

/-- The part of the chain after a node is itself a chain. -/
theorem chain_from {pre suf : List Ptr} {p : Ptr} (h : Bucket t i (pre ++ p :: suf) m) :
    Seg t.next (t.buckets i) pre p ∧ ∃ n, t.nodes p = some n ∧ Seg t.next n.next suf 0 := by
  obtain ⟨r, hpre, hr, y, hy, hsuf⟩ := seg_append.mp h.chain
  subst hr
  obtain ⟨n, hn, rfl⟩ := next_eq_some.mp hy
  exact ⟨hpre, n, hn, hsuf⟩

/-- The chain loses one node and keeps the others. `t'` is the table after the unlink: the
nodes keep their keys and values, and the links lead around `p`. -/
theorem remove {pre suf : List Ptr} {p : Ptr} {n : Node} (h : Bucket t i (pre ++ p :: suf) m)
    (hnode : t.nodes p = some n) (hsize : t'.hashSize = t.hashSize)
    (hnull : t'.nodes 0 = none) (hchain : Seg t'.next (t'.buckets i) (pre ++ suf) 0)
    (hlen : t'.bucketSizes i = t.bucketSizes i - 1)
    (hnodes : ∀ q ∈ pre ++ suf, ∃ n₀ n', t.nodes q = some n₀ ∧ t'.nodes q = some n' ∧
      n'.key = n₀.key ∧ n'.value = n₀.value) :
    Bucket t' i (pre ++ suf) (Function.update m n.key none) := by
  have hindex : ∀ k, t'.index k = t.index k := by
    intro k
    unfold Table.index
    rw [hsize]
  have hmem : ∀ q ∈ pre ++ suf, q ∈ pre ++ p :: suf := by
    intro q hq
    simp only [List.mem_append, List.mem_cons] at hq ⊢
    tauto
  have hpmem : p ∈ pre ++ p :: suf := by simp
  have hpout : p ∉ pre ++ suf := (List.nodup_middle.mp h.nodup).notMem
  -- The old node behind a node of the new chain.
  have hold : ∀ q ∈ pre ++ suf, ∀ n', t'.nodes q = some n' →
      ∃ n₀, t.nodes q = some n₀ ∧ n₀.key = n'.key ∧ n₀.value = n'.value := by
    intro q hq n' hn'
    obtain ⟨n₀, n₁, hn₀, hn₁, hk, hv⟩ := hnodes q hq
    rw [hn₁, Option.some.injEq] at hn'
    subst hn'
    exact ⟨n₀, hn₀, hk.symm, hv.symm⟩
  refine ⟨hnull, hchain, ?_, ?_, ?_, ?_⟩
  · rw [hlen, h.size]
    have hlength : (pre ++ p :: suf).length = (pre ++ suf).length + 1 := by
      simp only [List.length_append, List.length_cons]
      omega
    rw [hlength, UInt64.ofNat_add]
    exact UInt64.add_sub_cancel _ _
  · intro q hq n' hn'
    obtain ⟨n₀, hn₀, hk, -⟩ := hold q hq n' hn'
    rw [hindex, ← hk]
    exact h.home q (hmem q hq) n₀ hn₀
  · intro q hq r hr n₁ n₂ hn₁ hn₂ hkey
    obtain ⟨m₁, hm₁, hk₁, -⟩ := hold q hq n₁ hn₁
    obtain ⟨m₂, hm₂, hk₂, -⟩ := hold r hr n₂ hn₂
    exact h.unique q (hmem q hq) r (hmem r hr) m₁ m₂ hm₁ hm₂ (by rw [hk₁, hk₂, hkey])
  · intro k v hk
    rw [hindex] at hk
    by_cases hkey : k = n.key
    · -- The key was in `p` only.
      subst hkey
      rw [Function.update_self]
      constructor
      · intro hv
        cases hv
      · intro ⟨q, hq, n', hn', hnk, _⟩
        obtain ⟨n₀, hn₀, hk₀, -⟩ := hold q hq n' hn'
        have hqp : q = p := h.unique q (hmem q hq) p hpmem n₀ n hn₀ hnode (hk₀.trans hnk)
        exact absurd (hqp ▸ hq) hpout
    -- The node of another key is not `p`, so it is in the new chain.
    · rw [Function.update_of_ne hkey, h.content k v hk]
      constructor
      · intro ⟨q, hq, n₀, hn₀, hnk, hnv⟩
        have hqp : q ≠ p := by
          intro heq
          rw [heq, hnode, Option.some.injEq] at hn₀
          exact hkey (by rw [hn₀, hnk])
        have hq' : q ∈ pre ++ suf := by
          simp only [List.mem_append, List.mem_cons] at hq ⊢
          tauto
        obtain ⟨n₁, n', hn₁, hn', hk', hv'⟩ := hnodes q hq'
        rw [hn₀, Option.some.injEq] at hn₁
        subst hn₁
        exact ⟨q, hq', n', hn', hk'.trans hnk, hv'.trans hnv⟩
      · intro ⟨q, hq, n', hn', hnk, hnv⟩
        obtain ⟨n₀, hn₀, hk₀, hv₀⟩ := hold q hq n' hn'
        exact ⟨q, hmem q hq, n₀, hn₀, hk₀.trans hnk, hv₀.trans hnv⟩

/-- A node behind another one is taken out of its chain: the link of the node before leads
around it. -/
theorem unlink_behind {pre suf : List Ptr} {f : Found} {p : Ptr} {n : Node}
    (h : Bucket t i (pre ++ [p] ++ f.ptr :: suf) m) (hnode : t.nodes f.ptr = some f.node)
    (hn : t.nodes p = some n) :
    Bucket ((t.setNode p { n with next := f.node.next }).setSize i (t.bucketSizes i - 1)) i
      (pre ++ [p] ++ suf) (Function.update m f.node.key none) := by
  obtain ⟨hpre, n₁, hn₁, hsuf⟩ := h.chain_from
  rw [hnode, Option.some.injEq] at hn₁
  subst hn₁
  have hpne : p ≠ 0 := by
    refine h.chain.ne_null h.next_null ?_
    simp
  -- No address occurs twice, so only one link of the chain is written.
  have hout : p ∉ pre ++ suf := by
    have hnodup := h.nodup
    rw [List.append_assoc, List.singleton_append] at hnodup
    intro hmem
    refine (List.nodup_middle.mp hnodup).notMem ?_
    simp only [List.mem_append, List.mem_cons] at hmem ⊢
    tauto
  have hsame : ∀ q, q ≠ p → (t.setNode p { n with next := f.node.next }).nodes q = t.nodes q := by
    intro q hq
    exact Function.update_of_ne hq _ _
  have hself : (t.setNode p { n with next := f.node.next }).nodes p
      = some { n with next := f.node.next } := Function.update_self p _ _
  refine h.remove hnode rfl ?_ ?_ ?_ fun q hq => ?_
  · exact (hsame 0 hpne.symm).trans h.null
  · refine hpre.bypass hsuf ?_ hout fun q hq => ?_
    · show (t.setNode p { n with next := f.node.next }).next p = _
      simp only [Table.next, hself, Option.map_some]
    · show (t.setNode p { n with next := f.node.next }).next q = _
      simp only [Table.next, hsame q hq]
  · exact Function.update_self i _ _
  · have hmem : q ∈ pre ++ [p] ++ f.ptr :: suf := by
      simp only [List.mem_append, List.mem_cons] at hq ⊢
      tauto
    obtain ⟨n₀, hn₀⟩ := h.exists_node hmem
    by_cases hqp : q = p
    · subst hqp
      rw [hn, Option.some.injEq] at hn₀
      subst hn₀
      exact ⟨n, _, hn, hself, rfl, rfl⟩
    · exact ⟨n₀, n₀, hn₀, (hsame q hqp).trans hn₀, rfl, rfl⟩

/-- The first node is taken out of its chain: the bucket starts behind it. -/
theorem unlink_head {suf : List Ptr} {f : Found} (h : Bucket t i (f.ptr :: suf) m)
    (hnode : t.nodes f.ptr = some f.node) :
    Bucket ((t.setHead i f.node.next).setSize i (t.bucketSizes i - 1)) i suf
      (Function.update m f.node.key none) := by
  have h' : Bucket t i ([] ++ f.ptr :: suf) m := h
  obtain ⟨_, n, hn, hsuf⟩ := h'.chain_from
  rw [hnode, Option.some.injEq] at hn
  subst hn
  refine h'.remove hnode rfl h.null ?_ ?_ fun q hq => ?_
  · show Seg t.next (Function.update t.buckets i f.node.next i) suf 0
    rw [Function.update_self]
    exact hsuf
  · exact Function.update_self i _ _
  · obtain ⟨n, hn⟩ := h.exists_node (List.mem_cons_of_mem _ hq)
    exact ⟨n, n, hn, hn, rfl, rfl⟩

/-- The node `f` is taken out of its chain. The head or the node in front of it leads to the one
behind it, and the map has one key less. -/
theorem unlink {pre suf : List Ptr} {f : Found} (h : Bucket t i (pre ++ f.ptr :: suf) m)
    (hnode : t.nodes f.ptr = some f.node) (hprev : f.prev = pre.getLastD 0) :
    ∃ t', t.unlink i f = some t' ∧
      Bucket t' i (pre ++ suf) (Function.update m f.node.key none) ∧
      t'.hashSize = t.hashSize ∧ (∀ j, j ≠ i → t'.buckets j = t.buckets j) ∧
      (∀ j, j ≠ i → t'.bucketSizes j = t.bucketSizes j) ∧
      (∀ q, q ∉ pre → t'.nodes q = t.nodes q) := by
  cases hlast : pre.getLast? with
  | none =>
      -- The node is the head of the bucket.
      have hnil : pre = [] := List.getLast?_eq_none_iff.mp hlast
      subst hnil
      have hzero : f.prev = 0 := hprev
      refine ⟨(t.setHead i f.node.next).setSize i (t.bucketSizes i - 1), ?_,
        unlink_head h hnode, rfl, ?_, ?_, ?_⟩
      · simp [Table.unlink, hzero]
      · intro j hj
        exact Function.update_of_ne hj _ _
      · intro j hj
        exact Function.update_of_ne hj _ _
      · intro q _
        rfl
  | some r =>
      -- The node before is the last one of `pre`.
      obtain ⟨pre', rfl⟩ := List.getLast?_eq_some_iff.mp hlast
      have hr : f.prev = r := by rw [hprev]; simp
      obtain ⟨n, hn⟩ := h.exists_node (show r ∈ pre' ++ [r] ++ f.ptr :: suf by simp)
      have hrne : r ≠ 0 := by
        refine h.chain.ne_null h.next_null ?_
        simp
      refine ⟨(t.setNode r { n with next := f.node.next }).setSize i (t.bucketSizes i - 1),
        ?_, h.unlink_behind hnode hn, rfl, ?_, ?_, ?_⟩
      · simp [Table.unlink, hr, hrne, hn]
      · intro j _
        rfl
      · intro j hj
        exact Function.update_of_ne hj _ _
      · intro q hq
        refine Function.update_of_ne (fun heq => hq ?_) _ _
        simp [heq]

end Bucket

/-! ### The loop over a chain -/

namespace Walked

variable {t : Table} {i : Int} {pre suf : List Ptr} {m : CString → Option CString}
  {key : CString} {prev cur : Ptr}

/-- The loop starts at the head of the bucket. -/
theorem start {ps : List Ptr} (h : Bucket t i ps m) : Walked t [] ps key 0 (t.buckets i) where
  rest := h.chain
  last := rfl
  passed _ hp := by cases hp

/-- Away from `NULL` the cursor is on a live node of the chain. -/
theorem exists_cons (hw : Walked t pre suf key prev cur) (hcur : cur ≠ 0) :
    ∃ rest n, suf = cur :: rest ∧ t.nodes cur = some n ∧ Seg t.next n.next rest 0 := by
  obtain ⟨rest, y, hsuf, hy, hrest⟩ := hw.rest.exists_cons hcur
  obtain ⟨n, hn, rfl⟩ := next_eq_some.mp hy
  exact ⟨rest, n, hsuf, hn, hrest⟩

/-- A node with another key is passed. -/
theorem advance {rest : List Ptr} {n : Node} (hw : Walked t pre (cur :: rest) key prev cur)
    (hn : t.nodes cur = some n) (hkey : n.key ≠ key) :
    Walked t (pre ++ [cur]) rest key cur n.next where
  rest := by
    obtain ⟨-, y, hy, hseg⟩ := hw.rest
    obtain ⟨n', hn', rfl⟩ := next_eq_some.mp hy
    rw [hn, Option.some.injEq] at hn'
    exact hn' ▸ hseg
  last := by simp
  passed p hp n' hn' := by
    cases List.mem_append.mp hp with
    | inl hmem => exact hw.passed p hmem n' hn'
    | inr hmem =>
        rw [List.mem_singleton] at hmem
        rw [hmem, hn, Option.some.injEq] at hn'
        exact hn' ▸ hkey

/-- At the end of the chain the key is absent. -/
theorem absent (h : Bucket t i (pre ++ suf) m) (hw : Walked t pre suf key prev 0)
    (hi : t.index key = i) : m key = none := by
  have hnil : suf = [] := hw.rest.eq_nil h.next_null
  cases hm : m key with
  | none => rfl
  | some v =>
      obtain ⟨p, hp, n, hn, hkey, -⟩ := (h.content key v hi).mp hm
      rw [hnil, List.append_nil] at hp
      exact absurd hkey (hw.passed p hp n hn)

/-- At a node with the key the map holds its value. -/
theorem found {rest : List Ptr} {n : Node} (h : Bucket t i (pre ++ cur :: rest) m)
    (hn : t.nodes cur = some n) : m n.key = some n.value := by
  have hmem : cur ∈ pre ++ cur :: rest := by simp
  exact (h.content n.key n.value (h.home cur hmem n hn)).mpr ⟨cur, hmem, n, hn, rfl, rfl⟩

end Walked

/-- What the loop over a chain returns: nothing when the key is absent, and otherwise the
node with the key and its predecessor. -/
inductive SearchResult (t : Table) (ps : List Ptr) (key : CString)
    (m : CString → Option CString) : Option Found → Prop
  | absent (hm : m key = none) : SearchResult t ps key m none
  | found {pre suf : List Ptr} {f : Found} (hps : ps = pre ++ f.ptr :: suf)
      (hprev : f.prev = pre.getLastD 0) (hnode : t.nodes f.ptr = some f.node)
      (hkey : f.node.key = key) (hm : m key = some f.node.value) :
      SearchResult t ps key m (some f)

/-- The loop ends, without a fault, and its result is right. It is the node with the key, or none
when the chain has come to its end. -/
theorem search_of_walked {t : Table} {i : Int} {m : CString → Option CString} {key : CString}
    {fuel : Nat} {pre suf : List Ptr} {prev cur : Ptr} (h : Bucket t i (pre ++ suf) m)
    (hw : Walked t pre suf key prev cur) (hi : t.index key = i) (hfuel : suf.length < fuel) :
    ∃ r, t.search key fuel prev cur = some r ∧ SearchResult t (pre ++ suf) key m r := by
  -- Induction on the fuel. `Walked` carries the loop, and each round moves one node into `pre`.
  induction fuel generalizing pre suf prev cur with
  | zero => omega
  | succ fuel ih =>
      rw [Table.search]
      by_cases hcur : cur = 0
      · subst hcur
        rw [if_pos rfl]
        exact ⟨none, rfl, .absent (Walked.absent h hw hi)⟩
      · rw [if_neg hcur]
        obtain ⟨rest, n, rfl, hn, -⟩ := hw.exists_cons hcur
        simp only [hn]
        by_cases hkey : n.key = key
        · rw [if_pos hkey]
          exact ⟨_, rfl, .found rfl hw.last hn hkey (hkey ▸ Walked.found h hn)⟩
        · rw [if_neg hkey]
          have hps : pre ++ cur :: rest = pre ++ [cur] ++ rest := by simp
          rw [hps] at h ⊢
          exact ih h (hw.advance hn hkey) (by simpa using hfuel)

/-- The search in a bucket. -/
theorem find_spec {t : Table} {i : Int} {ps : List Ptr} {m : CString → Option CString}
    {key : CString} (h : Bucket t i ps m) (hi : t.index key = i) :
    ∃ r, t.find key = some r ∧ SearchResult t ps key m r := by
  unfold Table.find
  rw [hi]
  have hw : Walked t [] ps key 0 (t.buckets i) := Walked.start h
  -- A chain is shorter than the number of addresses, which is the fuel.
  exact search_of_walked (show Bucket t i ([] ++ ps) m from h) hw hi h.length_lt

end SysProg.Kvs
