import SysProg.Proofs.Kvs.HashTable
import SysProg.Proofs.Kvs.SharedLock

/-!
# `SysProg.Proofs.Kvs.SharedInv`: the invariant of the shared table

`SharedInv s ps m` ties the table, the locks and the threads to the map `m` of the operations
that have returned.

* A bucket holds `m`, or what `m` becomes when the writer that holds its lock returns
  (`Shared.View`). `Pc.after` is the map after the pending change of a thread.
* A thread holds the lock of its bucket while it works there, and is in no other lock
  (`away`, `locking`, `holds`).
* `Local` is what a thread knows: where its cursor is in the chain, or that the key is
  absent, or that its own node is in no chain yet or any more.

`Local.congr` is the frame rule for the threads in other buckets: they see a change of one
bucket not at all. `SharedInv.stay` and `SharedInv.write` are the two kinds of steps inside a
bucket, with and without a change of the table.
-/

set_option autoImplicit false

namespace SysProg.Kvs

open SysProg.Lib

namespace Pc

/-- The request of a thread that has entered the loop. -/
def working : Pc → Option Request
  | .walk r _ _ | .found r _ _ | .build r | .publish r _ | .unlinked r _ | .unlocking r _ =>
      some r
  | _ => none

/-- The node that a thread has built and not linked yet, or unlinked and not freed yet. -/
def node : Pc → Option Ptr
  | .publish _ p | .unlinked _ p => some p
  | _ => none

/-- The map after the change that a thread has made but not returned from. -/
def after (m : CString → Option CString) : Pc → CString → Option CString
  | .unlinked r _ => (r.op.apply m true).1
  | .unlocking r o => (r.op.apply m o.allocated).1
  | _ => m

/-- A thread that works on the table has a request. -/
theorem request_of_working {pc : Pc} {r : Request} (h : pc.working = some r) :
    pc.request = some r := by
  cases pc <;> first | exact h | cases h

/-- A read changes nothing. -/
theorem after_read {pc : Pc} {r : Request} {quick : Bool} (m : CString → Option CString)
    (hr : pc.request = some r) (hread : r.access = .read quick) : pc.after m = m := by
  have hop : ∃ key, r.op = .read key := by
    unfold Request.access at hread
    cases hop : r.op with
    | read key => exact ⟨key, rfl⟩
    | _ => rw [hop] at hread; cases hread
  obtain ⟨key, hop⟩ := hop
  have happly : ∀ b, (r.op.apply m b).1 = m := by
    intro b
    rw [hop]
    simp only [MapOp.apply]
    split <;> rfl
  cases pc with
  | unlinked r' p => cases hr; exact happly true
  | unlocking r' o => cases hr; exact happly _
  | _ => rfl

/-- The pending change of a thread depends on the map only at the keys of its bucket. -/
theorem after_congr {pc : Pc} {m m' : CString → Option CString} {S : CString → Prop}
    (hm : ∀ k, S k → m' k = m k) (hkey : ∀ r, pc.request = some r → S r.op.key) {k : CString}
    (hk : S k) : pc.after m' k = pc.after m k := by
  have happly : ∀ (op : MapOp CString CString) b, S op.key →
      (op.apply m' b).1 k = (op.apply m b).1 k := by
    intro op b hop
    -- An operation reads and writes the map at its own key only.
    by_cases hkop : k = op.key
    · subst hkop
      exact (MapOp.apply_congr b op (hm _ hop)).2
    · rw [MapOp.apply_ne m' b op hkop, MapOp.apply_ne m b op hkop, hm k hk]
  cases pc with
  | unlinked r p => exact happly r.op true (hkey r rfl)
  | unlocking r o => exact happly r.op o.allocated (hkey r rfl)
  | _ => exact hm k hk

end Pc

/-- What a thread knows about its bucket `i` with the nodes `ps`. -/
def Local (t : Table) (ps : List Ptr) (m : CString → Option CString) (i : Int) : Pc → Prop
  | .walk r prev node => ∃ pre suf, ps = pre ++ suf ∧ Walked t pre suf r.op.key prev node
  | .found r prev node => ∃ pre suf n, ps = pre ++ node :: suf ∧ prev = pre.getLastD 0 ∧
      t.nodes node = some n ∧ n.key = r.op.key
  | .build r => ∃ key value, r.op = .insert key value ∧ m key = none
  | .publish r p => ∃ key value, r.op = .insert key value ∧ m key = none ∧
      t.nodes p = some ⟨key, value, t.buckets i⟩ ∧ p ∉ ps
  | .unlinked r p => ∃ key value, r.op = .delete key ∧ m key = some value ∧ p ∉ ps ∧
      ∃ n, t.nodes p = some n ∧ t.index n.key = i
  | .unlocking r o => o.reply = (r.op.apply m o.allocated).2
  | _ => True

/-- A thread knows the same after a step elsewhere: the bucket `i` and its nodes are as
before, and so is the map at the key of the thread. -/
theorem Local.congr {t t' : Table} {ps : List Ptr} {m m' : CString → Option CString} {i : Int}
    {pc : Pc} (h : Local t ps m i pc) (hsize : t'.hashSize = t.hashSize)
    (hhead : t'.buckets i = t.buckets i)
    (hnodes : ∀ q n, t.nodes q = some n → t.index n.key = i → t'.nodes q = some n)
    (hps : ∀ q ∈ ps, ∃ n, t.nodes q = some n ∧ t.index n.key = i)
    (hkey : ∀ r, pc.request = some r → t.index r.op.key = i ∧ m' r.op.key = m r.op.key) :
    Local t' ps m' i pc := by
  have hsame : ∀ q ∈ ps, t'.nodes q = t.nodes q := by
    intro q hq
    obtain ⟨n, hn, hi⟩ := hps q hq
    rw [hn, hnodes q n hn hi]
  cases pc with
  | walk r prev node =>
      obtain ⟨pre, suf, rfl, hw⟩ := h
      refine ⟨pre, suf, rfl, ?_, hw.last, fun p hp n hn => ?_⟩
      · refine hw.rest.congr fun q hq => ?_
        simp only [Table.next, hsame q (List.mem_append_right pre hq)]
      · rw [hsame p (List.mem_append_left suf hp)] at hn
        exact hw.passed p hp n hn
  | found r prev node =>
      obtain ⟨pre, suf, n, rfl, hprev, hn, hk⟩ := h
      exact ⟨pre, suf, n, rfl, hprev, (hsame node (by simp)).trans hn, hk⟩
  | build r =>
      obtain ⟨key, value, hop, hm⟩ := h
      have hmk := (hkey r rfl).2
      rw [hop] at hmk
      exact ⟨key, value, hop, hmk.trans hm⟩
  | publish r p =>
      obtain ⟨key, value, hop, hm, hn, hp⟩ := h
      have hk := hkey r rfl
      rw [hop] at hk
      refine ⟨key, value, hop, hk.2.trans hm, ?_, hp⟩
      rw [hhead]
      exact hnodes p _ hn hk.1
  | unlinked r p =>
      obtain ⟨key, value, hop, hm, hp, n, hn, hi⟩ := h
      have hk := hkey r rfl
      rw [hop] at hk
      refine ⟨key, value, hop, hk.2.trans hm, hp, n, hnodes p n hn hi, ?_⟩
      unfold Table.index at hi ⊢
      rw [hsize]
      exact hi
  | unlocking r o =>
      have happly := (MapOp.apply_congr o.allocated r.op (hkey r rfl).2).1
      have hreply : o.reply = (r.op.apply m o.allocated).2 := h
      exact hreply.trans happly.symm
  | idle | locking r | fault => trivial

variable {Tid : Type}

namespace Shared

variable [DecidableEq Tid] (s : Shared Tid) (t : Tid) (pc : Pc)

@[simp] theorem setPc_pc_self : (s.setPc t pc).pc t = pc := by
  simp [setPc]

@[simp] theorem setPc_pc_ne {u : Tid} (h : u ≠ t) : (s.setPc t pc).pc u = s.pc u := by
  simp [setPc, h]

/-- What holds of the location that a thread moves to, and of the others where they are, holds
of all. -/
theorem forall_setPc {P : Tid → Pc → Prop} (ht : P t pc) (hothers : ∀ u, u ≠ t → P u (s.pc u))
    (u : Tid) : P u ((s.setPc t pc).pc u) := by
  by_cases hut : u = t
  · subst hut
    rw [setPc_pc_self]
    exact ht
  · rw [setPc_pc_ne _ _ _ hut]
    exact hothers u hut

end Shared

/-- The map that bucket `i` holds: the map `m` of the returned operations, with the change of
the thread that holds the write lock. -/
def Shared.View (s : Shared Tid) (m : CString → Option CString) (i : Int)
    (m' : CString → Option CString) : Prop :=
  (∃ t, (s.locks i).Writing t ∧ m' = (s.pc t).after m) ∨
    (∀ t, ¬ (s.locks i).Writing t) ∧ m' = m

section Inv
variable [Fintype Tid]

/-- The invariant of the shared table. -/
structure SharedInv (s : Shared Tid) (ps : Int → List Ptr) (m : CString → Option CString) :
    Prop where
  pos : 0 < s.table.hashSize
  le : s.table.hashSize ≤ 2147483647
  null : s.table.nodes 0 = none
  lock : ∀ i, ∃ q, LockInv (s.locks i) q
  /-- A thread is in no lock but the one of its bucket. -/
  away : ∀ t i, (∀ r, (s.pc t).request = some r → i ≠ s.index r) →
    (s.locks i).phase t = .idle
  locking : ∀ t r, s.pc t = .locking r → ((s.locks (s.index r)).phase t).For r.access
  holds : ∀ t r, (s.pc t).working = some r → ((s.locks (s.index r)).phase t).Holds r.access
  bucket : ∀ i, s.table.InRange i → ∀ m', s.View m i m' → Bucket s.table i (ps i) m'
  locals : ∀ t r, (s.pc t).request = some r →
    Local s.table (ps (s.index r)) m (s.index r) (s.pc t)
  noFault : ∀ t, s.pc t ≠ .fault
  /-- A live node is in the chain of its key, or a thread is about to link or to free it. -/
  live : ∀ p n, s.table.nodes p = some n →
    p ∈ ps (s.table.index n.key) ∨ ∃ t, (s.pc t).node = some p

namespace SharedInv

variable {s s' : Shared Tid} {ps : Int → List Ptr} {m : CString → Option CString}

/-- The lock of a request is one of the locks of the table. -/
theorem index_inRange (h : SharedInv s ps m) (r : Request) : s.table.InRange (s.index r) :=
  hash_range r.op.key h.pos h.le

/-- At most one thread writes in a bucket. -/
theorem writer_unique (h : SharedInv s ps m) {i : Int} {t u : Tid}
    (ht : (s.locks i).Writing t) (hu : (s.locks i).Writing u) : t = u := by
  obtain ⟨q, hq⟩ := h.lock i
  exact hq.queue.writer_unique ht hu

/-- A thread that holds a lock in the mode of its access either writes alone or reads while
nobody writes. -/
theorem mode (h : SharedInv s ps m) {t : Tid} {r : Request} {i : Int}
    (hp : ((s.locks i).phase t).Holds r.access) :
    (s.locks i).Writing t ∨ (∃ quick, r.access = .read quick) ∧ ∀ u, ¬ (s.locks i).Writing u := by
  unfold Phase.Holds at hp
  cases hacc : r.access with
  | write =>
      rw [hacc] at hp
      exact Or.inl hp
  | read quick =>
      rw [hacc] at hp
      obtain ⟨q, hq⟩ := h.lock i
      exact Or.inr ⟨⟨quick, rfl⟩, fun u hu => hq.alone u t hu hp⟩

/-- Where a thread holds the lock nobody else writes. -/
theorem not_writing (h : SharedInv s ps m) {t u : Tid} {r : Request} {i : Int}
    (hp : ((s.locks i).phase t).Holds r.access) (hut : u ≠ t) : ¬ (s.locks i).Writing u := by
  intro hu
  cases h.mode hp with
  | inl hw => exact hut (h.writer_unique hu hw)
  | inr hr => exact hr.2 u hu

/-- The bucket of a thread that holds its lock, with the pending change of the thread. -/
theorem bucket_of_holds (h : SharedInv s ps m) {t : Tid} {r : Request}
    (hr : (s.pc t).request = some r)
    (hp : ((s.locks (s.index r)).phase t).Holds r.access) :
    Bucket s.table (s.index r) (ps (s.index r)) ((s.pc t).after m) := by
  refine h.bucket _ (h.index_inRange r) _ ?_
  cases h.mode hp with
  | inl hw => exact Or.inl ⟨t, hw, rfl⟩
  | inr hread =>
      obtain ⟨⟨quick, hacc⟩, hno⟩ := hread
      exact Or.inr ⟨hno, Pc.after_read m hr hacc⟩

/-- A bucket holds some map. -/
theorem exists_bucket (h : SharedInv s ps m) {i : Int} (hi : s.table.InRange i) :
    ∃ m', s.View m i m' ∧ Bucket s.table i (ps i) m' := by
  by_cases hw : ∃ t, (s.locks i).Writing t
  · obtain ⟨t, ht⟩ := hw
    have hview : s.View m i ((s.pc t).after m) := Or.inl ⟨t, ht, rfl⟩
    exact ⟨_, hview, h.bucket i hi _ hview⟩
  · have hview : s.View m i m := Or.inr ⟨fun t ht => hw ⟨t, ht⟩, rfl⟩
    exact ⟨m, hview, h.bucket i hi m hview⟩

/-- The nodes of a chain are live, and their keys belong to the bucket. -/
theorem exists_node (h : SharedInv s ps m) {i : Int} (hi : s.table.InRange i) {q : Ptr}
    (hq : q ∈ ps i) : ∃ n, s.table.nodes q = some n ∧ s.table.index n.key = i := by
  obtain ⟨m', -, hb⟩ := h.exists_bucket hi
  obtain ⟨n, hn⟩ := hb.exists_node hq
  exact ⟨n, hn, hb.home q hq n hn⟩

/-- The node that a thread has outside the chain is live, and its key belongs to the bucket
of the thread. -/
theorem node_home (h : SharedInv s ps m) {t : Tid} {r : Request} {q : Ptr}
    (hr : (s.pc t).request = some r) (hq : (s.pc t).node = some q) :
    ∃ n, s.table.nodes q = some n ∧ s.table.index n.key = s.index r := by
  have hloc := h.locals t r hr
  cases hpc : s.pc t <;> rw [hpc] at hr hq hloc <;> cases hq
  · obtain ⟨key, value, hop, -, hn, -⟩ := hloc
    cases hr
    refine ⟨_, hn, ?_⟩
    simp [Shared.index, hop, MapOp.key]
  · obtain ⟨key, value, -, -, -, n, hn, hi⟩ := hloc
    exact ⟨n, hn, hi⟩

/-- A thread that writes in a bucket works on a request of that bucket. -/
theorem index_of_writing (h : SharedInv s ps m) {t : Tid} {r : Request} {i : Int}
    (hr : (s.pc t).request = some r) (hw : (s.locks i).Writing t) : s.index r = i := by
  by_contra hne
  have hidle := h.away t i fun r' hr' => by
    rw [hr, Option.some.injEq] at hr'
    subst hr'
    exact Ne.symm hne
  obtain ⟨k, hk⟩ := hw
  rw [hidle] at hk
  cases hk

/-- Another thread is not inside the bucket of a writer. -/
theorem local_of_writing (h : SharedInv s ps m) {t u : Tid} {r : Request} {table : Table}
    {qs : List Ptr} {m' : CString → Option CString} {i : Int} (hut : u ≠ t)
    (hr : (s.pc u).request = some r) (hw : (s.locks (s.index r)).Writing t) :
    Local table qs m' i (s.pc u) := by
  have hno : ∀ r', (s.pc u).working = some r' → False := by
    intro r' hr'
    have hsame := Pc.request_of_working hr'
    rw [hr, Option.some.injEq] at hsame
    subst hsame
    exact h.not_writing (h.holds u r hr') (Ne.symm hut) hw
  cases hpc : s.pc u with
  | idle | locking r' | fault => trivial
  | _ => exact absurd (by rw [hpc]; rfl) (hno _)

/-! ### Steps inside a bucket -/

section Inside
variable [DecidableEq Tid] {t : Tid} {r : Request} {pc : Pc}

/-- A thread that goes on with its request is in no other lock. -/
theorem inside_away (h : SharedInv s ps m) (hr : (s.pc t).request = some r)
    (hpc : pc.working = some r) (u : Tid) (i : Int)
    (hi : ∀ r', ((s.setPc t pc).pc u).request = some r' → i ≠ s.index r') :
    (s.locks i).phase u = .idle := by
  revert hi
  refine Shared.forall_setPc s t pc (P := fun u p => (∀ r', p.request = some r' → i ≠ s.index r') →
    (s.locks i).phase u = .idle) (fun hi => ?_) (fun u _ hi => h.away u i hi) u
  refine h.away t i fun r' hr' => ?_
  rw [hr, Option.some.injEq] at hr'
  subst hr'
  exact hi r (Pc.request_of_working hpc)

/-- It does not wait for the lock. -/
theorem inside_locking (h : SharedInv s ps m) (hpc : pc.working = some r) (u : Tid)
    (r' : Request) (hu : (s.setPc t pc).pc u = .locking r') :
    ((s.locks (s.index r')).phase u).For r'.access := by
  revert hu
  refine Shared.forall_setPc s t pc (P := fun u p => p = .locking r' →
    ((s.locks (s.index r')).phase u).For r'.access) (fun hu => ?_)
    (fun u _ hu => h.locking u r' hu) u
  rw [hu] at hpc
  cases hpc

/-- It holds the lock as before. -/
theorem inside_holds (h : SharedInv s ps m)
    (hp : ((s.locks (s.index r)).phase t).Holds r.access) (hpc : pc.working = some r) (u : Tid)
    (r' : Request) (hu : ((s.setPc t pc).pc u).working = some r') :
    ((s.locks (s.index r')).phase u).Holds r'.access := by
  revert hu
  refine Shared.forall_setPc s t pc (P := fun u p => p.working = some r' →
    ((s.locks (s.index r')).phase u).Holds r'.access) (fun hu => ?_)
    (fun u _ hu => h.holds u r' hu) u
  rw [hpc, Option.some.injEq] at hu
  exact hu ▸ hp

/-- It is not at a fault. -/
theorem inside_noFault (h : SharedInv s ps m) (hpc : pc.working = some r) (u : Tid) :
    (s.setPc t pc).pc u ≠ .fault := by
  refine Shared.forall_setPc s t pc (P := fun _ p => p ≠ .fault) (fun hfault => ?_)
    (fun u _ => h.noFault u) u
  rw [hfault] at hpc
  cases hpc

end Inside

/-- A step that leaves the table as it is. The places of the threads change, and each of them is
still right about the table. -/
theorem stay [DecidableEq Tid] (h : SharedInv s ps m) {t : Tid} {r : Request} {pc : Pc}
    (hr : (s.pc t).request = some r)
    (hp : ((s.locks (s.index r)).phase t).Holds r.access) (hpc : pc.working = some r)
    (hafter : pc.after m = (s.pc t).after m) (hnode : pc.node = (s.pc t).node)
    (hloc : Local s.table (ps (s.index r)) m (s.index r) pc) : SharedInv (s.setPc t pc) ps m := by
  have hreq := Pc.request_of_working hpc
  constructor
  case pos => exact h.pos
  case le => exact h.le
  case null => exact h.null
  case lock => exact h.lock
  case away => exact h.inside_away hr hpc
  case locking => exact h.inside_locking hpc
  case holds => exact h.inside_holds hp hpc
  case bucket =>
    intro i hi m' hview
    -- The bucket holds the same map, because the pending change is the same.
    refine h.bucket i hi m' ?_
    cases hview with
    | inl hw =>
        obtain ⟨u, hu, rfl⟩ := hw
        refine Or.inl ⟨u, hu, ?_⟩
        by_cases hut : u = t
        · subst hut
          rw [Shared.setPc_pc_self, hafter]
        · rw [Shared.setPc_pc_ne _ _ _ hut]
    | inr hno => exact Or.inr hno
  case locals =>
    intro u r' hu
    by_cases hut : u = t
    · subst hut
      rw [Shared.setPc_pc_self] at hu ⊢
      rw [hreq, Option.some.injEq] at hu
      exact hu ▸ hloc
    · rw [Shared.setPc_pc_ne _ _ _ hut] at hu ⊢
      exact h.locals u r' hu
  case noFault => exact h.inside_noFault hpc
  case live =>
    intro q n hn
    cases h.live q n hn with
    | inl hin => exact Or.inl hin
    | inr hown =>
        obtain ⟨u, hu⟩ := hown
        refine Or.inr ⟨u, ?_⟩
        by_cases hut : u = t
        · subst hut
          rw [Shared.setPc_pc_self, hnode, hu]
        · rw [Shared.setPc_pc_ne _ _ _ hut, hu]

/-- The other buckets are as they were before a step of a writer in its own. -/
theorem write_bucket [DecidableEq Tid] (h : SharedInv s ps m) {t : Tid} {r : Request} {pc : Pc}
    {table : Table} {i : Int} {m' : CString → Option CString}
    (hr : (s.pc t).request = some r) (hi : s.table.InRange i) (hne : i ≠ s.index r)
    (hnull : table.nodes 0 = none) (hsize : table.hashSize = s.table.hashSize)
    (hheads : ∀ j, j ≠ s.index r → table.buckets j = s.table.buckets j)
    (hsizes : ∀ j, j ≠ s.index r → table.bucketSizes j = s.table.bucketSizes j)
    (hnodes : ∀ q n, s.table.nodes q = some n → s.table.index n.key ≠ s.index r →
      table.nodes q = some n)
    (hview : Shared.View { s.setPc t pc with table := table } m i m') :
    Bucket table i (ps i) m' := by
  have hold : s.View m i m' := by
    cases hview with
    | inl hwrite =>
        obtain ⟨u, hu, rfl⟩ := hwrite
        have hut : u ≠ t := by
          intro hut
          subst hut
          exact hne (h.index_of_writing hr hu).symm
        refine Or.inl ⟨u, hu, ?_⟩
        rw [Shared.setPc_pc_ne _ _ _ hut]
    | inr hno => exact Or.inr hno
  refine (h.bucket i hi m' hold).congr hsize (hheads i hne) (hsizes i hne) hnull
    (fun q hq => ?_) fun _ _ => rfl
  obtain ⟨n, hn, hhome⟩ := h.exists_node hi hq
  rw [hn]
  exact hnodes q n hn (hhome ▸ hne)

/-- A thread in another bucket knows the same as before. -/
theorem write_local (h : SharedInv s ps m) {u : Tid} {r r' : Request} {table : Table}
    (hu : (s.pc u).request = some r') (hne : s.index r' ≠ s.index r)
    (hsize : table.hashSize = s.table.hashSize)
    (hheads : ∀ j, j ≠ s.index r → table.buckets j = s.table.buckets j)
    (hnodes : ∀ q n, s.table.nodes q = some n → s.table.index n.key ≠ s.index r →
      table.nodes q = some n) :
    Local table (ps (s.index r')) m (s.index r') (s.pc u) := by
  refine (h.locals u r' hu).congr hsize (hheads _ hne)
    (fun q n hn hhome => hnodes q n hn (hhome ▸ hne))
    (fun q hq => h.exists_node (h.index_inRange r') hq) fun r₀ hr₀ => ?_
  rw [hu, Option.some.injEq] at hr₀
  subst hr₀
  exact ⟨rfl, rfl⟩

/-- A node with a key of another bucket is in its chain, or another thread owns it. -/
theorem write_live (h : SharedInv s ps m) {t : Tid} {r : Request}
    (hr : (s.pc t).request = some r) {q : Ptr} {n : Node} (hn : s.table.nodes q = some n)
    (hout : s.table.index n.key ≠ s.index r) :
    q ∈ ps (s.table.index n.key) ∨ ∃ u, u ≠ t ∧ (s.pc u).node = some q := by
  cases h.live q n hn with
  | inl hq => exact Or.inl hq
  | inr hown =>
      obtain ⟨u, hu⟩ := hown
      -- The node of the writer has a key of the bucket, so another thread owns this one.
      refine Or.inr ⟨u, ?_, hu⟩
      intro hut
      subst hut
      obtain ⟨n', hn', hhome⟩ := h.node_home hr hu
      rw [hn, Option.some.injEq] at hn'
      exact hout (hn' ▸ hhome)

/-- A step of a writer that changes its bucket. No other bucket and no node with a key of
another bucket is touched. -/
theorem write [DecidableEq Tid] (h : SharedInv s ps m) {t : Tid} {r : Request} {pc : Pc}
    {table : Table} {qs : List Ptr} (hr : (s.pc t).request = some r)
    (hp : ((s.locks (s.index r)).phase t).Holds r.access)
    (hw : (s.locks (s.index r)).Writing t) (hpc : pc.working = some r)
    (hsize : table.hashSize = s.table.hashSize)
    (hheads : ∀ j, j ≠ s.index r → table.buckets j = s.table.buckets j)
    (hsizes : ∀ j, j ≠ s.index r → table.bucketSizes j = s.table.bucketSizes j)
    (hnodes : ∀ q n, s.table.nodes q = some n → s.table.index n.key ≠ s.index r →
      table.nodes q = some n)
    (hb : Bucket table (s.index r) qs (pc.after m)) (hloc : Local table qs m (s.index r) pc)
    (hlive : ∀ q n, table.nodes q = some n →
      s.table.index n.key = s.index r ∧ (q ∈ qs ∨ pc.node = some q) ∨
        s.table.index n.key ≠ s.index r ∧ s.table.nodes q = some n) :
    SharedInv { s.setPc t pc with table := table } (Function.update ps (s.index r) qs) m := by
  have hreq := Pc.request_of_working hpc
  have hindex : ∀ k, table.index k = s.table.index k := by
    intro k
    unfold Table.index
    rw [hsize]
  have hidx : ∀ r', Shared.index { s.setPc t pc with table := table } r' = s.index r' :=
    fun r' => hindex r'.op.key
  constructor
  case pos => exact hsize ▸ h.pos
  case le => exact hsize ▸ h.le
  case null => exact hb.null
  case lock => exact h.lock
  case away =>
    intro u i hi
    simp only [hidx] at hi
    exact h.inside_away hr hpc u i hi
  case locking =>
    intro u r' hu
    rw [hidx]
    exact h.inside_locking hpc u r' hu
  case holds =>
    intro u r' hu
    rw [hidx]
    exact h.inside_holds hp hpc u r' hu
  case bucket =>
    intro i hi m' hview
    have hi' : s.table.InRange i := by
      unfold Table.InRange at hi ⊢
      rwa [show _ = s.table.hashSize from hsize] at hi
    by_cases heq : i = s.index r
    · -- The bucket of the writer.
      subst heq
      rw [Function.update_self]
      cases hview with
      | inl hwrite =>
          obtain ⟨u, hu, rfl⟩ := hwrite
          have hut : u = t := h.writer_unique hu hw
          subst hut
          rw [Shared.setPc_pc_self]
          exact hb
      | inr hno => exact absurd hw (hno.1 t)
    · rw [Function.update_of_ne heq]
      exact h.write_bucket hr hi' heq hb.null hsize hheads hsizes hnodes hview
  case locals =>
    intro u r' hu
    rw [hidx]
    by_cases hut : u = t
    · subst hut
      rw [Shared.setPc_pc_self] at hu ⊢
      rw [hreq, Option.some.injEq] at hu
      subst hu
      rw [Function.update_self]
      exact hloc
    · rw [Shared.setPc_pc_ne _ _ _ hut] at hu ⊢
      by_cases heq : s.index r' = s.index r
      -- In the bucket of the writer the others wait for the lock.
      · exact h.local_of_writing hut hu (heq ▸ hw)
      · rw [Function.update_of_ne heq]
        exact h.write_local hu heq hsize hheads hnodes
  case noFault => exact h.inside_noFault hpc
  case live =>
    intro q n hn
    show q ∈ Function.update ps (s.index r) qs (table.index n.key) ∨ _
    rw [hindex]
    cases hlive q n hn with
    | inl hin =>
        rw [hin.1, Function.update_self]
        cases hin.2 with
        | inl hq => exact Or.inl hq
        | inr hq => exact Or.inr ⟨t, by rw [Shared.setPc_pc_self, hq]⟩
    | inr hout =>
        rw [Function.update_of_ne hout.1]
        cases h.write_live hr hout.2 hout.1 with
        | inl hq => exact Or.inl hq
        | inr hown =>
            obtain ⟨u, hut, hu⟩ := hown
            exact Or.inr ⟨u, by rw [Shared.setPc_pc_ne _ _ _ hut, hu]⟩

/-! ### Steps of a lock -/

/-- A step of the lock of bucket `i` does not change what the other buckets hold. A view of
another bucket reads the map at other keys only. -/
theorem relock_bucket [DecidableEq Tid] (h : SharedInv s ps m) {t : Tid} {i j : Int}
    {l : LockState Tid} {pc : Pc} {m' x : CString → Option CString}
    (hold : ∀ r, (s.pc t).request = some r → s.index r = i)
    (hother : ∀ k, s.table.index k ≠ i → m' k = m k) (hji : j ≠ i) (hj : s.table.InRange j)
    (hx : Shared.View { s.setPc t pc with locks := Function.update s.locks i l } m' j x) :
    Bucket s.table j (ps j) x := by
  have hlock : Function.update s.locks i l j = s.locks j := Function.update_of_ne hji _ _
  have hkeys : ∀ k, s.table.index k = j → m' k = m k :=
    fun k hk => hother k fun heq => hji (hk.symm.trans heq)
  cases hx with
  | inl hw =>
      obtain ⟨u, hu, rfl⟩ := hw
      have hu' : (s.locks j).Writing u := by
        have hu₁ : (Function.update s.locks i l j).Writing u := hu
        rwa [hlock] at hu₁
      have hreq : ∀ r, (s.pc u).request = some r → s.index r = j :=
        fun r hr => h.index_of_writing hr hu'
      -- The thread that steps is not the writer of this bucket, which it has no business in.
      have hut : u ≠ t := by
        intro hut
        subst hut
        cases hr : (s.pc u).request with
        | none =>
            have hidle := h.away u j fun r hr' => by rw [hr] at hr'; cases hr'
            obtain ⟨k, hk⟩ := hu'
            rw [hidle] at hk
            cases hk
        | some r => exact hji ((hreq r hr).symm.trans (hold r hr))
      show Bucket s.table j (ps j) (((s.setPc t pc).pc u).after m')
      rw [Shared.setPc_pc_ne _ _ _ hut]
      have hb := h.bucket j hj _ (Or.inl ⟨u, hu', rfl⟩)
      refine hb.congr rfl rfl rfl h.null (fun _ _ => rfl) fun k hk => ?_
      exact Pc.after_congr (S := fun k => s.table.index k = j) hkeys hreq hk
  | inr hno =>
      obtain ⟨hno, rfl⟩ := hno
      have hno' : ∀ u, ¬ (s.locks j).Writing u := by
        intro u hu
        refine hno u ?_
        show (Function.update s.locks i l j).Writing u
        rwa [hlock]
      exact (h.bucket j hj m (Or.inr ⟨hno', rfl⟩)).congr rfl rfl rfl h.null
        (fun _ _ => rfl) hkeys

/-- Nor does it change what another thread knows, when the map keeps the keys of the requests
in bucket `i`. -/
theorem relock_locals (h : SharedInv s ps m) {t u : Tid} {i : Int} {r : Request}
    {m' : CString → Option CString} (hother : ∀ k, s.table.index k ≠ i → m' k = m k)
    (hkeep : ∀ u r, u ≠ t → (s.pc u).working = some r → s.index r = i →
      m' r.op.key = m r.op.key)
    (hut : u ≠ t) (hu : (s.pc u).request = some r) :
    Local s.table (ps (s.index r)) m' (s.index r) (s.pc u) := by
  -- Only a thread that works in a chain knows something about the table.
  cases hwork : (s.pc u).working with
  | none => cases hpcu : s.pc u <;> rw [hpcu] at hwork <;> trivial
  | some r' =>
      have hsame := Pc.request_of_working hwork
      rw [hu, Option.some.injEq] at hsame
      subst hsame
      refine (h.locals u r hu).congr rfl rfl (fun _ _ hn _ => hn)
        (fun q hq => h.exists_node (h.index_inRange r) hq) fun r₀ hr₀ => ?_
      rw [hu, Option.some.injEq] at hr₀
      subst hr₀
      refine ⟨rfl, ?_⟩
      by_cases hji : s.index r = i
      · exact hkeep u r hut hwork hji
      · exact hother _ hji

/-- A step of the lock of bucket `i` by a thread that is outside of the chain before and
after. The map may change at the keys of this bucket, when the thread returns. -/
theorem relock [DecidableEq Tid] (h : SharedInv s ps m) {t : Tid} {i : Int}
    {l : LockState Tid} {pc : Pc} {m' : CString → Option CString}
    (hothers : (s.locks i).Others l t) (hlock : ∃ q, LockInv l q)
    (hold : ∀ r, (s.pc t).request = some r → s.index r = i) (hnode : (s.pc t).node = none)
    (hpc : pc = .idle ∧ l.phase t = .idle ∨
      ∃ r, pc = .locking r ∧ s.index r = i ∧ (l.phase t).For r.access)
    (hother : ∀ k, s.table.index k ≠ i → m' k = m k)
    (hkeep : ∀ u r, u ≠ t → (s.pc u).working = some r → s.index r = i →
      m' r.op.key = m r.op.key)
    (hview : ∀ x, Shared.View { s.setPc t pc with locks := Function.update s.locks i l } m' i x →
      s.View m i x) :
    SharedInv { s.setPc t pc with locks := Function.update s.locks i l } ps m' := by
  have hpct : pc.working = none ∧ pc.node = none ∧ pc ≠ .fault ∧ ∀ x, pc.after x = x := by
    rcases hpc with ⟨rfl, -⟩ | ⟨r, rfl, -⟩ <;> exact ⟨rfl, rfl, by simp, fun _ => rfl⟩
  have hlocks : ∀ j, j ≠ i → Function.update s.locks i l j = s.locks j :=
    fun j hj => Function.update_of_ne hj _ _
  have hself : Function.update s.locks i l i = l := by rw [Function.update_self]
  constructor
  case pos => exact h.pos
  case le => exact h.le
  case null => exact h.null
  case lock =>
    intro j
    show ∃ q, LockInv (Function.update s.locks i l j) q
    by_cases hj : j = i
    · subst hj
      rw [hself]
      exact hlock
    · rw [hlocks j hj]
      exact h.lock j
  case away =>
    intro u j hj
    show (Function.update s.locks i l j).phase u = .idle
    by_cases hut : u = t
    · subst hut
      rw [Shared.setPc_pc_self] at hj
      by_cases hji : j = i
      · subst hji
        rw [hself]
        rcases hpc with ⟨-, hidle⟩ | ⟨r, rfl, hr, -⟩
        · exact hidle
        · exact absurd hr.symm (hj r rfl)
      · rw [hlocks j hji]
        exact h.away u j fun r hr heq => hji (heq.trans (hold r hr))
    · rw [Shared.setPc_pc_ne _ _ _ hut] at hj
      have haway := h.away u j hj
      by_cases hji : j = i
      · subst hji
        rw [hself]
        exact hothers.idle hut haway
      · rwa [hlocks j hji]
  case locking =>
    intro u r hu
    show ((Function.update s.locks i l (s.index r)).phase u).For r.access
    by_cases hut : u = t
    · subst hut
      rw [Shared.setPc_pc_self] at hu
      rcases hpc with ⟨rfl, -⟩ | ⟨r', rfl, hr, hfor⟩
      · cases hu
      · cases hu
        rw [hr, hself]
        exact hfor
    · rw [Shared.setPc_pc_ne _ _ _ hut] at hu
      -- The others are where they were, or they were woken.
      have hfor := h.locking u r hu
      by_cases hji : s.index r = i
      · rw [hji] at hfor ⊢
        rw [hself]
        exact hothers.phaseFor hut hfor
      · rwa [hlocks _ hji]
  case holds =>
    intro u r hu
    show ((Function.update s.locks i l (s.index r)).phase u).Holds r.access
    by_cases hut : u = t
    · subst hut
      rw [Shared.setPc_pc_self, hpct.1] at hu
      cases hu
    · rw [Shared.setPc_pc_ne _ _ _ hut] at hu
      have hholds := h.holds u r hu
      by_cases hji : s.index r = i
      · rw [hji] at hholds ⊢
        rw [hself]
        exact hothers.holds hut hholds
      · rwa [hlocks _ hji]
  case bucket =>
    intro j hj x hx
    by_cases hji : j = i
    · subst hji
      exact h.bucket j hj x (hview x hx)
    · exact h.relock_bucket hold hother hji hj hx
  case locals =>
    intro u r hu
    show Local s.table (ps (s.index r)) m' (s.index r) ((s.setPc t pc).pc u)
    by_cases hut : u = t
    · subst hut
      rw [Shared.setPc_pc_self]
      rcases hpc with ⟨rfl, -⟩ | ⟨r', rfl, -⟩ <;> trivial
    · rw [Shared.setPc_pc_ne _ _ _ hut]
      refine h.relock_locals hother hkeep hut ?_
      rw [← Shared.setPc_pc_ne s t pc hut]
      exact hu
  case noFault =>
    exact Shared.forall_setPc s t pc (P := fun _ p => p ≠ .fault) hpct.2.2.1
      fun u _ => h.noFault u
  case live =>
    intro q n hn
    cases h.live q n hn with
    | inl hin => exact Or.inl hin
    | inr hown =>
        obtain ⟨u, hu⟩ := hown
        refine Or.inr ⟨u, ?_⟩
        show ((s.setPc t pc).pc u).node = some q
        by_cases hut : u = t
        · subst hut
          rw [hnode] at hu
          cases hu
        · rw [Shared.setPc_pc_ne _ _ _ hut, hu]

end SharedInv

end Inv

end SysProg.Kvs
