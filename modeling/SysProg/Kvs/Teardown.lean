import SysProg.Kvs.Protocol
import SysProg.Kvs.SharedTable

/-!
# `SysProg.Kvs.Teardown`: the dump and the end of the table

The models of `hash_dump` and `hash_destroy` in `hashtable.c`, of `rwlock_destroy`, and of
`skvs_destroy`. They run without a lock, so they are for a table that no thread uses any more.
The answer is `none` for an access to a dead node, and for the end of a lock that some thread
still uses.

`renderDump` is what a dump of given entries looks like. It does not know the table.
-/

set_option autoImplicit false

namespace SysProg.Kvs

/-! ### The dump -/

/-- The digits of `%d` and `%ld`. -/
def decimal : Int → List UInt8
  | .ofNat n => ascii (Nat.toDigits 10 n)
  | .negSucc n => ascii ('-' :: Nat.toDigits 10 (n + 1))

/-- A `size_t` under `%ld`. -/
def longDecimal (n : UInt64) : List UInt8 := decimal n.toInt64.toInt

/-- An `unsigned` that was returned as an `int`, under `%d`. -/
def intDecimal (n : UInt32) : List UInt8 := decimal n.toInt32.toInt

/-- The line of a node. -/
def dumpEntry (key value : CString) : List UInt8 :=
  ascii [' ', ' ', ' ', ' ', 'K', '/', 'V', ':', ' '] ++ key.bytes ++ ascii [' ', '/', ' ']
    ++ value.bytes ++ [lf]

/-- The two lines in front of the nodes of a bucket. -/
def dumpHeading (i : Nat) (size : UInt64) (rw : RwLock) : List UInt8 :=
  ascii ['B', 'u', 'c', 'k', 'e', 't', ' '] ++ decimal i ++ ascii [':', ' '] ++ longDecimal size
    ++ ascii [' ', 'e', 'n', 't', 'r', 'i', 'e', 's'] ++ [lf]
    ++ ascii [' ', ' ', 'L', 'o', 'c', 'k', ' ', 'S', 't', 'a', 't', 'e', ' ', '-', '>', ' ', 'R',
      'e', 'a', 'd', ' ', 'C', 'o', 'u', 'n', 't', ':', ' '] ++ intDecimal rw.currentReaders
    ++ ascii [',', ' ', 'W', 'r', 'i', 't', 'e', ' ', 'C', 'o', 'u', 'n', 't', ':', ' ']
    ++ intDecimal rw.currentWriters ++ [lf]

/-- The line in front of the buckets. -/
def dumpTotal (total : UInt64) : List UInt8 :=
  ascii ['[', 'H', 'a', 's', 'h', ' ', 'T', 'a', 'b', 'l', 'e', ' ', 'D', 'u', 'm', 'p', ']', ' ']
    ++ ascii ['T', 'o', 't', 'a', 'l', ' ', 'E', 'n', 't', 'r', 'i', 'e', 's', ':', ' ']
    ++ longDecimal total ++ [lf]

/-- The last line. -/
def dumpEnd : List UInt8 := ascii ['E', 'n', 'd', ' ', 'o', 'f', ' ', 'D', 'u', 'm', 'p'] ++ [lf]

namespace Table

/-- `while (node)` in `hash_dump`. The fuel is as for `search`. -/
def dumpChain (t : Table) : Nat → Ptr → Option (List UInt8)
  | 0, _ => none
  | fuel + 1, node =>
      if node = 0 then some []
      else
        match t.nodes node with
        | none => none
        | some n => (t.dumpChain fuel n.next).map fun rest => dumpEntry n.key n.value ++ rest

/-- The body of the second loop in `hash_dump`. -/
def dumpBucket (t : Table) (rw : RwLock) (i : Nat) : Option (List UInt8) :=
  if t.bucketSizes i = 0 then some []
  else (t.dumpChain (2 ^ 64) (t.buckets i)).map fun lines =>
    dumpHeading i (t.bucketSizes i) rw ++ lines

/-- The first loop in `hash_dump`. -/
def totalEntries (t : Table) : UInt64 :=
  (List.range t.hashSize.toNat).foldl (fun total (i : Nat) => total + t.bucketSizes i) 0

end Table

/-- `hash_dump`. The answer is what it prints. -/
def hashDump (t : Table) (locks : Int → RwLock) : Option (List UInt8) :=
  ((List.range t.hashSize.toNat).mapM fun (i : Nat) => t.dumpBucket (locks i) i).map fun buckets =>
    dumpTotal t.totalEntries ++ buckets.flatten ++ dumpEnd

/-! ### The end of the table -/

/-- `while (node)` in `hash_destroy`. It reads the link before it frees the node. -/
def Table.destroyChain : Nat → Table → Ptr → Option Table
  | 0, _, _ => none
  | fuel + 1, t, node =>
      if node = 0 then some t
      else
        match t.nodes node with
        | none => none
        | some n => destroyChain fuel (t.freeNode node) n.next

section
variable {Tid : Type} [Fintype Tid]

/-- `rwlock_destroy`. It returns 0, because no lock is `NULL`. The mutex and the condition variable
may only be destroyed when no thread uses them. -/
def rwlockDestroy (l : LockState Tid) : Option Int :=
  if ∀ t, l.phase t = .idle then some 0 else none

/-- The body of the loop in `hash_destroy`. -/
def Table.destroyBucket (t : Table) (l : LockState Tid) (i : Nat) : Option Table :=
  (destroyChain (2 ^ 64) t (t.buckets i)).bind fun t' => (rwlockDestroy l).map fun _ => t'

/-- `hash_destroy`. The answer is the table with the nodes that are left. -/
def hashDestroy (t : Table) (locks : Int → LockState Tid) : Option Table :=
  (List.range t.hashSize.toNat).foldlM (fun (t : Table) (i : Nat) => t.destroyBucket (locks i) i) t

/-- `skvs_destroy`. The answer is what is left of the table, and what was printed. -/
def skvsDestroy (s : Shared Tid) (dump : Bool) : Option (Table × List UInt8) :=
  (if dump then hashDump s.table fun i => (s.locks i).rw else some []).bind fun text =>
    (hashDestroy s.table s.locks).map fun t => (t, text)

end

/-! ### What a dump looks like -/

/-- The part of a dump for the bucket `i` with the given entries, while nobody uses the table. -/
def renderBucket (i : Nat) (entries : List (CString × CString)) : List UInt8 :=
  if entries = [] then []
  else dumpHeading i (UInt64.ofNat entries.length) rwlockInit ++
    (entries.map fun e => dumpEntry e.1 e.2).flatten

/-- A dump of `n` buckets with the given entries. -/
def renderDump (n : Nat) (chains : Nat → List (CString × CString)) : List UInt8 :=
  dumpTotal (UInt64.ofNat ((List.range n).flatMap chains).length)
    ++ ((List.range n).map fun i => renderBucket i (chains i)).flatten ++ dumpEnd

/-- The text is a dump of the map `m`. It shows every key of `m` once, in the bucket of the key,
with its value. -/
def Shows (hashSize : UInt64) (m : CString → Option CString) (text : List UInt8) : Prop :=
  ∃ chains : Nat → List (CString × CString), text = renderDump hashSize.toNat chains ∧
    (∀ i < hashSize.toNat, ((chains i).map Prod.fst).Nodup ∧
      ∀ e ∈ chains i, (hash e.1 hashSize).toInt = i) ∧
    ∀ k v, m k = some v ↔ ∃ i < hashSize.toNat, (k, v) ∈ chains i

end SysProg.Kvs
