import Mathlib.Algebra.Group.Nat.Defs
import SysProg.Kvs.MapSpec

/-!
# `SysProg.Kvs.HashTable`: the chained hash table

The model of `hashtable.c`. The nodes live in a store that maps addresses to nodes. An
access to an address without a node is a fault, and the functions answer `none` then. The
address `0` is `NULL`.

* `CString` is a NUL-terminated string, given by the bytes before the terminator.
* `hash` and `Table.index` give the bucket of a key.
* `Table.search` is the loop over a chain that `hash_insert`, `hash_read`, `hash_update` and
  `hash_delete` share.
* `hashInsert`, `hashRead`, `hashUpdate` and `hashDelete` are the bodies of the four
  functions. `Alloc` holds the answers of `calloc` and `strdup` during one call.

The locks of the buckets are in `SysProg.Kvs.SharedTable`. The `NULL` checks on the
arguments are left out: every argument here is a table or a string.
-/

set_option autoImplicit false

namespace SysProg.Kvs

/-- A NUL-terminated string. -/
structure CString where
  bytes : List UInt8
  nul_free : 0 ∉ bytes
deriving DecidableEq

/-- An address, or `NULL`. -/
abbrev Ptr := UInt64

/-- `node_t`. A node owns its two strings. -/
structure Node where
  key : CString
  value : CString
  next : Ptr
deriving DecidableEq

/-- `hash`. A `char` is signed, so each byte is sign-extended before it is added. -/
def hash (key : CString) (hashSize : UInt64) : Int32 :=
  let hash := key.bytes.foldl
    (fun (hash : UInt32) c => (hash <<< 5) + c.toInt8.toInt32.toUInt32) 0
  (hash.toUInt64 % hashSize).toUInt32.toInt32

/-- `hashtable_t` with the nodes of its chains. -/
structure Table where
  hashSize : UInt64
  buckets : Int → Ptr
  bucketSizes : Int → UInt64
  nodes : Ptr → Option Node

/-- `hash_init`: every chain is empty. -/
def hashInit (hashSize : UInt64) : Table := ⟨hashSize, fun _ => 0, fun _ => 0, fun _ => none⟩

/-- The answers of the allocator during one call: the address `calloc` returns for a node
(`0` when it fails), and whether the `strdup` calls succeed. -/
structure Alloc where
  node : Ptr
  key : Bool
  value : Bool
deriving DecidableEq, Repr

/-- Where the loop over a chain stopped: the node it found and the node before it. -/
structure Found where
  prev : Ptr
  ptr : Ptr
  node : Node
deriving DecidableEq

namespace Table

/-- The bucket of a key. -/
def index (t : Table) (key : CString) : Int := (hash key t.hashSize).toInt

/-- The link of a node. -/
def next (t : Table) (p : Ptr) : Option Ptr := (t.nodes p).map Node.next

/-- Stores a node. -/
def setNode (t : Table) (p : Ptr) (n : Node) : Table :=
  { t with nodes := Function.update t.nodes p (some n) }

/-- `free(node)` with both strings of the node. -/
def freeNode (t : Table) (p : Ptr) : Table :=
  { t with nodes := Function.update t.nodes p none }

/-- `table->buckets[idx] = p`. -/
def setHead (t : Table) (idx : Int) (p : Ptr) : Table :=
  { t with buckets := Function.update t.buckets idx p }

/-- `table->bucket_sizes[idx] = n`. -/
def setSize (t : Table) (idx : Int) (n : UInt64) : Table :=
  { t with bucketSizes := Function.update t.bucketSizes idx n }

/-- `for (node = buckets[idx]; node; node = node->next)` with the `strcmp` in its body, from
the node `node` on. `prev` is the node before. The answer is `none` for a fault and for a
loop that does not end: after `2 ^ 64` nodes some node has come twice. -/
def search (t : Table) (key : CString) : Nat → Ptr → Ptr → Option (Option Found)
  | 0, _, _ => none
  | fuel + 1, prev, node =>
      if node = 0 then some none
      else
        match t.nodes node with
        | none => none
        | some n =>
            if n.key = key then some (some ⟨prev, node, n⟩) else t.search key fuel node n.next

/-- The search of a key in its bucket. -/
def find (t : Table) (key : CString) : Option (Option Found) :=
  t.search key (2 ^ 64) 0 (t.buckets (t.index key))

/-- Links a node that is already built at the head of the bucket. -/
def publish (t : Table) (idx : Int) (p : Ptr) : Table :=
  (t.setHead idx p).setSize idx (t.bucketSizes idx + 1)

/-- Takes a node out of its chain, without freeing it. A node without a predecessor is the
head of the bucket. -/
def unlink (t : Table) (idx : Int) (f : Found) : Option Table :=
  if f.prev ≠ 0 then
    match t.nodes f.prev with
    | none => none
    | some n =>
        some ((t.setNode f.prev { n with next := f.node.next }).setSize idx
          (t.bucketSizes idx - 1))
  else some ((t.setHead idx f.node.next).setSize idx (t.bucketSizes idx - 1))

end Table

/-- `hash_insert`. A node that was built in part is freed again. -/
def hashInsert (t : Table) (key value : CString) (mem : Alloc) :
    Option (Table × Reply CString) :=
  match t.find key with
  | none => none
  | some (some _) => some (t, ⟨0, none⟩)
  | some none =>
      if mem.node = 0 then some (t, ⟨-1, none⟩)
      else if !mem.key || !mem.value then some (t, ⟨-1, none⟩)
      else
        let idx := t.index key
        some ((t.setNode mem.node ⟨key, value, t.buckets idx⟩).publish idx mem.node, ⟨1, none⟩)

/-- `hash_read`. The value is what `strcpy` puts into `dst`. -/
def hashRead (t : Table) (key : CString) : Option (Table × Reply CString) :=
  match t.find key with
  | none => none
  | some (some f) => some (t, ⟨1, some f.node.value⟩)
  | some none => some (t, ⟨0, none⟩)

/-- `hash_update`. -/
def hashUpdate (t : Table) (key value : CString) (mem : Alloc) :
    Option (Table × Reply CString) :=
  match t.find key with
  | none => none
  | some (some f) =>
      if mem.value then some (t.setNode f.ptr { f.node with value := value }, ⟨1, none⟩)
      else some (t, ⟨-1, none⟩)
  | some none => some (t, ⟨0, none⟩)

/-- `hash_delete`. -/
def hashDelete (t : Table) (key : CString) : Option (Table × Reply CString) :=
  match t.find key with
  | none => none
  | some (some f) =>
      match t.unlink (t.index key) f with
      | none => none
      | some t' => some (t'.freeNode f.ptr, ⟨1, none⟩)
  | some none => some (t, ⟨0, none⟩)

/-- A call of one of the four functions. -/
def Table.call (t : Table) (mem : Alloc) : MapOp CString CString →
    Option (Table × Reply CString)
  | .insert key value => hashInsert t key value mem
  | .read key => hashRead t key
  | .update key value => hashUpdate t key value mem
  | .delete key => hashDelete t key

/-- `calloc` does not hand out the address of a live node. -/
def Alloc.Fits (mem : Alloc) (t : Table) : Prop := t.nodes mem.node = none

/-- Whether every allocation an operation needs has succeeded. -/
def Alloc.succeeds (mem : Alloc) : MapOp CString CString → Bool
  | .insert _ _ => decide (mem.node ≠ 0) && mem.key && mem.value
  | .update _ _ => mem.value
  | .read _ | .delete _ => true

/-- One call in a run of the table. The step is not enabled when the allocator breaks its
contract. -/
def Table.step (t : Table) (c : MapOp CString CString × Alloc) :
    Option (Table × List (Reply CString)) :=
  if (t.nodes c.2.node).isSome then none else (t.call c.2 c.1).map fun r => (r.1, [r.2])

end SysProg.Kvs
