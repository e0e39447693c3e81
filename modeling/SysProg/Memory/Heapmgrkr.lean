import SysProg.Memory.Allocator

/-!
# `SysProg.Memory.Heapmgrkr`: a circular list and a roving pointer

The model of `heapmrgkr.c`. A block has a header of one unit, with the link `ptr` at offset 0
and the `unsigned` field `size` at 8. The size is in units and counts the header. A block that
is in use has no mark.

The free blocks are in a circular list in the order of their addresses, which starts at the
static header `base`, of size 0. `freep` points into the list, and a search starts behind it.
-/

set_option autoImplicit false

namespace SysProg.Memory.Heapmgrkr

open SysProg.Lib

/-- `NALLOC`. -/
def nalloc : Nat := 1024

/-- The memory with the static variables and the program break. `base` is the address of the
static header, and the break stays between `bottom` and `limit`. -/
structure State where
  mem : Mem
  freep : Nat
  base : Nat
  brk : Nat
  bottom : Nat
  limit : Nat

namespace State

/-- The state before the first call. -/
def init (mem : Mem) (base brk limit : Nat) : State where
  mem := mem
  freep := 0
  base := base
  brk := brk
  bottom := brk
  limit := limit

/-- A write to the memory. -/
def setMem (h : State) (mem : Mem) : State := { h with mem := mem }

/-- `sbrk(increment)`: the old break, or `(char *)-1` and no change. -/
def sbrk (h : State) (granted : Bool) (increment : Int) : Nat × State :=
  if granted ∧ h.bottom ≤ h.brk + increment ∧ h.brk + increment ≤ h.limit then
    (h.brk, { h with brk := (h.brk + increment).toNat })
  else (sbrkFailed, h)

end State

/-! ### The fields of a header -/

/-- The value of an `unsigned` expression. -/
def u32 (x : Nat) : Nat := x % 2 ^ 32

/-- `p->ptr`. -/
def getPtr (m : Mem) (p : Nat) : Nat := loadPtr m p

/-- `p->ptr = q`. -/
def setPtr (m : Mem) (p q : Nat) : Mem := storePtr m p q

/-- `p->size`. -/
def getSize (m : Mem) (p : Nat) : Nat := load m (p + 8) 4

/-- `p->size = n`. -/
def setSize (m : Mem) (p n : Nat) : Mem := store m (p + 8) 4 n

/-- `p + n`. -/
def headerAdd (p : Nat) (n : Int) : Nat := ptrAdd p (n * chunkUnit)

/-! ### `heapmgr_free` -/

/-- The walk of `heapmgr_free` from `p` on. It ends where the block `bp` belongs: between `p` and
the next node, or behind `p` at the start or the end of the arena. After `2 ^ 64` nodes some node
has come twice. -/
def findSlot (m : Mem) (bp : Nat) : Nat → Nat → Except Stop Nat
  | 0, _ => .error .diverges
  | fuel + 1, p =>
      let q := getPtr m p
      if p < bp ∧ bp < q then .ok p
      else if q ≤ p ∧ (p < bp ∨ bp < q) then .ok p
      else findSlot m bp fuel q

/-- The join of `bp` to the block above. -/
def joinUpper (m : Mem) (p bp : Nat) : Mem :=
  let q := getPtr m p
  if headerAdd bp (getSize m bp) = q then
    let m := setSize m bp (u32 (getSize m bp + getSize m q))
    setPtr m bp (getPtr m q)
  else setPtr m bp q

/-- The join of `bp` to the block below. -/
def joinLower (m : Mem) (p bp : Nat) : Mem :=
  if headerAdd p (getSize m p) = bp then
    let m := setSize m p (u32 (getSize m p + getSize m bp))
    setPtr m p (getPtr m bp)
  else setPtr m p bp

/-- `heapmgr_free`. -/
def heapmgrFree (h : State) (ap : Nat) : Except Stop State :=
  let bp := headerAdd ap (-1)
  (findSlot h.mem bp (2 ^ 64) h.freep).map fun p =>
    { h with mem := joinLower (joinUpper h.mem p bp) p bp, freep := p }

/-! ### `heapmgr_malloc` -/

/-- `morecore`. The argument of `sbrk` is an `int`. The answer is `freep`, or `NULL` when `sbrk`
fails. -/
def morecore (h : State) (granted : Bool) (nu : Nat) : Except Stop (State × Nat) :=
  let nu := if nu < nalloc then nalloc else nu
  let r := h.sbrk granted (i32 (nu * chunkUnit))
  if r.1 = sbrkFailed then .ok (h, 0)
  else
    let h := r.2.setMem (setSize r.2.mem r.1 nu)
    (heapmgrFree h (headerAdd r.1 1)).map fun h => (h, h.freep)

/-- Takes `nunits` units from the block `p`, which follows `prevp` in the list. -/
def take (h : State) (prevp p nunits : Nat) : State × Nat :=
  if getSize h.mem p = nunits then
    ({ h with mem := setPtr h.mem prevp (getPtr h.mem p), freep := prevp }, headerAdd p 1)
  else
    let m := setSize h.mem p (u32 (getSize h.mem p - nunits))
    let p := headerAdd p (getSize m p)
    ({ h with mem := setSize m p nunits, freep := prevp }, headerAdd p 1)

/-- The loop of `heapmgr_malloc`, with `prevp` in front of the block it looks at. -/
def mallocLoop (granted : Bool) (nunits : Nat) : Nat → State → Nat → Except Stop (State × Nat)
  | 0, _, _ => .error .diverges
  | fuel + 1, h, prevp =>
      let p := getPtr h.mem prevp
      if nunits ≤ getSize h.mem p then .ok (take h prevp p nunits)
      else if p = h.freep then
        (morecore h granted nunits).bind fun r =>
          if r.2 = 0 then .ok (r.1, 0) else mallocLoop granted nunits fuel r.1 r.2
      else mallocLoop granted nunits fuel h p

/-- The number of units for a size, the header included. It is computed as a `size_t` and kept
as an `unsigned`. -/
def unitsFor (nbytes : Nat) : Nat :=
  u32 ((nbytes + chunkUnit - 1) % 2 ^ 64 / chunkUnit + 1)

/-- The empty list that `heapmgr_malloc` starts with. -/
def initList (h : State) : State :=
  { h with mem := setSize (setPtr h.mem h.base h.base) h.base 0, freep := h.base }

/-- `heapmgr_malloc`. -/
def heapmgrMalloc (h : State) (env : Sbrk) (nbytes : UInt64) : Except Stop (State × Nat) :=
  let h := if h.freep = 0 then initList h else h
  mallocLoop env.extend (unitsFor nbytes.toNat) (2 ^ 64) h h.freep

/-- The address of `base`, the break of the program before the first call, and the end of the memory
it may have. The static header is in front of the heap, and all the memory is less than `2 ^ 32`
units. -/
structure HeaderRange (base brk limit : Nat) : Prop where
  pos : 0 < base
  below : base + chunkUnit ≤ brk
  le : brk ≤ limit
  small : limit ≤ brk + chunkUnit * 4294967295
  lt : limit < sbrkFailed

/-- The manager as a program sees it. The largest size is the one whose units are an `int` in
bytes. `NULL` may not be freed. -/
def allocator : Allocator State where
  malloc := heapmgrMalloc
  free := heapmgrFree
  write := fun h x v => h.setMem ⟨Function.update h.mem.byte x v⟩
  maxSize := intMax / chunkUnit * chunkUnit - chunkUnit
  freesNull := false

end SysProg.Memory.Heapmgrkr
