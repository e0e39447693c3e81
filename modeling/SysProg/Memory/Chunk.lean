import Mathlib.Algebra.Group.Int.Defs
import Mathlib.Algebra.Group.Nat.Defs
import SysProg.Lib.ByteMemory

/-!
# `SysProg.Memory.Chunk`: blocks in memory

The model of `chunk.c`. A block starts with a header and ends with a footer, of one unit each:

* `struct Chunk` has `status` at offset 0, `span` at 4 and `next` at 8,
* `struct Footer` has `span` at offset 0 and `prev` at 8.

An `int` is an integer that `i32` brings back into 32 bits. An address is a number below
`2 ^ 64`, and `NULL` is `0`.
-/

set_option autoImplicit false

namespace SysProg.Memory

open SysProg.Lib

/-- `CHUNK_UNIT`, the size of a unit in bytes. -/
def chunkUnit : Nat := 16

/-- `CHUNK_FREE`. -/
def chunkFree : Int := 0

/-- `CHUNK_USED`. -/
def chunkUsed : Int := 1

/-- The largest `int`. -/
def intMax : Nat := 2147483647

/-- The value of an `int` expression, in 32 bits. -/
def i32 (x : Int) : Int := x.bmod (2 ^ 32)

/-- `(char *)p + d`. -/
def ptrAdd (p : Nat) (d : Int) : Nat := ((p + d) % 2 ^ 64).toNat

/-! ### Memory accesses -/

def loadInt (m : Mem) (a : Nat) : Int := i32 (load m a 4)
def storeInt (m : Mem) (a : Nat) (x : Int) : Mem := store m a 4 (x % 2 ^ 32).toNat
def loadPtr (m : Mem) (a : Nat) : Nat := load m a 8
def storePtr (m : Mem) (a : Nat) (p : Nat) : Mem := store m a 8 p

/-! ### Header accessors -/

/-- `chunk_get_status`. -/
def chunkGetStatus (m : Mem) (c : Nat) : Int := loadInt m c

/-- `chunk_set_status`. -/
def chunkSetStatus (m : Mem) (c : Nat) (status : Int) : Mem := storeInt m c status

/-- `chunk_get_span`. -/
def chunkGetSpan (m : Mem) (c : Nat) : Int := loadInt m (c + 4)

/-- `get_footer`. The offset is an `int`. -/
def getFooter (m : Mem) (c : Nat) : Nat :=
  ptrAdd c (i32 (i32 (chunkGetSpan m c - 1) * chunkUnit))

/-- `chunk_set_span`. The footer is that of the new span. -/
def chunkSetSpan (m : Mem) (c : Nat) (span : Int) : Mem :=
  let m := storeInt m (c + 4) span
  storeInt m (getFooter m c) span

/-- `chunk_get_next_free`. -/
def chunkGetNextFree (m : Mem) (c : Nat) : Nat := loadPtr m (c + 8)

/-- `chunk_set_next_free`. -/
def chunkSetNextFree (m : Mem) (c next : Nat) : Mem := storePtr m (c + 8) next

/-! ### Footer accessors -/

/-- The field `span` of a footer. -/
def footerSpan (m : Mem) (f : Nat) : Int := loadInt m f

/-- `chunk_get_prev_free`. -/
def chunkGetPrevFree (m : Mem) (c : Nat) : Nat := loadPtr m (getFooter m c + 8)

/-- `chunk_set_prev_free`. -/
def chunkSetPrevFree (m : Mem) (c prev : Nat) : Mem := storePtr m (getFooter m c + 8) prev

/-! ### Physical navigation -/

/-- `chunk_get_next_phys`. -/
def chunkGetNextPhys (m : Mem) (c stop : Nat) : Nat :=
  let n := ptrAdd c (i32 (chunkGetSpan m c * chunkUnit))
  if stop ≤ n then 0 else n

/-- `chunk_get_prev_phys`. -/
def chunkGetPrevPhys (m : Mem) (c start : Nat) : Nat :=
  if c ≤ start then 0
  else ptrAdd c (-i32 (footerSpan m (ptrAdd c (-chunkUnit)) * chunkUnit))

/-! ### The check of a debug build -/

/-- `chunk_is_valid`. -/
def chunkIsValid (m : Mem) (c start stop : Nat) : Bool :=
  if c = 0 then false
  else if c < start then false
  else if stop ≤ c then false
  else if chunkGetSpan m c < 2 then false
  else if stop ≤ getFooter m c then false
  else decide (footerSpan m (getFooter m c) = chunkGetSpan m c)

end SysProg.Memory
