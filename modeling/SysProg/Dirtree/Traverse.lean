import SysProg.Dirtree.Pattern

/-!
# `SysProg.Dirtree.Traverse`: the listing of a directory tree

The model of `process_dir_rec` and the functions it uses. A directory tree is a value: `d_type` and
`lstat` agree on the type of an entry, `lstat` succeeds, and no path gets too long. What a directory
contains is the list of entries that `readdir` returns, or the `errno` that `opendir` fails with.
Memory allocation succeeds.

Each name on the stack `pending_paths` has the number of the `strdup` call it comes from, and
`freed` has the numbers that `free` was called with. A push on the full stack is a fault.
-/

set_option autoImplicit false

namespace SysProg.Dirtree

/-- A string without a NUL byte. -/
structure FileName where
  bytes : List UInt8
  noNul : 0 ∉ bytes
deriving Repr

/-- The file types of `st_mode` and `d_type`. -/
inductive FileType where
  | directory
  | regular
  | link
  | fifo
  | socket
  | charDevice
  | blockDevice
deriving DecidableEq, Repr

/-- What is printed of a `struct stat`. The owner and the group are already names. -/
structure Attr where
  user : List UInt8
  group : List UInt8
  size : UInt64
  blocks : UInt64
deriving DecidableEq, Repr

/-- An entry of a directory. -/
inductive Node where
  | file (name : FileName) (attr : Attr) (type : {t : FileType // t ≠ .directory})
  | dir (name : FileName) (attr : Attr) (contents : Except Nat (List Node))

namespace Node

def name : Node → FileName
  | file name _ _ => name
  | dir name _ _ => name

def attr : Node → Attr
  | file _ attr _ => attr
  | dir _ attr _ => attr

def type : Node → FileType
  | file _ _ type => type
  | dir _ _ _ => .directory

def contents : Node → Except Nat (List Node)
  | file _ _ _ => .ok []
  | dir _ _ contents => contents

end Node

/-- `MAX_DEPTH`. -/
def maxDepthLimit : Nat := 20

/-- `MAX_PATH_LEN`. -/
def maxPathLen : Nat := 1024

/-- A pattern that `main` goes on with. -/
structure Pattern where
  bytes : List UInt8
  noNul : 0 ∉ bytes
  accepted : validatePattern bytes = true

/-- The options. `F_Filter` is set when there is a pattern. -/
structure Options where
  pattern : Option Pattern
  maxDepth : Nat
  one_le : 1 ≤ maxDepth
  le_limit : maxDepth ≤ maxDepthLimit

/-- `struct summary`. -/
structure Summary where
  dirs : UInt32
  files : UInt32
  links : UInt32
  fifos : UInt32
  socks : UInt32
  size : UInt64
  blocks : UInt64
deriving DecidableEq, Repr

/-- A line of output, with the arguments of its `printf`. -/
inductive Line where
  | detail (name user group : List UInt8) (size blocks : UInt64) (typeChar : UInt8)
  | name (text : List UInt8)
  | error (indent : List UInt8) (errno : Nat)
deriving DecidableEq, Repr

structure State where
  output : List Line
  pending : List (Nat × List UInt8)
  strdups : Nat
  freed : List Nat
  dstat : Summary
  tstat : Summary
deriving DecidableEq, Repr

/-! ### The order of the entries -/

/-- `strcmp`, for strings without NUL. -/
def strcmp : List UInt8 → List UInt8 → Int
  | [], [] => 0
  | [], d :: _ => -(d.toNat : Int)
  | c :: _, [] => c.toNat
  | c :: s, d :: t => if c = d then strcmp s t else (c.toNat : Int) - d.toNat

/-- `dirent_compare`. -/
def direntCompare (e₁ e₂ : Node) : Int :=
  if e₁.type ≠ e₂.type ∧ e₁.type = .directory then -1
  else if e₁.type ≠ e₂.type ∧ e₂.type = .directory then 1
  else strcmp e₁.name.bytes e₂.name.bytes

/-- `"."`. -/
def dot : List UInt8 := [46]

/-- `get_next` skips `"."` and `".."`. -/
def isIgnored (e : Node) : Bool := e.name.bytes = dot ∨ e.name.bytes = dot ++ dot

/-- The array `entries` after the sort. -/
def sortedEntries (entries : List Node) : List Node :=
  (entries.filter fun e => !isIgnored e).mergeSort fun e₁ e₂ => direntCompare e₁ e₂ ≤ 0

/-! ### The texts -/

def space : UInt8 := 32

/-- `ind_name`. -/
def indName (depth : Nat) (name : List UInt8) : List UInt8 :=
  (List.replicate (depth * 2 + 2) space ++ name).take (maxPathLen - 1)

/-- A name of more than 54 characters is cut and ends with three dots. -/
def truncName (text : List UInt8) : List UInt8 :=
  if 54 < text.length then text.take 51 ++ (dot ++ dot ++ dot) else text

/-- `name_buf`. -/
def nameBuf (text : List UInt8) : List UInt8 :=
  truncName text ++ List.replicate (54 - text.length) space

/-- `type_c`. -/
def typeChar : FileType → UInt8
  | .directory => 100
  | .link => 108
  | .fifo => 102
  | .socket => 115
  | _ => space

/-! ### The state -/

/-- What an entry adds to a summary. -/
def Summary.add (s : Summary) (e : Node) : Summary where
  files := s.files + if e.type = .regular then 1 else 0
  dirs := s.dirs + if e.type = .directory then 1 else 0
  links := s.links + if e.type = .link then 1 else 0
  fifos := s.fifos + if e.type = .fifo then 1 else 0
  socks := s.socks + if e.type = .socket then 1 else 0
  size := s.size + e.attr.size
  blocks := s.blocks + e.attr.blocks

/-- `flush_pending`. -/
def flushPending (st : State) : State :=
  { st with
    output := st.output ++ st.pending.map fun p => Line.name p.2
    freed := st.freed ++ st.pending.map fun p => p.1
    pending := [] }

/-- `if (flags & F_Filter) flush_pending()`. -/
def flushIfFilter (opts : Options) (st : State) : State :=
  if opts.pattern.isSome then flushPending st else st

/-- `pending_paths[pending_count++] = strdup(text)`. -/
def pushPending (text : List UInt8) (st : State) : Except Fault State :=
  if st.pending.length < maxDepthLimit then
    .ok { st with pending := st.pending ++ [(st.strdups, text)], strdups := st.strdups + 1 }
  else .error .outOfBounds

/-- `free(pending_paths[--pending_count])`. -/
def popPending (st : State) : State :=
  { st with
    freed := st.freed ++ (st.pending.getLast?.map fun p => p.1).toList
    pending := st.pending.dropLast }

/-- The line of an entry that matches. -/
def detailLine (depth : Nat) (e : Node) : Line :=
  .detail (nameBuf (indName depth e.name.bytes)) e.attr.user e.attr.group e.attr.size e.attr.blocks
    (typeChar e.type)

/-- The branch for an entry that matches. -/
def printEntry (opts : Options) (depth : Nat) (e : Node) (st : State) : State :=
  let st := flushIfFilter opts st
  { st with
    output := st.output ++ [detailLine depth e]
    dstat := st.dstat.add e
    tstat := st.tstat.add e }

/-! ### `process_dir_rec` -/

/-- `matches`. -/
def entryMatches (opts : Options) (e : Node) : Except Fault Bool :=
  match opts.pattern with
  | none => .ok true
  | some p => isMatch e.name.bytes (some p.bytes)

/-- The body of the loop. `process` is the recursive call. -/
def processEntry (opts : Options)
    (process : Nat → Except Nat (List Node) → State → Except Fault State)
    (depth : Nat) (st : State) (e : Node) : Except Fault State := do
  let isDir := decide (e.type = .directory)
  let matched ← entryMatches opts e
  if !matched && !isDir then return st
  let st := if matched then printEntry opts depth e st else st
  if isDir ∧ depth + 1 < opts.maxDepth then
    if !matched && opts.pattern.isSome then
      let myPendingIdx := st.pending.length
      let st ← pushPending (truncName (indName depth e.name.bytes)) st
      let st ← process (depth + 1) e.contents st
      -- The stack is shorter when some descendant has flushed it.
      return if myPendingIdx < st.pending.length then popPending st else st
    else process (depth + 1) e.contents st
  else return st

/-- `process_dir_rec`, for a directory with these contents. `ind` has 100 bytes. -/
def processDirRec (opts : Options) :
    Nat → Nat → Except Nat (List Node) → State → Except Fault State
  | 0, _, _, _ => .error .outOfFuel
  | fuel + 1, depth, contents, st =>
      match contents with
      | .error errno =>
          let st := flushIfFilter opts st
          if depth * 2 < 100 then
            .ok { st with output := st.output ++ [.error (List.replicate (depth * 2) space) errno] }
          else .error .outOfBounds
      | .ok entries =>
          (sortedEntries entries).foldlM (processEntry opts (processDirRec opts fuel) depth) st

/-- The state that `main` calls `process_dir_rec` in, for the first directory. -/
def State.init : State where
  output := []
  pending := []
  strdups := 0
  freed := []
  dstat := ⟨0, 0, 0, 0, 0, 0, 0⟩
  tstat := ⟨0, 0, 0, 0, 0, 0, 0⟩

/-- `process_dir_rec` from the root, at depth 0. -/
def processDirRoot (opts : Options) (contents : Except Nat (List Node)) : Except Fault State :=
  processDirRec opts opts.maxDepth 0 contents State.init

end SysProg.Dirtree
