import AssemblyLexer.Name.History

/-!
Tables of names in place. The arenas of a table lie somewhere in memory, in the order in
which they were opened, and one of them at a time is filled with short names. A name is a
range of an arena and says what the bytes of the range say, and so does the key that it has in
the index. A table is only as good as its bytes are safe from what is stored later.
-/

set_option autoImplicit false

namespace AssemblyLexer

/-- Where new arenas lie, by how many there are before and by capacity, as far as there is memory for
them. They end inside the address space. -/
structure Allocator where
  address? : Nat → Nat → Option Nat
  add_lt : ∀ {count capacity address : Nat},
    address? count capacity = some address → address + capacity < UInt64.size

/-- An arena with the bytes of its whole buffer. -/
structure ArenaBuffer where
  arena : Arena
  bytes : Bytes

namespace ArenaBuffer

def ofCapacity (base capacity : Nat) : ArenaBuffer :=
  ⟨.ofCapacity base capacity, List.replicate capacity 0⟩

def overwrite (b : ArenaBuffer) (offset : Nat) (text : Bytes) : Bytes :=
  b.bytes.take offset ++ text ++ b.bytes.drop (offset + text.length)

def read (b : ArenaBuffer) (offset length : Nat) : Bytes :=
  (b.bytes.drop offset).take length

end ArenaBuffer

/-- A range of one of the arenas of a chain. -/
structure ArenaRange where
  arena : Nat
  offset : Nat
  length : Nat
  deriving DecidableEq, Repr

/-- Why a text does not become a name. -/
inductive NameTableError
  /-- There is no memory for a new arena. -/
  | outOfMemory
  /-- The arena that the text should go to has no room for it. -/
  | noRoom
  /-- No number is left. -/
  | namesExhausted
  deriving DecidableEq, Repr

/-- The arenas of a table in the order of their opening. -/
structure ArenaChain where
  arenas : List ArenaBuffer
  /-- The arena that short texts go to, from the first one on. -/
  current? : Option Nat
  /-- The number of bytes stored. -/
  size : Nat

namespace ArenaChain

def empty : ArenaChain := ⟨[], none, 0⟩

/-- Open an arena behind those that there are. -/
def opened (c : ArenaChain) (allocator : Allocator) (capacity : Nat) :
    Except NameTableError ArenaChain :=
  match allocator.address? c.arenas.length capacity with
  | none => .error .outOfMemory
  | some address => .ok { c with arenas := c.arenas ++ [.ofCapacity address capacity] }

/-- The current arena, with its place in the chain. -/
def currentArena? (c : ArenaChain) : Option (Nat × ArenaBuffer) :=
  c.current?.bind fun i => c.arenas[i]?.map (i, ·)

/-- Open the arena that short texts go to from now on. -/
def renewed (c : ArenaChain) (allocator : Allocator) : Except NameTableError (ArenaChain × Nat) := do
  let opened ← c.opened allocator Storage.chunkCapacity
  return ({ opened with current? := some c.arenas.length }, c.arenas.length)

/-- Find the arena for a text of the given length, opening one if need be. -/
def ready (c : ArenaChain) (allocator : Allocator) (length : Nat) :
    Except NameTableError (ArenaChain × Nat) :=
  if Storage.longLength ≤ length then do
    let opened ← c.opened allocator length
    return (opened, c.arenas.length)
  else
    match c.currentArena? with
    | none => c.renewed allocator
    | some (i, buffer) =>
      if buffer.arena.remaining < length then c.renewed allocator else return (c, i)

/-- Write a text where the arena at the given place allocates it. -/
def write (c : ArenaChain) (i : Nat) (text : Bytes) :
    Except NameTableError (ArenaChain × ArenaRange) :=
  match c.arenas[i]? with
  | none => .error .noRoom
  | some buffer =>
    match buffer.arena.allocate? text.length 1 with
    | none => .error .noRoom
    | some (offset, arena) =>
      .ok ({ c with
          arenas := c.arenas.set i ⟨arena, buffer.overwrite offset text⟩
          size := c.size + text.length },
        ⟨i, offset, text.length⟩)

def store (c : ArenaChain) (allocator : Allocator) (text : Bytes) :
    Except NameTableError (ArenaChain × ArenaRange) := do
  let (c, i) ← c.ready allocator text.length
  c.write i text

/-- The bytes of a range. -/
def read (c : ArenaChain) (r : ArenaRange) : Bytes :=
  match c.arenas[r.arena]? with
  | some buffer => buffer.read r.offset r.length
  | none => []

end ArenaChain

structure PlacedTable where
  chain : ArenaChain
  /-- The ranges of the names in the order of their numbers. -/
  ranges : List ArenaRange
  /-- The names by their ranges. -/
  index : List (ArenaRange × Name)
  pending : Bytes

namespace PlacedTable

/-- The empty name has a range of no length. -/
def empty : PlacedTable where
  chain := .empty
  ranges := [⟨0, 0, 0⟩]
  index := [(⟨0, 0, 0⟩, .empty)]
  pending := []

/-- The texts of the names, read from the arenas. -/
def texts (t : PlacedTable) : List Bytes :=
  t.ranges.map t.chain.read

/-- A range is the key of what its bytes say. -/
def find? (t : PlacedTable) (text : Bytes) : Option Name :=
  (t.index.find? fun entry => t.chain.read entry.1 == text).map Prod.snd

/-- The numbers of names have 32 bits, and the last of them is not given. -/
def add (t : PlacedTable) (allocator : Allocator) (text : Bytes) :
    Except NameTableError (PlacedTable × Name) :=
  match t.find? text with
  | some name => .ok (t, name)
  | none =>
    if NameTable.limit ≤ t.ranges.length then .error .namesExhausted
    else do
      let (chain, range) ← t.chain.store allocator text
      let name : Name := ⟨t.ranges.length⟩
      return ({ t with
          chain := chain
          ranges := t.ranges ++ [range]
          index := t.index ++ [(range, name)] },
        name)

/-- What is pending is dropped if it is known, and it is cleared only when it has a name. -/
def internPending (t : PlacedTable) (allocator : Allocator) :
    Except NameTableError (PlacedTable × Name) :=
  match t.find? t.pending with
  | some name => .ok ({ t with pending := [] }, name)
  | none => do
    let (t, name) ← t.add allocator t.pending
    return ({ t with pending := [] }, name)

/-- An operation that fails leaves the pending text alone. -/
def apply (t : PlacedTable) (allocator : Allocator) :
    NameOperation → Except NameTableError PlacedTable
  | .add text => (t.add allocator text).map Prod.fst
  | .intern text => (t.add allocator text).map Prod.fst
  | .find _ => .ok t
  | .get _ => .ok t
  | .contains _ => .ok t
  | .pushPending text => .ok { t with pending := t.pending ++ text }
  | .pushPendingCode code =>
    .ok { t with pending := t.pending ++ ((Utf8.scalar? code).map Utf8.encode).getD [] }
  | .clearPending => .ok { t with pending := [] }
  | .internPending => (t.internPending allocator).map Prod.fst

/-- The table after an operation, whether it fails or not. -/
def attempt (t : PlacedTable) (allocator : Allocator) (operation : NameOperation) : PlacedTable :=
  match t.apply allocator operation with
  | .ok after => after
  | .error _ => t

def after (t : PlacedTable) (allocator : Allocator) (history : List NameOperation) : PlacedTable :=
  history.foldl (fun t operation => t.attempt allocator operation) t

/-- The operations of a history up to the first that fails. -/
def run (t : PlacedTable) (allocator : Allocator) (history : List NameOperation) :
    Except NameTableError PlacedTable :=
  history.foldlM (fun t operation => t.apply allocator operation) t

end PlacedTable

end AssemblyLexer
