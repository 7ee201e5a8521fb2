import AssemblyLexer.Name.Arena
import AssemblyLexer.Text.Byte

/-!
Where the texts of names are kept. Short names share chunks of a fixed capacity,
and only the newest chunk is still filled; a long name has a chunk of exactly
its own size. Nothing that has been stored is ever moved.
-/

set_option autoImplicit false

namespace AssemblyLexer

/-- An arena with the bytes written to it. Names need no alignment, so the address where a chunk
starts plays no part and is taken to be zero. -/
structure Chunk where
  arena : Arena
  contents : Bytes
  length_contents : contents.length = arena.used

namespace Chunk

def ofCapacity (capacity : Nat) : Chunk :=
  ⟨Arena.ofCapacity 0 capacity, [], rfl⟩

def write (c : Chunk) (text : Bytes) (fits : text.length ≤ c.arena.remaining) : Chunk where
  arena := c.arena.claim text.length fits
  contents := c.contents ++ text
  length_contents := by
    rw [List.length_append, c.length_contents, Arena.claim]

/-- A new chunk that starts with the given text. -/
def holding (capacity : Nat) (text : Bytes) (fits : text.length ≤ capacity) : Chunk :=
  (ofCapacity capacity).write text fits

end Chunk

/-- One of the chunks of a storage, each kind counted in order of opening. -/
inductive ChunkId
  | shared (index : Nat)
  | dedicated (index : Nat)
  deriving DecidableEq, Repr

/-- The stretch of a chunk that holds a name. -/
structure Placement where
  chunk : ChunkId
  offset : Nat
  length : Nat
  deriving DecidableEq, Repr

structure Storage where
  /-- The chunks of long names, the oldest first. -/
  dedicated : List Chunk
  /-- The chunks of short names, the newest first. -/
  shared : List Chunk
  /-- The number of bytes stored. -/
  size : Nat

namespace Storage

def empty : Storage := ⟨[], [], 0⟩

/-- The capacity of a shared chunk. -/
def chunkCapacity : Nat := 4096

/-- The length from which a name has a chunk of its own. -/
def longLength : Nat := 256

def chunkCount (s : Storage) : Nat :=
  s.dedicated.length + s.shared.length

def storeLong (s : Storage) (text : Bytes) : Storage × Placement :=
  ({ s with
      dedicated := s.dedicated ++ [Chunk.holding text.length text (Nat.le_refl _)]
      size := s.size + text.length },
    ⟨.dedicated s.dedicated.length, 0, text.length⟩)

/-- Write into the newest shared chunk, or into a new one when that has no room. -/
def storeShort (s : Storage) (text : Bytes) (short : text.length < longLength) :
    Storage × Placement :=
  let fresh := Chunk.holding chunkCapacity text (by
    unfold longLength at short
    unfold chunkCapacity
    omega)
  match s.shared with
  | [] =>
    ({ s with shared := [fresh], size := s.size + text.length }, ⟨.shared 0, 0, text.length⟩)
  | chunk :: older =>
    if fits : text.length ≤ chunk.arena.remaining then
      ({ s with shared := chunk.write text fits :: older, size := s.size + text.length },
        ⟨.shared older.length, chunk.arena.used, text.length⟩)
    else
      ({ s with shared := fresh :: chunk :: older, size := s.size + text.length },
        ⟨.shared (older.length + 1), 0, text.length⟩)

def store (s : Storage) (text : Bytes) : Storage × Placement :=
  if short : text.length < longLength then s.storeShort text short else s.storeLong text

def chunk? (s : Storage) : ChunkId → Option Chunk
  | .shared index => s.shared.reverse[index]?
  | .dedicated index => s.dedicated[index]?

/-- The bytes at a placement. -/
def read (s : Storage) (p : Placement) : Bytes :=
  match s.chunk? p.chunk with
  | some chunk => (chunk.contents.drop p.offset).take p.length
  | none => []

end Storage

end AssemblyLexer
