import AssemblyLexer.Name.Arena

/-!
Arenas in machine words. Addresses are rounded up with a mask and all arithmetic is modulo
2^64, so that each request is checked before its words can come round.
-/

set_option autoImplicit false

namespace AssemblyLexer

/-- A request for bytes at an address that is a multiple of the alignment. -/
structure AllocationRequest where
  size : UInt64
  alignment : UInt64
  deriving DecidableEq, Repr

/-- The words that an allocation computes on its way. -/
structure AllocationWords where
  mask : UInt64
  /-- The first address that has not been handed out. -/
  current : UInt64
  /-- The greatest address to which the mask can be added. -/
  highest : UInt64
  raised : UInt64
  aligned : UInt64
  gap : UInt64
  /-- The offset of the block. -/
  start : UInt64
  /-- What the block can take. -/
  room : UInt64
  /-- The offset behind the block. -/
  stop : UInt64
  address : UInt64
  deriving DecidableEq, Repr

structure WordArena where
  base : UInt64
  capacity : UInt64
  offset : UInt64
  deriving DecidableEq, Repr

namespace WordArena

def ofCapacity (base capacity : UInt64) : WordArena :=
  ⟨base, capacity, 0⟩

def remaining (a : WordArena) : UInt64 :=
  a.capacity - a.offset

def words (a : WordArena) (request : AllocationRequest) : AllocationWords :=
  let mask := request.alignment - 1
  let current := a.base + a.offset
  let raised := current + mask
  let aligned := raised &&& ~~~mask
  let gap := aligned - current
  let start := a.offset + gap
  { mask := mask
    current := current
    highest := 0xFFFFFFFFFFFFFFFF - mask
    raised := raised
    aligned := aligned
    gap := gap
    start := start
    room := a.capacity - start
    stop := start + request.size
    address := a.base + start }

/-- The offset of a block for the request, if there is one, and the arena after it. -/
def allocate (a : WordArena) (request : AllocationRequest) : Option UInt64 × WordArena :=
  let words := a.words request
  if request.alignment = 0 ∨ request.alignment &&& words.mask ≠ 0 then (none, a)
  else if words.highest < words.current then (none, a)
  else if a.capacity < words.start ∨ words.room < request.size then (none, a)
  else (some words.start, { a with offset := words.stop })

def after (a : WordArena) (requests : List AllocationRequest) : WordArena :=
  requests.foldl (fun a request => (a.allocate request).2) a

end WordArena

/-- The arena after requests one after another, whether they are met or not. -/
def Arena.after (a : Arena) (requests : List AllocationRequest) : Arena :=
  requests.foldl (fun a request =>
    ((a.allocate? request.size.toNat request.alignment.toNat).map Prod.snd).getD a) a

/-- A block that has been handed out for a request. -/
structure AllocatedBlock where
  start : UInt64
  request : AllocationRequest
  deriving DecidableEq, Repr

/-- The blocks that are handed out for requests one after another. -/
def WordArena.blocks (a : WordArena) : List AllocationRequest → List AllocatedBlock
  | [] => []
  | request :: later =>
    let (start?, after) := a.allocate request
    (start?.map fun start => ⟨start, request⟩).toList ++ after.blocks later

end AssemblyLexer
