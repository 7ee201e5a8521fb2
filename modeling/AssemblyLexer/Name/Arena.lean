/-!
Arenas: a fixed stretch of addresses handed out from the front, with padding
where an allocation asks for alignment. Addresses have 64 bits.
-/

set_option autoImplicit false

namespace AssemblyLexer

structure Arena where
  /-- The address where the arena starts. -/
  base : Nat
  capacity : Nat
  used : Nat
  used_le : used ≤ capacity

namespace Arena

def ofCapacity (base capacity : Nat) : Arena :=
  ⟨base, capacity, 0, Nat.zero_le capacity⟩

def remaining (a : Arena) : Nat :=
  a.capacity - a.used

def isPowerOfTwo (n : Nat) : Bool :=
  n != 0 && n &&& (n - 1) == 0

/-- The distance from an address to the next multiple of the alignment. -/
def padding (address alignment : Nat) : Nat :=
  (alignment - address % alignment) % alignment

/-- Hand out the next bytes as they come. -/
def claim (a : Arena) (size : Nat) (fits : size ≤ a.remaining) : Arena where
  base := a.base
  capacity := a.capacity
  used := a.used + size
  used_le := by
    have := a.used_le
    unfold remaining at fits
    omega

/-- The offset of the allocation and the arena after it. An allocation fails when the alignment is
no power of two, when rounding the address up would leave the address space, or when too little
is left. An arena without capacity has no address to give. -/
def allocate? (a : Arena) (size alignment : Nat) : Option (Nat × Arena) :=
  let address := a.base + a.used
  if isPowerOfTwo alignment && address + (alignment - 1) < UInt64.size && 0 < a.capacity then
    let gap := padding address alignment
    if fits : gap + size ≤ a.remaining then some (a.used + gap, a.claim (gap + size) fits)
    else none
  else none

end Arena

end AssemblyLexer
