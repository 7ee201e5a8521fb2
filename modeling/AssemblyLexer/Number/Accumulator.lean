/-!
A 64-bit accumulator for the digits of a number. The value wraps modulo 2^64
and a flag remembers for good that it did.
-/

set_option autoImplicit false

namespace AssemblyLexer

structure Accumulator where
  value : UInt64
  overflowed : Bool
  deriving DecidableEq, Repr

namespace Accumulator

def zero : Accumulator := ⟨0, false⟩

/-- Append one digit in the given base. -/
def push (a : Accumulator) (base digit : Nat) : Accumulator :=
  let total := a.value.toNat * base + digit
  ⟨UInt64.ofNat total, a.overflowed || decide (UInt64.size ≤ total)⟩

def ofDigits (base : Nat) (digits : List Nat) : Accumulator :=
  digits.foldl (fun a digit => a.push base digit) zero

end Accumulator

end AssemblyLexer
