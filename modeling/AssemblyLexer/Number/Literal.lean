import AssemblyLexer.Number.Binary64
import AssemblyLexer.Number.Radix

/-!
The value of a numeric literal: digits of a base with an optional fraction, and
a power of two. Nothing is lost to rounding until the number is asked for in
double precision.
-/

set_option autoImplicit false

namespace AssemblyLexer

structure NumberLiteral where
  radix : Radix
  /-- All digits as one integer, modulo 2^64. -/
  significand : UInt64
  /-- The count of digits, the fraction included. -/
  digits : UInt32
  /-- The count of digits after the point. -/
  precision : UInt32
  /-- The power of two, or zero when it does not fit. -/
  exponent : Int64
  deriving DecidableEq

namespace NumberLiteral

/-- Beyond this power of two every number has long become zero or infinite. -/
def exponentLimit : Int := 0x100000

/-- The significand and the weight of the last place are each rounded first, then their product,
then the product times the power of two. -/
def toBinary64 (l : NumberLiteral) : Binary64 :=
  let weight := Binary64.reciprocalPower l.radix.value l.precision.toNat
  let power := max (-exponentLimit) (min exponentLimit l.exponent.toInt)
  ((Binary64.ofNat l.significand.toNat).mul weight).scaled power

end NumberLiteral

end AssemblyLexer
