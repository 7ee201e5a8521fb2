/-!
Non-negative numbers in IEEE 754 double precision, computed in exact integer
arithmetic. Every operation rounds once, to the nearest representable number
and to the even significand at a tie.
-/

set_option autoImplicit false

namespace AssemblyLexer

/-- The quotient rounded to the nearest natural number, ties to even. -/
def roundedQuotient (numerator denominator : Nat) : Nat :=
  let quotient := numerator / denominator
  let twice := 2 * (numerator % denominator)
  if twice < denominator then quotient
  else if denominator < twice then quotient + 1
  else quotient + quotient % 2

/-- A significand below 2^53 at a power of two, or infinity. -/
inductive Binary64
  | finite (significand : Nat) (exponent : Int)
  | infinite
  deriving DecidableEq, Repr

namespace Binary64

/-- The exponent of the last place of the smallest numbers. -/
def leastExponent : Int := -1074

/-- The leading bit of a normal significand, 2^52. -/
def leadingBit : Nat := 0x10000000000000

def zero : Binary64 := finite 0 leastExponent

/-- The exponent of the highest power of two that does not exceed the quotient of two positive
numbers. -/
def leadingExponent (numerator denominator : Nat) : Int :=
  let estimate : Int := (numerator.log2 : Int) - denominator.log2
  if denominator <<< estimate.toNat ≤ numerator <<< (-estimate).toNat then estimate
  else estimate - 1

/-- The number nearest to a quotient times a power of two. -/
def ofQuotient (numerator denominator : Nat) (scale : Int) : Binary64 :=
  if numerator = 0 then zero
  else
    let leading := leadingExponent numerator denominator + scale
    if 1024 ≤ leading then infinite
    else
      let last := max (leading - 52) leastExponent
      let shift := scale - last
      let significand :=
        roundedQuotient (numerator <<< shift.toNat) (denominator <<< (-shift).toNat)
      if significand < 2 * leadingBit then finite significand last
      else if last + 53 < 1024 then finite leadingBit (last + 1)
      else infinite

def ofNat (n : Nat) : Binary64 :=
  ofQuotient n 1 0

/-- A base to the power of a negated natural number. -/
def reciprocalPower (base exponent : Nat) : Binary64 :=
  ofQuotient 1 (Nat.pow base exponent) 0

def mul : Binary64 → Binary64 → Binary64
  | finite m e, finite n f => ofQuotient (m * n) 1 (e + f)
  | _, _ => infinite

/-- A number times a power of two. -/
def scaled : Binary64 → Int → Binary64
  | finite m e, power => ofQuotient m 1 (e + power)
  | infinite, _ => infinite

/-- The interchange format. The leading bit of a normal significand is not stored but carries
into the exponent field, which a subnormal number leaves at zero. -/
def toBits : Binary64 → UInt64
  | finite m e => UInt64.ofNat ((e - leastExponent).toNat * leadingBit + m)
  | infinite => 0x7FF0000000000000

end Binary64

end AssemblyLexer
