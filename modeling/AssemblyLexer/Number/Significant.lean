import AssemblyLexer.Number.Binary64
import AssemblyLexer.Text.Numeral

/-!
A floating-point number written with a fixed count of significant digits. The
digits are those of the exact value, rounded once with ties to even; zeros at
the end of a fraction are dropped.
-/

set_option autoImplicit false

namespace AssemblyLexer

/-- Which numbers are written positionally, and how the others are. -/
structure SignificantFormat where
  /-- The count of significant digits. -/
  digits : Nat
  /-- The least decimal exponent of a number that is written positionally. -/
  lowest : Int
  /-- The least count of digits in a written exponent. -/
  exponentWidth : Nat

/-- A significand with a fixed count of digits, the first standing for the power of ten given by
the exponent. -/
structure Scientific where
  significand : Nat
  exponent : Int
  deriving DecidableEq, Repr

namespace Scientific

/-- The exponent of the highest power of ten that does not exceed the quotient of two positive
numbers. -/
def leadingExponent (numerator denominator : Nat) : Int :=
  if denominator ≤ numerator then
    ((Nat.toDigits 10 (numerator / denominator)).length : Int) - 1
  else
    -((Nat.toDigits 10 ((denominator - 1) / numerator)).length : Int)

def ofQuotient (digits numerator denominator : Nat) : Scientific :=
  let leading := leadingExponent numerator denominator
  let shift : Int := digits - 1 - leading
  let significand :=
    roundedQuotient (numerator * Nat.pow 10 shift.toNat) (denominator * Nat.pow 10 (-shift).toNat)
  if significand < Nat.pow 10 digits then ⟨significand, leading⟩
  else ⟨Nat.pow 10 (digits - 1), leading + 1⟩

end Scientific

namespace SignificantFormat

/-- A fraction without the zeros at its end, behind its point unless nothing is left. -/
def fraction (digits : Bytes) : Bytes :=
  match (digits.reverse.dropWhile (· == 0x30)).reverse with
  | [] => []
  | kept => Byte.dot :: kept

def exponent (format : SignificantFormat) (e : Int) : Bytes :=
  0x65 :: (if e < 0 then Byte.minus else Byte.plus) ::
    Numeral.padded format.exponentWidth (Numeral.decimal e.natAbs)

def renderScientific (format : SignificantFormat) (s : Scientific) : Bytes :=
  let digits := Numeral.decimal s.significand
  if s.exponent < format.lowest ∨ format.digits ≤ s.exponent then
    digits.take 1 ++ fraction (digits.drop 1) ++ format.exponent s.exponent
  else if s.exponent < 0 then
    0x30 :: fraction (List.replicate (-s.exponent - 1).toNat 0x30 ++ digits)
  else
    digits.take (s.exponent.toNat + 1) ++ fraction (digits.drop (s.exponent.toNat + 1))

def render (format : SignificantFormat) : Binary64 → Bytes
  | .infinite => [0x69, 0x6E, 0x66]
  | .finite 0 _ => [0x30]
  | .finite m e =>
    format.renderScientific
      (Scientific.ofQuotient format.digits (m <<< e.toNat) (1 <<< (-e).toNat))

end SignificantFormat

end AssemblyLexer
