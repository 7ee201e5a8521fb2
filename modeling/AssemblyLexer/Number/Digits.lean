import AssemblyLexer.Number.Accumulator
import AssemblyLexer.Number.Radix

/-!
A plain run of digits. Underscores may stand anywhere in the run and count for
nothing.
-/

set_option autoImplicit false

namespace AssemblyLexer

/-- The value of a byte that is a digit of the given base. -/
def Radix.digit? (radix : Radix) (b : Byte) : Option Nat :=
  b.digitValue?.filter (· < radix.value)

structure DigitRun where
  /-- The value of the digits modulo 2^64. -/
  value : UInt64
  /-- The number of digits modulo 256, or zero when the value does not fit 64 bits. -/
  count : UInt8
  /-- The number of bytes that the run takes. -/
  length : Nat
  deriving DecidableEq, Repr

def DigitRun.scan (radix : Radix) (bytes : Bytes) : DigitRun :=
  let run := bytes.takeWhile fun b => (radix.digit? b).isSome || b == Byte.underscore
  let digits := run.filterMap radix.digit?
  let total := Accumulator.ofDigits radix.value digits
  { value := total.value
    count := if total.overflowed then 0 else UInt8.ofNat digits.length
    length := run.length }

/-- What has been made of a run so far. -/
structure DigitProgress where
  total : Accumulator
  /-- The number of digits modulo 256. -/
  count : UInt8

namespace DigitProgress

def initial : DigitProgress := ⟨.zero, 0⟩

/-- Take one byte, or none when the run ends before it. -/
def step? (radix : Radix) (p : DigitProgress) (b : Byte) : Option DigitProgress :=
  match radix.digit? b with
  | some value => some ⟨p.total.push radix.value value, p.count + 1⟩
  | none => if b = Byte.underscore then some p else none

/-- The progress where the run ends and the number of bytes that it takes, counted from the given
number. -/
def run (radix : Radix) : DigitProgress → Nat → Bytes → DigitProgress × Nat
  | p, taken, [] => (p, taken)
  | p, taken, b :: rest =>
    match p.step? radix b with
    | some next => run radix next (taken + 1) rest
    | none => (p, taken)

def result (p : DigitProgress) (length : Nat) : DigitRun where
  value := p.total.value
  count := if p.total.overflowed then 0 else p.count
  length := length

end DigitProgress

end AssemblyLexer
