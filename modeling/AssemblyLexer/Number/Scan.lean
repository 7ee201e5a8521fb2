import AssemblyLexer.Number.Accumulator
import AssemblyLexer.Number.Literal

/-!
Scanning a numeric literal. The scan takes every byte that could belong to a
name or a number as long as they come, so a malformed literal is taken whole.
A sign is taken directly after the letter `p` of an exponent and nowhere else.
-/

set_option autoImplicit false

namespace AssemblyLexer

/-- How far a numeric literal has come. -/
inductive NumberPhase
  | beforeDigits
  | integerDigits
  | beforeFraction
  | fractionDigits
  | exponentLetter
  | exponentSign
  | exponentDigits
  | malformed
  deriving DecidableEq, Repr

namespace NumberPhase

/-- Digits count for the significand or for the exponent. -/
def inExponent : NumberPhase → Bool
  | exponentLetter | exponentSign | exponentDigits => true
  | _ => false

/-- The input may not stop here. -/
def isUnfinished : NumberPhase → Bool
  | exponentLetter | exponentSign | malformed => true
  | _ => false

end NumberPhase

/-- What a byte means inside a numeric literal. -/
inductive NumberSymbol
  | digit (value : Nat)
  | letter
  | separator
  | point
  | exponent
  | plus
  | minus
  | outside
  deriving DecidableEq, Repr

/-- A digit too large for the base is a letter. -/
def NumberSymbol.ofByte (base : Nat) (b : Byte) : NumberSymbol :=
  match b.digitValue? with
  | some value => if value < base then digit value else letter
  | none =>
    if b == 0x50 || b == 0x70 then exponent
    else if b == Byte.underscore then separator
    else if b == Byte.dot then point
    else if b == Byte.plus then plus
    else if b == Byte.minus then minus
    else if b.isLetter || b.isHigh then letter
    else outside

structure NumberProgress where
  phase : NumberPhase
  significand : Accumulator
  digits : UInt32
  precision : UInt32
  exponent : Accumulator
  exponentNegative : Bool

namespace NumberProgress

def initial : NumberProgress where
  phase := .beforeDigits
  significand := .zero
  digits := 0
  precision := 0
  exponent := .zero
  exponentNegative := false

def integerDigit (p : NumberProgress) (base value : Nat) : NumberProgress :=
  { p with
    phase := .integerDigits
    significand := p.significand.push base value
    digits := p.digits + 1 }

def fractionDigit (p : NumberProgress) (base value : Nat) : NumberProgress :=
  { p with
    phase := .fractionDigits
    significand := p.significand.push base value
    digits := p.digits + 1
    precision := p.precision + 1 }

def exponentDigit (p : NumberProgress) (value : Nat) : NumberProgress :=
  { p with phase := .exponentDigits, exponent := p.exponent.push 10 value }

def moveTo (p : NumberProgress) (phase : NumberPhase) : NumberProgress :=
  { p with phase := phase }

/-- Take one symbol, or none when the literal ends before it. -/
def take? (p : NumberProgress) (base : Nat) (symbol : NumberSymbol) : Option NumberProgress :=
  match p.phase, symbol with
  | _, .outside => none
  | _, .separator => some p
  | .malformed, .plus | .malformed, .minus => none
  | .malformed, _ => some p
  | _, .letter => some (p.moveTo .malformed)
  | .beforeDigits, .digit value | .integerDigits, .digit value =>
    some (p.integerDigit base value)
  | .beforeDigits, .point | .integerDigits, .point => some (p.moveTo .beforeFraction)
  | .beforeDigits, .exponent => some (p.moveTo .malformed)
  | .beforeFraction, .digit value | .fractionDigits, .digit value =>
    some (p.fractionDigit base value)
  | .integerDigits, .exponent | .beforeFraction, .exponent | .fractionDigits, .exponent =>
    some (p.moveTo .exponentLetter)
  | .exponentLetter, .plus => some (p.moveTo .exponentSign)
  | .exponentLetter, .minus => some { p with phase := .exponentSign, exponentNegative := true }
  | .exponentLetter, .digit value | .exponentSign, .digit value | .exponentDigits, .digit value =>
    some (p.exponentDigit value)
  | _, .plus | _, .minus => none
  | _, .point | _, .exponent => some (p.moveTo .malformed)

/-- The exponent digits are decimal in every base. -/
def step? (radix : Radix) (p : NumberProgress) (b : Byte) : Option NumberProgress :=
  let base := if p.phase.inExponent then 10 else radix.value
  p.take? base (NumberSymbol.ofByte base b)

/-- The state where the literal ends and the number of bytes it takes, counted from the given
number. -/
def run (radix : Radix) : NumberProgress → Nat → Bytes → NumberProgress × Nat
  | p, taken, [] => (p, taken)
  | p, taken, b :: rest =>
    match p.step? radix b with
    | some next => run radix next (taken + 1) rest
    | none => (p, taken)

/-- The signed exponent, when it fits 64 bits. -/
def exponent? (p : NumberProgress) : Option Int64 :=
  let magnitude : Int := p.exponent.value.toNat
  let e := if p.exponentNegative then -magnitude else magnitude
  if Int64.minValue.toInt ≤ e ∧ e ≤ Int64.maxValue.toInt then some (Int64.ofInt e) else none

end NumberProgress

inductive NumberStatus
  | integer
  | float
  | noDigits
  | overflow
  | exponentOverflow
  | malformed
  deriving DecidableEq, Repr

namespace NumberProgress

/-- The first of these that applies is the outcome. -/
def status (p : NumberProgress) : NumberStatus :=
  if p.phase.isUnfinished then .malformed
  else if p.digits = 0 then .noDigits
  else if p.significand.overflowed then .overflow
  else if p.exponent.overflowed || p.exponent?.isNone then .exponentOverflow
  else
    match p.phase with
    | .beforeDigits | .integerDigits => .integer
    | _ => .float

def literal (radix : Radix) (p : NumberProgress) : NumberLiteral where
  radix := radix
  significand := p.significand.value
  digits := p.digits
  precision := p.precision
  exponent := p.exponent?.getD 0

end NumberProgress

structure NumberScan where
  status : NumberStatus
  literal : NumberLiteral
  /-- The number of bytes that the literal takes. -/
  length : Nat

def NumberScan.scan (radix : Radix) (bytes : Bytes) : NumberScan :=
  let (p, length) := NumberProgress.initial.run radix 0 bytes
  { status := p.status, literal := p.literal radix, length := length }

def NumberScan.isNumber (s : NumberScan) : Bool :=
  s.status = .integer || s.status = .float

theorem NumberProgress.run_taken (radix : Radix) (p : NumberProgress) (taken : Nat)
    (bytes : Bytes) :
    taken ≤ (p.run radix taken bytes).2 ∧
      (p.run radix taken bytes).2 ≤ taken + bytes.length := by
  fun_induction NumberProgress.run radix p taken bytes with
  | case1 => simp
  | case2 p taken b rest next step ih =>
    simp only [List.length_cons]
    omega
  | case3 => simp

theorem NumberScan.length_le (radix : Radix) (bytes : Bytes) :
    (NumberScan.scan radix bytes).length ≤ bytes.length := by
  have bounds := NumberProgress.initial.run_taken radix 0 bytes
  simp only [NumberScan.scan]
  omega

end AssemblyLexer
