/-!
Bytes and the classes of bytes that the language distinguishes. Source text is
never decoded before it is scanned, so every class is a set of single bytes and
each byte from 0x80 upwards counts as part of a name.
-/

set_option autoImplicit false

namespace AssemblyLexer

abbrev Byte := UInt8

abbrev Bytes := List Byte

namespace Byte

abbrev lineFeed : Byte := 0x0A
abbrev carriageReturn : Byte := 0x0D
abbrev space : Byte := 0x20
abbrev doubleQuote : Byte := 0x22
abbrev hash : Byte := 0x23
abbrev dollar : Byte := 0x24
abbrev apostrophe : Byte := 0x27
abbrev plus : Byte := 0x2B
abbrev minus : Byte := 0x2D
abbrev dot : Byte := 0x2E
abbrev slash : Byte := 0x2F
abbrev colon : Byte := 0x3A
abbrev semicolon : Byte := 0x3B
abbrev question : Byte := 0x3F
abbrev backslash : Byte := 0x5C
abbrev underscore : Byte := 0x5F
abbrev openBrace : Byte := 0x7B
abbrev closeBrace : Byte := 0x7D

/-- A byte that starts or continues a line break. -/
def isLineBreak (b : Byte) : Bool :=
  b == lineFeed || b == carriageReturn

/-- Space, tab, vertical tab and form feed separate tokens. -/
def isBlank (b : Byte) : Bool :=
  b == space || b == 0x09 || b == 0x0B || b == 0x0C

def isDecimalDigit (b : Byte) : Bool :=
  0x30 ≤ b && b ≤ 0x39

def isLetter (b : Byte) : Bool :=
  (0x41 ≤ b && b ≤ 0x5A) || (0x61 ≤ b && b ≤ 0x7A)

/-- A byte outside ASCII. -/
def isHigh (b : Byte) : Bool :=
  0x80 ≤ b

def isNameStart (b : Byte) : Bool :=
  b.isLetter || b == dot || b == underscore || b.isHigh

def isNamePart (b : Byte) : Bool :=
  b.isNameStart || b.isDecimalDigit

/-- The value of a digit of base sixteen, letters in either case. -/
def digitValue? (b : Byte) : Option Nat :=
  if 0x30 ≤ b && b ≤ 0x39 then some (b.toNat - 0x30)
  else if 0x41 ≤ b && b ≤ 0x46 then some (b.toNat - 0x41 + 10)
  else if 0x61 ≤ b && b ≤ 0x66 then some (b.toNat - 0x61 + 10)
  else none

/-- What holds of each of the 256 bytes holds of all. -/
theorem forall_of_fin {motive : Byte → Prop} (all : ∀ i : Fin 256, motive (.ofFin i)) (b : Byte) :
    motive b :=
  all b.toFin

theorem isLineBreak_iff {b : Byte} : b.isLineBreak ↔ b = lineFeed ∨ b = carriageReturn := by
  rw [isLineBreak, Bool.or_eq_true, beq_iff_eq, beq_iff_eq]

theorem digitValue?_lt {b : Byte} {value : Nat} (digit : b.digitValue? = some value) :
    value < 16 := by
  unfold digitValue? at digit
  simp only [Bool.and_eq_true, decide_eq_true_eq, UInt8.le_iff_toNat_le] at digit
  simp at digit
  split at digit
  · simp at digit; omega
  · split at digit
    · simp at digit; omega
    · split at digit
      · simp at digit; omega
      · simp at digit

end Byte

end AssemblyLexer
