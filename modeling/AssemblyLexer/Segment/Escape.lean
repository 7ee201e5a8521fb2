import AssemblyLexer.Fault

/-!
Escape sequences in quoted literals. A backslash is followed by a quote or a
backslash, by a letter or the digit zero for a control character, by `x` and two
hexadecimal digits, or by `u` and hexadecimal digits in braces. The last two
give the code of a character. What is done about a byte depends on what it means
in an escape and on how far the escape has come.
-/

set_option autoImplicit false

namespace AssemblyLexer

/-- What a byte means in an escape. -/
inductive EscapeSymbol
  | digit
  | upperHex
  /-- A letter that is no digit, other than those below. -/
  | upperLetter
  | lowerHex
  | lowerLetter
  | letterU
  | letterX
  /-- A quote or a backslash. -/
  | itself
  | openBrace
  | closeBrace
  | lineBreak
  | other
  deriving DecidableEq, Repr

namespace EscapeSymbol

def ofByte (b : Byte) : EscapeSymbol :=
  if b.isDecimalDigit then digit
  else if b == 0x55 || b == 0x75 then letterU
  else if b == 0x58 || b == 0x78 then letterX
  else if 0x41 ≤ b && b ≤ 0x46 then upperHex
  else if 0x61 ≤ b && b ≤ 0x66 then lowerHex
  else if 0x41 ≤ b && b ≤ 0x5A then upperLetter
  else if 0x61 ≤ b && b ≤ 0x7A then lowerLetter
  else if b == Byte.doubleQuote || b == Byte.apostrophe || b == Byte.backslash then itself
  else if b == Byte.openBrace then openBrace
  else if b == Byte.closeBrace then closeBrace
  else if b.isLineBreak then lineBreak
  else other

/-- What is subtracted from a digit or a letter for its value. Letters go on behind the digits. -/
def basis : EscapeSymbol → Byte
  | digit => 0x30
  | upperHex | upperLetter => 0x41 - 10
  | lowerHex | lowerLetter => 0x61 - 10
  | _ => 0

end EscapeSymbol

/-- How far an escape has come. -/
inductive EscapePhase
  | start
  | afterX
  /-- Behind `x` and one digit. -/
  | afterDigit
  | afterU
  | afterBrace
  /-- Behind `u`, the brace and at least one digit. -/
  | digits
  deriving DecidableEq, Repr

inductive EscapeAction
  /-- Take the byte and go on. -/
  | proceed (next : EscapePhase)
  /-- Take the byte, which stands for itself. -/
  | verbatim
  /-- Take the byte, which stands for another one. -/
  | simple
  /-- Take the byte, which is the last of a code. -/
  | numeric
  /-- Take the byte, which no escape starts with. -/
  | unknown
  /-- Leave the byte, which no escape goes on with. -/
  | invalid
  deriving DecidableEq, Repr

structure EscapeTransition where
  /-- The byte is a digit of the code. -/
  isDigit : Bool
  action : EscapeAction
  deriving DecidableEq, Repr

def EscapePhase.transition (phase : EscapePhase) (symbol : EscapeSymbol) : EscapeTransition :=
  match phase, symbol with
  | .start, .digit | .start, .upperHex | .start, .upperLetter | .start, .lowerHex
  | .start, .lowerLetter => ⟨false, .simple⟩
  | .start, .letterX => ⟨false, .proceed .afterX⟩
  | .start, .letterU => ⟨false, .proceed .afterU⟩
  | .start, .itself => ⟨false, .verbatim⟩
  | .start, .lineBreak => ⟨false, .invalid⟩
  | .start, _ => ⟨false, .unknown⟩
  | .afterX, .digit | .afterX, .upperHex | .afterX, .lowerHex => ⟨true, .proceed .afterDigit⟩
  | .afterDigit, .digit | .afterDigit, .upperHex | .afterDigit, .lowerHex => ⟨true, .numeric⟩
  | .afterU, .openBrace => ⟨false, .proceed .afterBrace⟩
  | .afterBrace, .digit | .afterBrace, .upperHex | .afterBrace, .lowerHex
  | .digits, .digit | .digits, .upperHex | .digits, .lowerHex => ⟨true, .proceed .digits⟩
  | .digits, .closeBrace => ⟨false, .numeric⟩
  | _, _ => ⟨false, .invalid⟩

/-- A code of 32 bits. It wraps, and a flag remembers for good that it did. -/
structure EscapeCode where
  value : UInt32
  overflowed : Bool
  deriving DecidableEq, Repr

namespace EscapeCode

def zero : EscapeCode := ⟨0, false⟩

/-- Append one hexadecimal digit. Either step may overflow. -/
def push (c : EscapeCode) (digit : Byte) : EscapeCode where
  value := c.value * 16 + digit.toUInt32
  overflowed := c.overflowed || UInt32.size ≤ c.value.toNat * 16 ||
    UInt32.size ≤ (c.value * 16).toNat + digit.toNat

/-- The bytes of the character that has the code. -/
def bytes? (c : EscapeCode) : Option Bytes :=
  if c.overflowed then none
  else
    match Utf8.append [] c.value with
    | (true, bytes) => some bytes
    | (false, _) => none

end EscapeCode

structure Escape where
  /-- The number of bytes taken after the backslash. -/
  length : Nat
  /-- The bytes meant, or a finding at a distance from the byte after the backslash. -/
  outcome : Except Finding Bytes

namespace Escape

/-- What the digits and letters stand for, by their values. Zero is for those that stand for nothing,
other than the digit zero. -/
def meanings : List Byte :=
  [0x00, 0, 0, 0, 0, 0, 0, 0, 0, 0,
    -- a to m
    0x07, 0x08, 0, 0x7F, 0x1B, 0x0C, 0, 0, 0, 0, 0, 0, 0,
    -- n to z
    0x0A, 0, 0, 0, 0x0D, 0x20, 0x09, 0, 0x0B, 0, 0, 0, 0]

/-- The byte that a digit or letter stands for, given its value. -/
def simple? (key : Byte) : Option Byte :=
  if key = 0 then some 0
  else
    match meanings[key.toNat]? with
    | some meant => if meant = 0 then none else some meant
    | none => none

def failed (length offset : Nat) (fault : Fault) : Escape :=
  ⟨length, .error ⟨offset, fault⟩⟩

/-- Scan on in an escape that has come so far. -/
def run (phase : EscapePhase) (code : EscapeCode) (taken : Nat) : Bytes → Escape
  | [] => failed taken taken .incompleteEscape
  | b :: rest =>
    let symbol := EscapeSymbol.ofByte b
    let transition := phase.transition symbol
    let key := b - symbol.basis
    let code := if transition.isDigit then code.push key else code
    match transition.action with
    | .proceed next => run next code (taken + 1) rest
    | .verbatim => ⟨taken + 1, .ok [b]⟩
    | .simple =>
      match simple? key with
      | some meant => ⟨taken + 1, .ok [meant]⟩
      | none => failed (taken + 1) taken .unknownEscape
    | .numeric =>
      match code.bytes? with
      | some bytes => ⟨taken + 1, .ok bytes⟩
      | none => failed (taken + 1) (taken + 1) .invalidEscape
    | .unknown => failed (taken + 1) taken .unknownEscape
    | .invalid => failed taken taken .invalidEscape

/-- Scan what follows a backslash. -/
def scan (bytes : Bytes) : Escape :=
  run .start .zero 0 bytes

theorem run_length_le (phase : EscapePhase) (code : EscapeCode) (taken : Nat) (bytes : Bytes) :
    (run phase code taken bytes).length ≤ taken + bytes.length := by
  fun_induction run phase code taken bytes with
  | case2 _ _ _ _ _ _ _ _ _ _ _ ih =>
    rw [List.length_cons]
    omega
  | _ =>
    simp only [failed, List.length_cons]
    omega

/-- An escape takes bytes that are there. -/
theorem scan_length_le (bytes : Bytes) : (scan bytes).length ≤ bytes.length := by
  simpa only [scan, Nat.zero_add] using run_length_le .start .zero 0 bytes

end Escape

end AssemblyLexer
