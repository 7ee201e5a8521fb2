import AssemblyLexer.Text.Byte

/-!
Natural numbers written in decimal and in upper-case hexadecimal.
-/

set_option autoImplicit false

namespace AssemblyLexer.Numeral

def write (base n : Nat) : Bytes :=
  (Nat.toDigits base n).map fun c => c.toUpper.toUInt8

def decimal (n : Nat) : Bytes :=
  write 10 n

def hexadecimal (n : Nat) : Bytes :=
  write 16 n

/-- A numeral with leading zeros up to the given width. -/
def padded (width : Nat) (numeral : Bytes) : Bytes :=
  List.replicate (width - numeral.length) 0x30 ++ numeral

end AssemblyLexer.Numeral
