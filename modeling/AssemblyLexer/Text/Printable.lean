import AssemblyLexer.Text.Numeral

/-!
Text that fits into a cell of a table: control bytes are written as escapes and
every cell has one width, counted in bytes.
-/

set_option autoImplicit false

namespace AssemblyLexer

/-- A control byte or the delete byte. -/
def Byte.isControl (b : Byte) : Bool :=
  b < 0x20 || b == 0x7F

namespace Printable

def escape (b : Byte) : Bytes :=
  match Char.ofUInt8 b with
  | '\n' => [Byte.backslash, 0x6E]
  | '\r' => [Byte.backslash, 0x72]
  | '\t' => [Byte.backslash, 0x74]
  | _ =>
    if b.isControl then
      [Byte.backslash, 0x78] ++ Numeral.padded 2 (Numeral.hexadecimal b.toNat)
    else [b]

def ofBytes (bytes : Bytes) : Bytes :=
  bytes.flatMap escape

def padLeft (width : Nat) (text : Bytes) : Bytes :=
  List.replicate (width - text.length) Byte.space ++ text

def padRight (width : Nat) (text : Bytes) : Bytes :=
  text ++ List.replicate (width - text.length) Byte.space

/-- Cut and padded to the width. -/
def fit (width : Nat) (text : Bytes) : Bytes :=
  padRight width (text.take width)

end Printable

end AssemblyLexer
