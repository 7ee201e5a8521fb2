import AssemblyLexer.Text.Byte

/-!
The four bases of a number and the letters that select them.
-/

set_option autoImplicit false

namespace AssemblyLexer

inductive Radix
  | binary
  | octal
  | decimal
  | hexadecimal
  deriving DecidableEq, Repr

namespace Radix

def value : Radix → Nat
  | binary => 2
  | octal => 8
  | decimal => 10
  | hexadecimal => 16

/-- The base named by a literal's specifier, a single letter in either case. -/
def ofSpecifier? : Bytes → Option Radix
  | [letter] =>
    match Char.ofUInt8 letter with
    | 'b' | 'B' => some binary
    | 'o' | 'O' => some octal
    | 'd' | 'D' => some decimal
    | 'x' | 'X' => some hexadecimal
    | _ => none
  | _ => none

end Radix

end AssemblyLexer
