import AssemblyLexer.Text.Utf8

/-!
What can be wrong with a source text, with the wording of each fault.
-/

set_option autoImplicit false

namespace AssemblyLexer

inductive Fault
  | unexpectedCharacter
  | strayBackslash
  | unknownEscape
  | invalidEscape
  | incompleteEscape
  | unterminatedLiteral
  | emptyCharacter
  | characterNotUtf8
  | characterTooLong
  | numericOverflow
  | malformedNumber
  | numberWithoutDigits
  | invalidSpecifier (specifier : Bytes)
  | emptyParameter
  deriving DecidableEq, Repr

def Fault.message : Fault → Bytes
  | unexpectedCharacter => Utf8.ofString "unexpected character"
  | strayBackslash => Utf8.ofString "expected line break after '\\'"
  | unknownEscape => Utf8.ofString "unknown escape sequence"
  | invalidEscape => Utf8.ofString "invalid escape sequence"
  | incompleteEscape => Utf8.ofString "incomplete escape sequence"
  | unterminatedLiteral => Utf8.ofString "unterminated string or character literal"
  | emptyCharacter => Utf8.ofString "empty character literal"
  | characterNotUtf8 => Utf8.ofString "character literal is not valid UTF-8"
  | characterTooLong => Utf8.ofString "character literal contains more than one character"
  | numericOverflow => Utf8.ofString "numeric literal overflow"
  | malformedNumber => Utf8.ofString "invalid numeric literal"
  | numberWithoutDigits => Utf8.ofString "numeric literal has no digits"
  | invalidSpecifier specifier =>
    Utf8.ofString "invalid literal specifier '" ++ specifier ++ [Byte.apostrophe]
  | emptyParameter => Utf8.ofString "empty macro parameter"

/-- A fault at a distance from the first byte of what was being scanned. -/
structure Finding where
  offset : Nat
  fault : Fault
  deriving DecidableEq, Repr

end AssemblyLexer
