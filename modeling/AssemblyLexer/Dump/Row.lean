import AssemblyLexer.Lexer
import AssemblyLexer.Number.Significant
import AssemblyLexer.Recording.Replay
import AssemblyLexer.Text.Printable

/-!
The rows of a token table.
-/

set_option autoImplicit false

namespace AssemblyLexer

structure Row where
  line : UInt32
  offset : UInt64
  length : UInt64
  kind : TokenKind
  value : Bytes
  text : Bytes
  deriving DecidableEq

namespace Row

/-- Numbers in double precision have six significant digits, positional from 0.0001 up to below
a million, and an exponent of at least two digits. -/
def floatFormat : SignificantFormat := ⟨6, -4, 2⟩

/-- What a token stands for, as a text. -/
def valueOf : Token → Bytes
  | .identifier name => name
  | .label name scope =>
    name ++ [Byte.space, 0x28] ++ Utf8.ofString scope.spelling ++ [0x29]
  | .parameter name => name
  | .integer literal => Numeral.decimal literal.significand.toNat
  | .float literal => floatFormat.render literal.toBinary64
  | .string content => Printable.ofBytes content
  | .character c _ =>
    [0x55, 0x2B] ++ Numeral.padded 4 (Numeral.hexadecimal c.toNat)
  | .symbol _ => []

def ofScanned (s : Scanned) : Row where
  line := s.place.location.line
  offset := UInt64.ofNat s.place.span.start
  length := UInt64.ofNat s.place.span.length
  kind := s.token.kind
  value := valueOf s.token
  text := s.place.text

/-- A recording knows no values, so the text stands for the value. -/
def ofRecorded (source : Array Byte) (t : RecordedToken) : Row :=
  let text := (source.extract t.start.toNat t.stop.toNat).toList
  { line := t.line
    offset := t.start
    length := t.stop - t.start
    kind := t.kind
    value := Printable.ofBytes text
    text := text }

end Row

/-- A token as it goes into a recording. -/
def Scanned.recorded (s : Scanned) : RecordedToken where
  kind := s.token.kind
  line := s.place.location.line
  start := UInt64.ofNat s.place.span.start
  stop := UInt64.ofNat s.place.span.stop

end AssemblyLexer
