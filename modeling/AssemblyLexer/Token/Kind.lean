import AssemblyLexer.Text.Byte

/-!
The catalogue of token kinds. The order is fixed: a kind's place in it is the
number that recordings store.
-/

set_option autoImplicit false

namespace AssemblyLexer

inductive TokenKind
  | identifier
  | label
  | parameter
  | integer
  | float
  | string
  | character
  | aliasMark
  | complement
  | logicalNot
  | increment
  | decrement
  | multiply
  | unsignedMultiply
  | divide
  | unsignedDivide
  | remainder
  | unsignedRemainder
  | add
  | subtract
  | shiftLeft
  | shiftRight
  | unsignedShiftRight
  | bitAnd
  | bitXor
  | bitOr
  | equal
  | notEqual
  | less
  | unsignedLess
  | greater
  | unsignedGreater
  | lessEqual
  | unsignedLessEqual
  | greaterEqual
  | unsignedGreaterEqual
  | unknown
  | logicalAnd
  | logicalXor
  | logicalOr
  | assign
  | multiplyAssign
  | unsignedMultiplyAssign
  | divideAssign
  | unsignedDivideAssign
  | remainderAssign
  | unsignedRemainderAssign
  | addAssign
  | subtractAssign
  | shiftLeftAssign
  | shiftRightAssign
  | unsignedShiftRightAssign
  | bitAndAssign
  | bitXorAssign
  | bitOrAssign
  | logicalAndAssign
  | logicalXorAssign
  | logicalOrAssign
  | openBrace
  | closeBrace
  | openParenthesis
  | closeParenthesis
  | openBracket
  | closeBracket
  | colon
  | signed
  | unsigned
  | exported
  | weak
  | comma
  | endOfStatement
  | endOfSource
  deriving DecidableEq, Repr

namespace TokenKind

def spelling : TokenKind → String
  | identifier => "ident"
  | label => "label"
  | parameter => "param"
  | integer => "int"
  | float => "float"
  | string => "str"
  | character => "char"
  | aliasMark => "@"
  | complement => "~"
  | logicalNot => "!"
  | increment => "++"
  | decrement => "--"
  | multiply => "*"
  | unsignedMultiply => "+*"
  | divide => "/"
  | unsignedDivide => "+/"
  | remainder => "%"
  | unsignedRemainder => "+%"
  | add => "+"
  | subtract => "-"
  | shiftLeft => "<<"
  | shiftRight => ">>"
  | unsignedShiftRight => "+>>"
  | bitAnd => "&"
  | bitXor => "^"
  | bitOr => "|"
  | equal => "=="
  | notEqual => "!="
  | less => "<"
  | unsignedLess => "+<"
  | greater => ">"
  | unsignedGreater => "+>"
  | lessEqual => "<="
  | unsignedLessEqual => "+<="
  | greaterEqual => ">="
  | unsignedGreaterEqual => "+>="
  | unknown => "?"
  | logicalAnd => "&&"
  | logicalXor => "^^"
  | logicalOr => "||"
  | assign => "="
  | multiplyAssign => "*="
  | unsignedMultiplyAssign => "+*="
  | divideAssign => "/="
  | unsignedDivideAssign => "+/="
  | remainderAssign => "%="
  | unsignedRemainderAssign => "+%="
  | addAssign => "+="
  | subtractAssign => "-="
  | shiftLeftAssign => "<<="
  | shiftRightAssign => ">>="
  | unsignedShiftRightAssign => "+>>="
  | bitAndAssign => "&="
  | bitXorAssign => "^="
  | bitOrAssign => "|="
  | logicalAndAssign => "&&="
  | logicalXorAssign => "^^="
  | logicalOrAssign => "||="
  | openBrace => "\x7b"
  | closeBrace => "\x7d"
  | openParenthesis => "("
  | closeParenthesis => ")"
  | openBracket => "["
  | closeBracket => "]"
  | colon => ":"
  | signed => "+:"
  | unsigned => "%:"
  | exported => "::"
  | weak => ":?"
  | comma => ","
  | endOfStatement => "EOS"
  | endOfSource => "EOF"

/-- Every kind once, in catalogue order. -/
def catalogue : List TokenKind :=
  [identifier, label, parameter, integer, float, string, character,
    aliasMark, complement, logicalNot, increment, decrement,
    multiply, unsignedMultiply, divide, unsignedDivide, remainder, unsignedRemainder,
    add, subtract, shiftLeft, shiftRight, unsignedShiftRight, bitAnd, bitXor, bitOr,
    equal, notEqual, less, unsignedLess, greater, unsignedGreater,
    lessEqual, unsignedLessEqual, greaterEqual, unsignedGreaterEqual, unknown,
    logicalAnd, logicalXor, logicalOr,
    assign, multiplyAssign, unsignedMultiplyAssign, divideAssign, unsignedDivideAssign,
    remainderAssign, unsignedRemainderAssign, addAssign, subtractAssign,
    shiftLeftAssign, shiftRightAssign, unsignedShiftRightAssign,
    bitAndAssign, bitXorAssign, bitOrAssign,
    logicalAndAssign, logicalXorAssign, logicalOrAssign,
    openBrace, closeBrace, openParenthesis, closeParenthesis, openBracket, closeBracket,
    colon, signed, unsigned, exported, weak, comma,
    endOfStatement, endOfSource]

/-- The place of a kind in the catalogue. -/
def ordinal (kind : TokenKind) : Byte :=
  UInt8.ofNat kind.ctorIdx

def ofOrdinal? (ordinal : Byte) : Option TokenKind :=
  catalogue[ordinal.toNat]?

theorem ofOrdinal?_ordinal (kind : TokenKind) : ofOrdinal? kind.ordinal = some kind := by
  cases kind <;> rfl

/-- The unsigned form of an operator, and the parameter form of an identifier. Other kinds have
none and stand for themselves. -/
def variant : TokenKind → TokenKind
  | identifier => parameter
  | less => unsignedLess
  | greater => unsignedGreater
  | lessEqual => unsignedLessEqual
  | greaterEqual => unsignedGreaterEqual
  | shiftRight => unsignedShiftRight
  | shiftRightAssign => unsignedShiftRightAssign
  | multiply => unsignedMultiply
  | multiplyAssign => unsignedMultiplyAssign
  | divide => unsignedDivide
  | divideAssign => unsignedDivideAssign
  | remainder => unsignedRemainder
  | remainderAssign => unsignedRemainderAssign
  | kind => kind

/-- An odd number selects the variant, an even one the kind itself. -/
def select (kind : TokenKind) (n : Nat) : TokenKind :=
  if n % 2 = 0 then kind else kind.variant

/-- The end of the source also ends the statement before it. -/
def endsStatement (kind : TokenKind) : Bool :=
  kind = endOfStatement || kind = endOfSource

end TokenKind

end AssemblyLexer
