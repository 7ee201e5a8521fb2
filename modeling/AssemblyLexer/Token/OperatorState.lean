import AssemblyLexer.Token.Kind

/-!
The states of an operator that is read byte by byte. A state stands for an operator
that may end there, so that nothing has to be given back. What the plus sign before
an operator asks for is not in the state: it is kept as a number, and selects the
kind when the operator ends.
-/

set_option autoImplicit false

namespace AssemblyLexer

inductive OperatorState
  | equals
  | plus
  | minus
  | ampersand
  | doubleAmpersand
  | caret
  | doubleCaret
  | bar
  | doubleBar
  | less
  | doubleLess
  | greater
  | doubleGreater
  | exclamation
  | asterisk
  | slash
  | percent
  | colon
  deriving DecidableEq, Repr

/-- What a byte leads to. -/
inductive OperatorMove
  /-- Take the byte and go on, with the bits of the variant to be added. -/
  | go (next : OperatorState) (variant : Nat)
  /-- Take the byte, which is the last one. -/
  | produce (kind : TokenKind)
  /-- Leave the byte to what comes next. -/
  | yield (kind : TokenKind)
  deriving DecidableEq, Repr

namespace OperatorState

/-- The kind of the operator that ends in a state. -/
def pending : OperatorState → TokenKind
  | equals => .assign
  | plus => .add
  | minus => .subtract
  | ampersand => .bitAnd
  | doubleAmpersand => .logicalAnd
  | caret => .bitXor
  | doubleCaret => .logicalXor
  | bar => .bitOr
  | doubleBar => .logicalOr
  | less => .less
  | doubleLess => .shiftLeft
  | greater => .greater
  | doubleGreater => .shiftRight
  | exclamation => .logicalNot
  | asterisk => .multiply
  | slash => .divide
  | percent => .remainder
  | colon => .colon

/-- The bytes that an operator goes on with. -/
def moves : OperatorState → List (Char × OperatorMove)
  | equals => [('=', .produce .equal)]
  | plus =>
    [('=', .produce .addAssign), ('+', .produce .increment), (':', .produce .signed),
      ('<', .go less 1), ('>', .go greater 1), ('*', .go asterisk 1), ('/', .go slash 1),
      ('%', .go percent 1)]
  | minus => [('=', .produce .subtractAssign), ('-', .produce .decrement)]
  | ampersand => [('=', .produce .bitAndAssign), ('&', .go doubleAmpersand 0)]
  | doubleAmpersand => [('=', .produce .logicalAndAssign)]
  | caret => [('=', .produce .bitXorAssign), ('^', .go doubleCaret 0)]
  | doubleCaret => [('=', .produce .logicalXorAssign)]
  | bar => [('=', .produce .bitOrAssign), ('|', .go doubleBar 0)]
  | doubleBar => [('=', .produce .logicalOrAssign)]
  | less => [('=', .produce .lessEqual), ('<', .go doubleLess 0)]
  | doubleLess => [('=', .produce .shiftLeftAssign)]
  | greater => [('=', .produce .greaterEqual), ('>', .go doubleGreater 0)]
  | doubleGreater => [('=', .produce .shiftRightAssign)]
  | exclamation => [('=', .produce .notEqual)]
  | asterisk => [('=', .produce .multiplyAssign)]
  | slash => [('=', .produce .divideAssign)]
  | percent => [('=', .produce .remainderAssign), (':', .produce .unsigned)]
  | colon => [(':', .produce .exported), ('?', .produce .weak)]

/-- Any other byte ends the operator, as the end of the buffer does. -/
def move (state : OperatorState) (b? : Option Byte) : OperatorMove :=
  (b?.bind fun b => state.moves.lookup (Char.ofUInt8 b)).getD (.yield state.pending)

end OperatorState

namespace OperatorMove

/-- The bytes that an operator starts with. -/
def starts : List (Char × OperatorMove) :=
  [('(', .produce .openParenthesis), (')', .produce .closeParenthesis),
    ('[', .produce .openBracket), (']', .produce .closeBracket),
    ('\x7b', .produce .openBrace), ('\x7d', .produce .closeBrace), (',', .produce .comma),
    ('=', .go .equals 0), ('+', .go .plus 0), ('-', .go .minus 0), ('&', .go .ampersand 0),
    ('^', .go .caret 0), ('|', .go .bar 0), ('<', .go .less 0), ('>', .go .greater 0),
    ('~', .produce .complement), ('!', .go .exclamation 0), ('*', .go .asterisk 0),
    ('/', .go .slash 0), ('%', .go .percent 0), (':', .go .colon 0), ('?', .produce .unknown),
    ('@', .produce .aliasMark)]

def ofFirst? (b : Byte) : Option OperatorMove :=
  starts.lookup (Char.ofUInt8 b)

end OperatorMove

end AssemblyLexer
