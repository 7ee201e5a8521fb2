import AssemblyLexer.Token.Kind

/-!
Operators and punctuation. A token of these kinds grows byte by byte for as long
as the bytes taken so far and the next one spell another token. Every proper
beginning of an operator is an operator itself, so the kind reached so far is
all that has to be remembered.
-/

set_option autoImplicit false

namespace AssemblyLexer.TokenKind

/-- The kind spelled by a single byte. -/
def ofByte? (b : Byte) : Option TokenKind :=
  match Char.ofUInt8 b with
  | '@' => some aliasMark
  | '~' => some complement
  | '!' => some logicalNot
  | '*' => some multiply
  | '/' => some divide
  | '%' => some remainder
  | '+' => some add
  | '-' => some subtract
  | '&' => some bitAnd
  | '^' => some bitXor
  | '|' => some bitOr
  | '<' => some less
  | '>' => some greater
  | '?' => some unknown
  | '=' => some assign
  | '{' => some openBrace
  | '}' => some closeBrace
  | '(' => some openParenthesis
  | ')' => some closeParenthesis
  | '[' => some openBracket
  | ']' => some closeBracket
  | ':' => some colon
  | ',' => some comma
  | _ => none

/-- The kind with an equals sign appended. -/
def withEquals? : TokenKind → Option TokenKind
  | assign => some equal
  | logicalNot => some notEqual
  | less => some lessEqual
  | unsignedLess => some unsignedLessEqual
  | greater => some greaterEqual
  | unsignedGreater => some unsignedGreaterEqual
  | multiply => some multiplyAssign
  | unsignedMultiply => some unsignedMultiplyAssign
  | divide => some divideAssign
  | unsignedDivide => some unsignedDivideAssign
  | remainder => some remainderAssign
  | unsignedRemainder => some unsignedRemainderAssign
  | add => some addAssign
  | subtract => some subtractAssign
  | shiftLeft => some shiftLeftAssign
  | shiftRight => some shiftRightAssign
  | unsignedShiftRight => some unsignedShiftRightAssign
  | bitAnd => some bitAndAssign
  | bitXor => some bitXorAssign
  | bitOr => some bitOrAssign
  | logicalAnd => some logicalAndAssign
  | logicalXor => some logicalXorAssign
  | logicalOr => some logicalOrAssign
  | _ => none

/-- The kind with the given byte appended to its spelling. A plus sign before an operator asks
for the unsigned variant, which the left shift does not have. -/
def extended? (kind : TokenKind) (b : Byte) : Option TokenKind :=
  match kind, Char.ofUInt8 b with
  | _, '=' => kind.withEquals?
  | add, '+' => some increment
  | add, '<' => some unsignedLess
  | add, '>' => some unsignedGreater
  | add, '*' => some unsignedMultiply
  | add, '/' => some unsignedDivide
  | add, '%' => some unsignedRemainder
  | add, ':' => some signed
  | subtract, '-' => some decrement
  | bitAnd, '&' => some logicalAnd
  | bitXor, '^' => some logicalXor
  | bitOr, '|' => some logicalOr
  | less, '<' => some shiftLeft
  | unsignedLess, '<' => some shiftLeft
  | greater, '>' => some shiftRight
  | unsignedGreater, '>' => some unsignedShiftRight
  | remainder, ':' => some unsigned
  | unsignedRemainder, ':' => some unsigned
  | colon, ':' => some exported
  | colon, '?' => some weak
  | _, _ => none

/-- The kind reached by appending bytes for as long as they extend it, and the number of them. -/
def grown (kind : TokenKind) : Bytes → TokenKind × Nat
  | [] => (kind, 0)
  | b :: rest =>
    match kind.extended? b with
    | some longer =>
      let (final, taken) := longer.grown rest
      (final, taken + 1)
    | none => (kind, 0)

theorem grown_le (kind : TokenKind) (bytes : Bytes) :
    (kind.grown bytes).2 ≤ bytes.length := by
  fun_induction grown kind bytes with
  | case1 => simp
  | case2 _ _ _ _ _ final taken step ih =>
    simp only [step] at ih
    exact Nat.succ_le_succ ih
  | case3 => simp

end AssemblyLexer.TokenKind
