import AssemblyLexer.Proofs.Quoted
import AssemblyLexer.Segment

/-!
The first byte of a segment selects how the rest of it is scanned.
-/

set_option autoImplicit false

namespace AssemblyLexer

/-- The byte can start nothing but an operator. -/
def Byte.isOther (b : Byte) : Bool :=
  !(b.isBlank || b.isNameStart || b.isDecimalDigit || b.isLineBreak || b == hash ||
    b == backslash || b == semicolon || b == dollar || b == doubleQuote || b == apostrophe)

namespace Segment

inductive Selects (fresh : Bool) : Byte → (Bytes → Segment) → Prop
  | blank {first : Byte} (isBlank : first.isBlank) : Selects fresh first fun _ => skipped .blank 0
  | word {first : Byte} (isName : first.isNameStart) : Selects fresh first (word fresh first)
  | decimal {first : Byte} (isDigit : first.isDecimalDigit) : Selects fresh first (decimal first)
  | lineBreak {first : Byte} (isBreak : first.isLineBreak) :
      Selects fresh first (lineBreak fresh first)
  | comment : Selects fresh Byte.hash comment
  | backslash : Selects fresh Byte.backslash backslash
  | semicolon :
      Selects fresh Byte.semicolon fun _ => token .semicolon 0 (.symbol .endOfStatement)
  | parameter : Selects fresh Byte.dollar parameter
  | quoted {quote : Byte} (isQuote : Quoted.IsQuote quote) : Selects fresh quote (quoted quote)
  | operator {first : Byte} (isOther : first.isOther) : Selects fresh first (operator first)

theorem selects_scan (fresh : Bool) (first : Byte) : Selects fresh first (scan fresh first) := by
  unfold scan
  by_cases isBlank : first.isBlank
  · simp only [isBlank, if_true]
    exact .blank isBlank
  by_cases isName : first.isNameStart
  · simp only [isBlank, isName, if_true]
    exact .word isName
  by_cases isDigit : first.isDecimalDigit
  · simp only [isBlank, isName, isDigit, if_true]
    exact .decimal isDigit
  by_cases isBreak : first.isLineBreak
  · simp only [isBlank, isName, isDigit, isBreak, if_true]
    exact .lineBreak isBreak
  by_cases isHash : first = Byte.hash
  · subst isHash
    exact .comment
  by_cases isBackslash : first = Byte.backslash
  · subst isBackslash
    exact .backslash
  by_cases isSemicolon : first = Byte.semicolon
  · subst isSemicolon
    exact .semicolon
  by_cases isDollar : first = Byte.dollar
  · subst isDollar
    exact .parameter
  by_cases isQuote : first = Byte.doubleQuote ∨ first = Byte.apostrophe
  · simp only [isBlank, isName, isDigit, isBreak, isHash, isBackslash, isSemicolon, isDollar,
      isQuote, if_true, if_false]
    exact .quoted isQuote
  · simp only [isBlank, isName, isDigit, isBreak, isHash, isBackslash, isSemicolon, isDollar,
      isQuote, if_false]
    apply Selects.operator
    rw [not_or] at isQuote
    simp [Byte.isOther, isBlank, isName, isDigit, isBreak, isHash, isBackslash, isSemicolon,
      isDollar, isQuote]

end Segment

end AssemblyLexer
