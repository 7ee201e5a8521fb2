import AssemblyLexer.Number.Scan
import AssemblyLexer.Proofs.DigitValue
import Mathlib.Data.List.Forall2

/-!
The grammar of numeric literals without their underscores, and the phases of a
literal's progress. Each phase says what has been spelled so far, and a spelling
leads to the phase that says so.
-/

set_option autoImplicit false

namespace AssemblyLexer

namespace Byte

/-- The letter that introduces an exponent. -/
def isExponentLetter (b : Byte) : Bool :=
  b == 0x50 || b == 0x70

def isSign (b : Byte) : Bool :=
  b == plus || b == minus

theorem isNamePart_of_digitValue? {b : Byte} {value : Nat} (digit : b.digitValue? = some value) :
    b.isNamePart := by
  simp only [isNamePart, isNameStart, isLetter, isDecimalDigit, Bool.or_eq_true,
    Bool.and_eq_true, decide_eq_true_eq]
  unfold digitValue? at digit
  simp only [Bool.and_eq_true, decide_eq_true_eq] at digit
  split at digit
  · next decimal => exact .inr decimal
  split at digit
  · next upper =>
    exact .inl (.inl (.inl (.inl (.inl ⟨upper.1, UInt8.le_trans upper.2 (by decide)⟩))))
  split at digit
  · next lower =>
    exact .inl (.inl (.inl (.inl (.inr ⟨lower.1, UInt8.le_trans lower.2 (by decide)⟩))))
  · cases digit

theorem isNamePart_of_isExponentLetter {b : Byte} (isLetter : b.isExponentLetter) :
    b.isNamePart := by
  rw [isExponentLetter, Bool.or_eq_true, beq_iff_eq, beq_iff_eq] at isLetter
  rcases isLetter with rfl | rfl <;> decide

end Byte

/-- Bytes that are digits of a base, with their values. -/
def SpellsDigits (base : Nat) : Bytes → List Nat → Prop :=
  List.Forall₂ fun b value => b.digitValue? = some value ∧ value < base

/-- Digits, with or without a point. -/
inductive SpellsMantissa (base : Nat) : Bytes → List Nat → Option (List Nat) → Prop
  | whole {text : Bytes} {values : List Nat} (digits : SpellsDigits base text values) :
      SpellsMantissa base text values none
  | pointed {text after : Bytes} {values fraction : List Nat}
      (digits : SpellsDigits base text values) (behind : SpellsDigits base after fraction) :
      SpellsMantissa base (text ++ Byte.dot :: after) values (some fraction)

/-- A mantissa that is not empty, and the letter of an exponent. -/
inductive SpellsLead (base : Nat) : Bytes → List Nat → Option (List Nat) → Prop
  | intro {text : Bytes} {letter : Byte} {whole : List Nat} {fraction? : Option (List Nat)}
      (mantissa : SpellsMantissa base text whole fraction?) (nonempty : text ≠ [])
      (isLetter : letter.isExponentLetter) : SpellsLead base (text ++ [letter]) whole fraction?

/-- Decimal digits, at least one, with or without a sign. -/
inductive SpellsExponent : Bytes → Int → Prop
  | unsigned {text : Bytes} {values : List Nat} (digits : SpellsDigits 10 text values)
      (nonempty : text ≠ []) : SpellsExponent text (digitsValue 10 values)
  | plus {text : Bytes} {values : List Nat} (digits : SpellsDigits 10 text values)
      (nonempty : text ≠ []) : SpellsExponent (Byte.plus :: text) (digitsValue 10 values)
  | minus {text : Bytes} {values : List Nat} (digits : SpellsDigits 10 text values)
      (nonempty : text ≠ []) : SpellsExponent (Byte.minus :: text) (-digitsValue 10 values)

/-- What a literal says: the digits before the point and those behind it, and its exponent. -/
structure NumberReading where
  whole : List Nat
  fraction? : Option (List Nat)
  exponent? : Option Int

inductive SpellsNumber (base : Nat) : Bytes → NumberReading → Prop
  | plain {text : Bytes} {whole : List Nat} {fraction? : Option (List Nat)}
      (mantissa : SpellsMantissa base text whole fraction?) :
      SpellsNumber base text ⟨whole, fraction?, none⟩
  | scaled {text more : Bytes} {whole : List Nat} {fraction? : Option (List Nat)} {e : Int}
      (lead : SpellsLead base text whole fraction?) (exponent : SpellsExponent more e) :
      SpellsNumber base (text ++ more) ⟨whole, fraction?, some e⟩

theorem SpellsDigits.snoc {base : Nat} {text : Bytes} {values : List Nat} {b : Byte} {value : Nat}
    (digits : SpellsDigits base text values) (digit : b.digitValue? = some value ∧ value < base) :
    SpellsDigits base (text ++ [b]) (values ++ [value]) :=
  List.rel_append digits (.cons digit .nil)

theorem SpellsDigits.nonempty_iff {base : Nat} {text : Bytes} {values : List Nat}
    (digits : SpellsDigits base text values) : text ≠ [] ↔ values ≠ [] := by
  cases digits <;> simp

theorem SpellsExponent.snoc {text : Bytes} {e : Int} {b : Byte} {value : Nat}
    (exponent : SpellsExponent text e) (digit : b.digitValue? = some value ∧ value < 10) :
    ∃ e', SpellsExponent (text ++ [b]) e' := by
  have nonempty : ∀ text : Bytes, text ++ [b] ≠ [] := fun _ => by simp
  cases exponent with
  | unsigned digits => exact ⟨_, .unsigned (digits.snoc digit) (nonempty _)⟩
  | plus digits => exact ⟨_, .plus (digits.snoc digit) (nonempty _)⟩
  | minus digits => exact ⟨_, .minus (digits.snoc digit) (nonempty _)⟩

namespace NumberSymbol

/-- What a symbol says of its byte. -/
def Describes (base : Nat) (b : Byte) : NumberSymbol → Prop
  | digit value => b.digitValue? = some value ∧ value < base
  | letter => b.isNamePart
  | separator => b = Byte.underscore
  | point => b = Byte.dot
  | exponent => b.isExponentLetter
  | plus => b = Byte.plus
  | minus => b = Byte.minus
  | outside => ¬b.isNamePart ∧ ¬b.isSign

theorem describes_ofByte (base : Nat) (b : Byte) : (ofByte base b).Describes base b := by
  unfold ofByte
  split
  · next value digit =>
    split
    · next small => exact ⟨digit, small⟩
    · exact Byte.isNamePart_of_digitValue? digit
  · next noDigit =>
    have notDecimal : ¬b.isDecimalDigit := by
      intro isDecimal
      have value : b.digitValue? = some (b.toNat - 0x30) := if_pos isDecimal
      cases noDigit.symm.trans value
    split
    · next isLetter => exact isLetter
    split
    · next isUnderscore => exact eq_of_beq isUnderscore
    split
    · next isDot => exact eq_of_beq isDot
    split
    · next isPlus => exact eq_of_beq isPlus
    split
    · next isMinus => exact eq_of_beq isMinus
    split
    · next isOther =>
      simp only [Describes, Byte.isNamePart, Byte.isNameStart]
      grind
    · next notOther =>
      simp only [Describes, Byte.isNamePart, Byte.isNameStart, Byte.isSign]
      grind

theorem ofByte_of_digit {base : Nat} {b : Byte} {value : Nat}
    (digit : b.digitValue? = some value ∧ value < base) : ofByte base b = .digit value := by
  rw [ofByte, digit.1]
  exact if_pos digit.2

end NumberSymbol

namespace NumberProgress

variable {base : Nat} {p next : NumberProgress} {symbol : NumberSymbol}

/-- What taking a symbol can do. A symbol that is out of place leads astray. -/
inductive Takes (base : Nat) (p : NumberProgress) : NumberSymbol → NumberProgress → Prop
  | separator : Takes base p .separator p
  | integerDigit {value : Nat} (here : p.phase = .beforeDigits ∨ p.phase = .integerDigits) :
      Takes base p (.digit value) (p.integerDigit base value)
  | point (here : p.phase = .beforeDigits ∨ p.phase = .integerDigits) :
      Takes base p .point (p.moveTo .beforeFraction)
  | fractionDigit {value : Nat} (here : p.phase = .beforeFraction ∨ p.phase = .fractionDigits) :
      Takes base p (.digit value) (p.fractionDigit base value)
  | exponent
      (here : p.phase = .integerDigits ∨ p.phase = .beforeFraction ∨ p.phase = .fractionDigits) :
      Takes base p .exponent (p.moveTo .exponentLetter)
  | plus (here : p.phase = .exponentLetter) : Takes base p .plus (p.moveTo .exponentSign)
  | minus (here : p.phase = .exponentLetter) :
      Takes base p .minus { p with phase := .exponentSign, exponentNegative := true }
  | exponentDigit {value : Nat} (here : p.phase.inExponent) :
      Takes base p (.digit value) (p.exponentDigit value)
  | astray {symbol : NumberSymbol} {next : NumberProgress} (lost : next.phase = .malformed) :
      Takes base p symbol next

theorem takes_of_take? (taken : p.take? base symbol = some next) : p.Takes base symbol next := by
  unfold take? at taken
  split at taken
  all_goals cases taken
  · exact .separator
  · next lost _ _ _ _ => exact .astray lost
  · exact .astray rfl
  · next here => exact .integerDigit (.inl here)
  · next here => exact .integerDigit (.inr here)
  · next here => exact .point (.inl here)
  · next here => exact .point (.inr here)
  · exact .astray rfl
  · next here => exact .fractionDigit (.inl here)
  · next here => exact .fractionDigit (.inr here)
  · next here => exact .exponent (.inl here)
  · next here => exact .exponent (.inr (.inl here))
  · next here => exact .exponent (.inr (.inr here))
  · next here => exact .plus here
  · next here => exact .minus here
  · next here => exact .exponentDigit (by rw [here]; rfl)
  · next here => exact .exponentDigit (by rw [here]; rfl)
  · next here => exact .exponentDigit (by rw [here]; rfl)
  · exact .astray rfl
  · exact .astray rfl

theorem take?_eq_none_iff (base : Nat) (p : NumberProgress) (symbol : NumberSymbol) :
    p.take? base symbol = none ↔
      symbol = .outside ∨ (symbol = .plus ∨ symbol = .minus) ∧ p.phase ≠ .exponentLetter := by
  unfold take?
  split <;> simp_all

/-- A literal ends before a byte that belongs to no name, unless that is a sign behind the letter
of an exponent. -/
theorem step?_eq_none_iff (radix : Radix) (p : NumberProgress) (b : Byte) :
    p.step? radix b = none ↔ ¬b.isNamePart ∧ ¬(b.isSign ∧ p.phase = .exponentLetter) := by
  rw [step?, take?_eq_none_iff]
  generalize (if p.phase.inExponent then 10 else radix.value) = base
  have describes := NumberSymbol.describes_ofByte base b
  generalize NumberSymbol.ofByte base b = symbol at describes
  have plusOutside : ¬Byte.plus.isNamePart ∧ Byte.plus.isSign := by decide
  have minusOutside : ¬Byte.minus.isNamePart ∧ Byte.minus.isSign := by decide
  cases symbol with
  | digit value => simp [Byte.isNamePart_of_digitValue? describes.1]
  | letter =>
    have isPart : b.isNamePart := describes
    simp [isPart]
  | separator =>
    obtain rfl : b = Byte.underscore := describes
    simp [show Byte.underscore.isNamePart by decide]
  | point =>
    obtain rfl : b = Byte.dot := describes
    simp [show Byte.dot.isNamePart by decide]
  | exponent => simp [Byte.isNamePart_of_isExponentLetter describes]
  | plus =>
    obtain rfl : b = Byte.plus := describes
    simp [plusOutside]
  | minus =>
    obtain rfl : b = Byte.minus := describes
    simp [minusOutside]
  | outside => simp [describes.1, describes.2]

end NumberProgress

/-- What a phase says of the text that led to it. -/
inductive Reached (base : Nat) : Bytes → NumberPhase → Prop
  | beforeDigits : Reached base [] .beforeDigits
  | integerDigits {text : Bytes} {values : List Nat} (digits : SpellsDigits base text values)
      (nonempty : text ≠ []) : Reached base text .integerDigits
  | beforeFraction {text : Bytes} {values : List Nat} (digits : SpellsDigits base text values) :
      Reached base (text ++ [Byte.dot]) .beforeFraction
  | fractionDigits {text after : Bytes} {values fraction : List Nat}
      (digits : SpellsDigits base text values) (behind : SpellsDigits base after fraction) :
      Reached base (text ++ Byte.dot :: after) .fractionDigits
  | exponentLetter {text : Bytes} {whole : List Nat} {fraction? : Option (List Nat)}
      (lead : SpellsLead base text whole fraction?) : Reached base text .exponentLetter
  | exponentSign {text : Bytes} {sign : Byte} {whole : List Nat} {fraction? : Option (List Nat)}
      (lead : SpellsLead base text whole fraction?) (isSign : sign.isSign) :
      Reached base (text ++ [sign]) .exponentSign
  | exponentDigits {text more : Bytes} {whole : List Nat} {fraction? : Option (List Nat)} {e : Int}
      (lead : SpellsLead base text whole fraction?) (exponent : SpellsExponent more e) :
      Reached base (text ++ more) .exponentDigits
  | malformed {text : Bytes} : Reached base text .malformed

theorem spellsExponent_of_sign {sign b : Byte} {value : Nat} (isSign : sign.isSign)
    (digit : b.digitValue? = some value ∧ value < 10) : ∃ e, SpellsExponent [sign, b] e := by
  have digits : SpellsDigits 10 [b] [value] := .cons digit .nil
  rw [Byte.isSign, Bool.or_eq_true, beq_iff_eq, beq_iff_eq] at isSign
  rcases isSign with rfl | rfl
  · exact ⟨_, .plus digits (List.cons_ne_nil _ _)⟩
  · exact ⟨_, .minus digits (List.cons_ne_nil _ _)⟩

namespace Reached

variable {radix : Radix} {text : Bytes} {p next : NumberProgress} {b : Byte}

theorem exponentDigit {base : Nat} {phase : NumberPhase} {value : Nat}
    (reached : Reached base text phase) (here : phase.inExponent)
    (digit : b.digitValue? = some value ∧ value < 10) :
    Reached base (text ++ [b]) .exponentDigits := by
  cases reached with
  | exponentLetter lead =>
    exact .exponentDigits lead (.unsigned (.cons digit .nil) (List.cons_ne_nil _ _))
  | exponentSign lead isSign =>
    obtain ⟨e, exponent⟩ := spellsExponent_of_sign isSign digit
    rw [List.append_assoc]
    exact .exponentDigits lead exponent
  | exponentDigits lead exponent =>
    obtain ⟨e, longer⟩ := exponent.snoc digit
    rw [List.append_assoc]
    exact .exponentDigits lead longer
  | _ => cases here

theorem step (reached : Reached radix.value text p.phase) (step : p.step? radix b = some next)
    (significant : b ≠ Byte.underscore) : Reached radix.value (text ++ [b]) next.phase := by
  rw [NumberProgress.step?] at step
  have describes := NumberSymbol.describes_ofByte (if p.phase.inExponent then 10 else radix.value) b
  have takes := NumberProgress.takes_of_take? step
  generalize NumberSymbol.ofByte _ b = symbol at describes takes
  cases takes with
  | separator => exact absurd describes significant
  | integerDigit here =>
    rcases here with here | here
    all_goals
      rw [here] at reached describes
      cases reached
    · exact .integerDigits (.cons describes .nil) (List.cons_ne_nil _ _)
    · next digits _ => exact .integerDigits (digits.snoc describes) (by simp)
  | point here =>
    obtain rfl : b = Byte.dot := describes
    rcases here with here | here
    all_goals
      rw [here] at reached
      cases reached
    · exact .beforeFraction .nil
    · next digits _ => exact .beforeFraction digits
  | fractionDigit here =>
    rcases here with here | here
    all_goals
      rw [here] at reached describes
      cases reached
    · next digits =>
      rw [List.append_assoc]
      exact .fractionDigits digits (.cons describes .nil)
    · next digits behind =>
      rw [List.append_assoc]
      exact .fractionDigits digits (behind.snoc describes)
  | exponent here =>
    rcases here with here | here | here
    all_goals
      rw [here] at reached
      cases reached
    · next digits nonempty => exact .exponentLetter (.intro (.whole digits) nonempty describes)
    · next digits => exact .exponentLetter (.intro (.pointed digits .nil) (by simp) describes)
    · next digits behind =>
      exact .exponentLetter (.intro (.pointed digits behind) (by simp) describes)
  | plus here =>
    obtain rfl : b = Byte.plus := describes
    rw [here] at reached
    cases reached with
    | exponentLetter lead => exact .exponentSign lead (by decide)
  | minus here =>
    obtain rfl : b = Byte.minus := describes
    rw [here] at reached
    cases reached with
    | exponentLetter lead => exact .exponentSign lead (by decide)
  | exponentDigit here =>
    rw [here] at describes
    exact reached.exponentDigit here describes
  | astray lost =>
    rw [lost]
    exact .malformed

/-- A phase in which the input may stop has been reached by a literal of the grammar. -/
theorem spellsNumber {base : Nat} {phase : NumberPhase} (reached : Reached base text phase)
    (finished : ¬phase.isUnfinished) : ∃ reading, SpellsNumber base text reading := by
  cases reached with
  | beforeDigits => exact ⟨_, .plain (.whole .nil)⟩
  | integerDigits digits => exact ⟨_, .plain (.whole digits)⟩
  | beforeFraction digits => exact ⟨_, .plain (.pointed digits .nil)⟩
  | fractionDigits digits behind => exact ⟨_, .plain (.pointed digits behind)⟩
  | exponentDigits lead exponent => exact ⟨_, .scaled lead exponent⟩
  | _ => exact absurd rfl finished

end Reached

end AssemblyLexer
