import AssemblyLexer.Proofs.NumberGrammar

/-!
The progress of a literal over a text of the grammar: where it ends, and what it
has gathered there.
-/

set_option autoImplicit false

namespace AssemblyLexer

namespace NumberReading

/-- All digits of the significand. -/
def digits (r : NumberReading) : List Nat :=
  r.whole ++ r.fraction?.getD []

def precision (r : NumberReading) : Nat :=
  (r.fraction?.getD []).length

def exponent (r : NumberReading) : Int :=
  r.exponent?.getD 0

end NumberReading

namespace NumberProgress

/-- The progress over a whole text, or none when the literal ends before the text does. -/
def walk (radix : Radix) (p : NumberProgress) (text : Bytes) : Option NumberProgress :=
  text.foldlM (step? radix) p

variable {radix : Radix} {p : NumberProgress} {text : Bytes} {values : List Nat}

@[simp]
theorem walk_nil : p.walk radix [] = some p := rfl

theorem walk_cons (b : Byte) : p.walk radix (b :: text) =
    (p.step? radix b).bind fun next => next.walk radix text := rfl

theorem walk_append (left right : Bytes) : p.walk radix (left ++ right) =
    (p.walk radix left).bind fun next => next.walk radix right := by
  rw [walk, List.foldlM_append]
  rfl

/-- A kind of digit that is taken wherever the condition holds, and which keeps it. -/
structure Gathers (radix : Radix) (base : Nat) (condition : NumberProgress → Prop)
    (gather : NumberProgress → Nat → NumberProgress) : Prop where
  step_eq : ∀ {p b value}, condition p → b.digitValue? = some value ∧ value < base →
    step? radix p b = some (gather p value)
  keeps : ∀ {p value}, condition p → condition (gather p value)

theorem walk_digits {base : Nat} {condition : NumberProgress → Prop}
    {gather : NumberProgress → Nat → NumberProgress}
    (gathers : Gathers radix base condition gather) (digits : SpellsDigits base text values)
    (holds : condition p) : p.walk radix text = some (values.foldl gather p) := by
  induction digits generalizing p with
  | nil => rfl
  | cons digit _ ih =>
    rw [walk_cons, gathers.step_eq holds digit]
    exact ih (gathers.keeps holds)

theorem gathers_integerDigit (radix : Radix) : Gathers radix radix.value
    (fun p => p.phase = .beforeDigits ∨ p.phase = .integerDigits)
    (fun p value => p.integerDigit radix.value value) where
  step_eq := by
    rintro p b value (here | here) digit
    all_goals
      have inMantissa : ¬p.phase.inExponent := by rw [here]; decide
      rw [step?, if_neg inMantissa, NumberSymbol.ofByte_of_digit digit]
      simp [take?, here]
  keeps := fun _ => .inr rfl

theorem gathers_fractionDigit (radix : Radix) : Gathers radix radix.value
    (fun p => p.phase = .beforeFraction ∨ p.phase = .fractionDigits)
    (fun p value => p.fractionDigit radix.value value) where
  step_eq := by
    rintro p b value (here | here) digit
    all_goals
      have inMantissa : ¬p.phase.inExponent := by rw [here]; decide
      rw [step?, if_neg inMantissa, NumberSymbol.ofByte_of_digit digit]
      simp [take?, here]
  keeps := fun _ => .inr rfl

theorem gathers_exponentDigit (radix : Radix) : Gathers radix 10
    (fun p => p.phase.inExponent) exponentDigit where
  step_eq := by
    intro p b value here digit
    rw [step?, if_pos here, NumberSymbol.ofByte_of_digit digit]
    cases phase : p.phase
    case exponentLetter | exponentSign | exponentDigits => simp [take?, phase]
    all_goals
      rw [phase] at here
      cases here
  keeps := fun _ => rfl

theorem foldl_integerDigit (base : Nat) (values : List Nat) (p : NumberProgress) :
    values.foldl (fun p value => p.integerDigit base value) p =
      { p with
        phase := if values = [] then p.phase else .integerDigits
        significand := values.foldl (fun a value => a.push base value) p.significand
        digits := p.digits + UInt32.ofNat values.length } := by
  induction values generalizing p with
  | nil => simp
  | cons value values ih =>
    rw [List.foldl_cons, ih]
    simp [integerDigit, UInt32.ofNat_add, UInt32.add_assoc, UInt32.add_comm 1]

theorem foldl_fractionDigit (base : Nat) (values : List Nat) (p : NumberProgress) :
    values.foldl (fun p value => p.fractionDigit base value) p =
      { p with
        phase := if values = [] then p.phase else .fractionDigits
        significand := values.foldl (fun a value => a.push base value) p.significand
        digits := p.digits + UInt32.ofNat values.length
        precision := p.precision + UInt32.ofNat values.length } := by
  induction values generalizing p with
  | nil => simp
  | cons value values ih =>
    rw [List.foldl_cons, ih]
    simp [fractionDigit, UInt32.ofNat_add, UInt32.add_assoc, UInt32.add_comm 1]

theorem foldl_exponentDigit (values : List Nat) (p : NumberProgress) :
    values.foldl exponentDigit p =
      { p with
        phase := if values = [] then p.phase else .exponentDigits
        exponent := values.foldl (fun a value => a.push 10 value) p.exponent } := by
  induction values generalizing p with
  | nil => simp
  | cons value values ih =>
    rw [List.foldl_cons, ih]
    simp [exponentDigit]

/-- The progress behind a mantissa. -/
def ofMantissa (base : Nat) (whole : List Nat) (fraction? : Option (List Nat)) :
    NumberProgress where
  phase :=
    match whole, fraction? with
    | [], none => .beforeDigits
    | _ :: _, none => .integerDigits
    | _, some [] => .beforeFraction
    | _, some (_ :: _) => .fractionDigits
  significand := .ofDigits base (whole ++ fraction?.getD [])
  digits := .ofNat (whole ++ fraction?.getD []).length
  precision := .ofNat (fraction?.getD []).length
  exponent := .zero
  exponentNegative := false

theorem walk_whole (digits : SpellsDigits radix.value text values) :
    initial.walk radix text = some (ofMantissa radix.value values none) := by
  rw [walk_digits (gathers_integerDigit radix) digits (.inl rfl), foldl_integerDigit]
  cases values <;> simp [initial, ofMantissa, Accumulator.ofDigits]

theorem walk_mantissa {whole : List Nat} {fraction? : Option (List Nat)}
    (mantissa : SpellsMantissa radix.value text whole fraction?) :
    initial.walk radix text = some (ofMantissa radix.value whole fraction?) := by
  cases mantissa with
  | whole digits => exact walk_whole digits
  | @pointed text after _ fraction digits behind =>
    have point : (ofMantissa radix.value whole none).step? radix Byte.dot =
        some ((ofMantissa radix.value whole none).moveTo .beforeFraction) := by
      cases whole <;> rfl
    rw [walk_append, walk_whole digits, Option.bind_some, walk_cons, point, Option.bind_some,
      walk_digits (gathers_fractionDigit radix) behind (.inl rfl), foldl_fractionDigit]
    cases fraction <;>
      simp [moveTo, ofMantissa, Accumulator.ofDigits, UInt32.ofNat_add]

theorem ofByte_of_isExponentLetter {letter : Byte} (isLetter : letter.isExponentLetter)
    (base : Nat) : NumberSymbol.ofByte base letter = .exponent := by
  rw [Byte.isExponentLetter, Bool.or_eq_true, beq_iff_eq, beq_iff_eq] at isLetter
  rcases isLetter with rfl | rfl <;> rfl

theorem walk_lead {whole : List Nat} {fraction? : Option (List Nat)}
    (lead : SpellsLead radix.value text whole fraction?) :
    initial.walk radix text =
      some ((ofMantissa radix.value whole fraction?).moveTo .exponentLetter) := by
  cases lead with
  | @intro text letter _ _ mantissa nonempty isLetter =>
    have letterTaken : (ofMantissa radix.value whole fraction?).step? radix letter =
        some ((ofMantissa radix.value whole fraction?).moveTo .exponentLetter) := by
      rw [step?, ofByte_of_isExponentLetter isLetter]
      cases mantissa with
      | whole digits =>
        cases digits with
        | nil => exact absurd rfl nonempty
        | cons => rfl
      | pointed _ behind => cases whole <;> cases behind <;> rfl
    rw [walk_append, walk_mantissa mantissa, Option.bind_some, walk_cons, letterTaken,
      Option.bind_some, walk_nil]

/-- The exponent is gathered without its sign, which is kept apart. -/
theorem walk_exponent (radix : Radix) {e : Int} (exponent : SpellsExponent text e)
    (here : p.phase = .exponentLetter) (untouched : p.exponent = .zero)
    (unsigned : p.exponentNegative = false) :
    ∃ values negative,
      e = (if negative then -(digitsValue 10 values : Int) else digitsValue 10 values) ∧
      p.walk radix text = some
        { p with
          phase := .exponentDigits
          exponent := .ofDigits 10 values
          exponentNegative := negative } := by
  have walked : ∀ {q : NumberProgress} {text : Bytes} {values : List Nat}, q.phase.inExponent →
      q.exponent = .zero → SpellsDigits 10 text values → text ≠ [] →
      q.walk radix text =
        some { q with phase := .exponentDigits, exponent := .ofDigits 10 values } := by
    intro q text values here untouched digits nonempty
    rw [walk_digits (gathers_exponentDigit radix) digits here, foldl_exponentDigit, untouched,
      if_neg (digits.nonempty_iff.mp nonempty)]
    rfl
  cases exponent with
  | @unsigned _ values digits nonempty =>
    refine ⟨values, false, rfl, ?_⟩
    rw [walked (by rw [here]; rfl) untouched digits nonempty, ← unsigned]
  | @plus text values digits nonempty =>
    have signTaken : p.step? radix Byte.plus = some (p.moveTo .exponentSign) := by
      have symbol : ∀ base, NumberSymbol.ofByte base Byte.plus = .plus := fun _ => rfl
      rw [step?, symbol]
      simp [take?, here]
    refine ⟨values, false, rfl, ?_⟩
    rw [walk_cons, signTaken, Option.bind_some, ← unsigned]
    exact walked (q := p.moveTo .exponentSign) rfl untouched digits nonempty
  | @minus text values digits nonempty =>
    have signTaken : p.step? radix Byte.minus =
        some { p with phase := .exponentSign, exponentNegative := true } := by
      have symbol : ∀ base, NumberSymbol.ofByte base Byte.minus = .minus := fun _ => rfl
      rw [step?, symbol]
      simp [take?, here]
    refine ⟨values, true, rfl, ?_⟩
    rw [walk_cons, signTaken, Option.bind_some]
    exact walked (q := { p with phase := .exponentSign, exponentNegative := true }) rfl untouched
      digits nonempty

/-- The progress has ended behind a literal that says what the reading says. -/
structure Gathered (base : Nat) (p : NumberProgress) (reading : NumberReading) : Prop where
  finished : ¬p.phase.isUnfinished
  plain_iff : (p.phase = .beforeDigits ∨ p.phase = .integerDigits) ↔
    reading.fraction? = none ∧ reading.exponent? = none
  significand_eq : p.significand = .ofDigits base reading.digits
  digits_eq : p.digits = .ofNat reading.digits.length
  precision_eq : p.precision = .ofNat reading.precision
  exponent_eq : ∃ values, p.exponent = .ofDigits 10 values ∧
    reading.exponent =
      if p.exponentNegative then -(digitsValue 10 values : Int) else digitsValue 10 values

theorem gathered_ofMantissa (base : Nat) (whole : List Nat) (fraction? : Option (List Nat)) :
    (ofMantissa base whole fraction?).Gathered base ⟨whole, fraction?, none⟩ where
  finished := by
    unfold ofMantissa
    dsimp only
    split <;> decide
  plain_iff := by
    unfold ofMantissa
    dsimp only
    split <;> simp
  significand_eq := rfl
  digits_eq := rfl
  precision_eq := rfl
  exponent_eq := ⟨[], rfl, rfl⟩

theorem walk_number {reading : NumberReading}
    (spells : SpellsNumber radix.value text reading) :
    ∃ p, initial.walk radix text = some p ∧ p.Gathered radix.value reading := by
  cases spells with
  | plain mantissa => exact ⟨_, walk_mantissa mantissa, gathered_ofMantissa _ _ _⟩
  | @scaled text more whole fraction? e lead exponent =>
    obtain ⟨values, negative, e_eq, walked⟩ :=
      walk_exponent (p := (ofMantissa radix.value whole fraction?).moveTo .exponentLetter) radix
        exponent rfl rfl rfl
    have reached : initial.walk radix (text ++ more) = _ := walk_append text more
    rw [walk_lead lead, Option.bind_some, walked] at reached
    exact ⟨_, reached, Bool.false_ne_true, by simp, rfl, rfl, rfl, values, rfl, e_eq⟩

end NumberProgress

end AssemblyLexer
