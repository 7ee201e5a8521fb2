import AssemblyLexer.Input.Reader
import AssemblyLexer.Proofs.NumberProgress

/-!
Scanning a numeric literal: which bytes the scan takes, which literals it accepts,
and the value that it gives them.
-/

set_option autoImplicit false

namespace AssemblyLexer

/-- The bytes that count. -/
def significant (bytes : Bytes) : Bytes :=
  bytes.filter (· ≠ Byte.underscore)

/-- A byte of a name may stand anywhere in a literal, a sign only behind the letter of an
exponent. -/
def MayFollow (base : Nat) (before : Bytes) (b : Byte) : Prop :=
  b.isNamePart ∨ b.isSign ∧ ∃ whole fraction?, SpellsLead base before whole fraction?

/-- The outcome of a literal that the grammar has. -/
def NumberReading.status (base : Nat) (r : NumberReading) : NumberStatus :=
  if r.digits = [] then .noDigits
  else if UInt64.size ≤ digitsValue base r.digits then .overflow
  else if r.exponent < Int64.minValue.toInt ∨ Int64.maxValue.toInt < r.exponent then
    .exponentOverflow
  else if r.fraction? = none ∧ r.exponent? = none then .integer
  else .float

/-- The digits and the exponent are small enough to be given. -/
structure NumberReading.Fits (base : Nat) (r : NumberReading) : Prop where
  small : ¬UInt64.size ≤ digitsValue base r.digits
  inside : ¬(r.exponent < Int64.minValue.toInt ∨ Int64.maxValue.toInt < r.exponent)

theorem NumberReading.fits_of_status {base : Nat} {r : NumberReading}
    (isNumber : r.status base = .integer ∨ r.status base = .float) : r.Fits base := by
  unfold status at isNumber
  split at isNumber
  · simp at isNumber
  split at isNumber
  · simp at isNumber
  split at isNumber
  · simp at isNumber
  · exact ⟨‹_›, ‹_›⟩

/-- The literal says what the reading says, with nothing cut off. -/
structure NumberLiteral.Agrees (l : NumberLiteral) (radix : Radix) (r : NumberReading) : Prop where
  radix_eq : l.radix = radix
  significand_eq : l.significand.toNat = digitsValue radix.value r.digits
  digits_eq : l.digits.toNat = r.digits.length
  precision_eq : l.precision.toNat = r.precision
  exponent_eq : l.exponent.toInt = r.exponent

namespace NumberProgress

variable {radix : Radix} {p : NumberProgress} {text : Bytes}

theorem step?_underscore (radix : Radix) (p : NumberProgress) :
    p.step? radix Byte.underscore = some p := by
  have symbol : ∀ base, NumberSymbol.ofByte base Byte.underscore = .separator := fun _ => rfl
  rw [step?, symbol]
  unfold take?
  split <;> simp_all

theorem walk_significant (radix : Radix) (p : NumberProgress) (text : Bytes) :
    p.walk radix (significant text) = p.walk radix text := by
  induction text generalizing p with
  | nil => rfl
  | cons b text ih =>
    by_cases isUnderscore : b = Byte.underscore
    · subst b
      rw [walk_cons, step?_underscore, Option.bind_some, ← ih]
      rfl
    · rw [significant, List.filter_cons_of_pos (by simpa using isUnderscore), walk_cons, walk_cons]
      congr 1
      funext next
      exact ih next

theorem reached_of_walk (significantText : ∀ b ∈ text, b ≠ Byte.underscore)
    (walked : initial.walk radix text = some p) : Reached radix.value text p.phase := by
  induction text using List.reverseRecOn generalizing p with
  | nil =>
    cases walked
    exact .beforeDigits
  | append_singleton text b ih =>
    rw [walk_append] at walked
    obtain ⟨middle, walked, stepped⟩ := Option.bind_eq_some_iff.mp walked
    rw [walk_cons] at stepped
    obtain ⟨last, step, ended⟩ := Option.bind_eq_some_iff.mp stepped
    cases ended
    have reached := ih (fun b membership => significantText b (List.mem_append_left _ membership))
      walked
    exact reached.step step (significantText b (by simp))

/-- A run goes over a text and stops before a byte that its last state does not take. -/
theorem exists_walk (radix : Radix) (p : NumberProgress) (taken : Nat) (bytes : Bytes) :
    ∃ text rest, bytes = text ++ rest ∧ p.walk radix text = some (p.run radix taken bytes).1 ∧
      (p.run radix taken bytes).2 = taken + text.length ∧
      ∀ b ∈ rest.head?, (p.run radix taken bytes).1.step? radix b = none := by
  fun_induction run radix p taken bytes with
  | case1 p taken => exact ⟨[], [], rfl, rfl, rfl, by simp⟩
  | case2 p taken b rest next step ih =>
    obtain ⟨text, after, split, walked, length_eq, stops⟩ := ih
    refine ⟨b :: text, after, by rw [split, List.cons_append], ?_, ?_, stops⟩
    · rw [walk_cons, step, Option.bind_some, walked]
    · rw [length_eq, List.length_cons]
      omega
  | case3 p taken b rest step =>
    exact ⟨[], b :: rest, rfl, rfl, rfl, by simpa using step⟩

theorem Gathered.exponent?_eq {base : Nat} {reading : NumberReading}
    (gathered : p.Gathered base reading) :
    if reading.exponent < Int64.minValue.toInt ∨ Int64.maxValue.toInt < reading.exponent then
      (p.exponent.overflowed || p.exponent?.isNone) = true
    else p.exponent.overflowed = false ∧ p.exponent? = some (.ofInt reading.exponent) := by
  obtain ⟨values, exponent_eq, reading_eq⟩ := gathered.exponent_eq
  have keeps : (Accumulator.ofDigits 10 values).Keeps (digitsValue 10 values) :=
    Accumulator.keeps_ofDigits (by decide) values
  rw [← exponent_eq] at keeps
  rw [Int64.toInt_minValue, Int64.toInt_maxValue]
  by_cases wrapped : UInt64.size ≤ digitsValue 10 values
  · rw [keeps.overflowed_iff.mpr wrapped]
    rw [if_pos]
    · rfl
    · rw [UInt64.size] at wrapped
      rw [reading_eq]
      split <;> omega
  · have value_eq := keeps.value_eq
    rw [Nat.mod_eq_of_lt (Nat.lt_of_not_le wrapped)] at value_eq
    have notOverflowed : p.exponent.overflowed = false := by
      rw [← Bool.not_eq_true, keeps.overflowed_iff]
      exact wrapped
    rw [NumberProgress.exponent?, value_eq, ← reading_eq, Int64.toInt_minValue,
      Int64.toInt_maxValue, notOverflowed]
    split
    · next outside => rw [if_neg (by omega)]; rfl
    · next inside => rw [if_pos (by omega)]; exact ⟨rfl, rfl⟩

theorem Gathered.keeps {reading : NumberReading} (gathered : p.Gathered radix.value reading) :
    p.significand.Keeps (digitsValue radix.value reading.digits) := by
  have positive : 0 < radix.value := by cases radix <;> decide
  rw [gathered.significand_eq]
  exact Accumulator.keeps_ofDigits positive reading.digits

theorem Gathered.digits_toNat {reading : NumberReading} (gathered : p.Gathered radix.value reading)
    (short : reading.digits.length < UInt32.size) : p.digits.toNat = reading.digits.length := by
  rw [gathered.digits_eq, UInt32.toNat_ofNat_of_lt' short]

/-- The outcome is that of the reading. -/
theorem Gathered.status_eq {reading : NumberReading} (gathered : p.Gathered radix.value reading)
    (short : reading.digits.length < UInt32.size) : p.status = reading.status radix.value := by
  have digits_zero : p.digits = 0 ↔ reading.digits = [] := by
    rw [← UInt32.toNat_inj, gathered.digits_toNat short, ← List.length_eq_zero_iff]
    rfl
  have overflowed_iff := gathered.keeps.overflowed_iff
  have exponent_eq := gathered.exponent?_eq
  unfold status NumberReading.status
  rw [if_neg gathered.finished]
  by_cases noDigits : reading.digits = []
  · rw [if_pos (digits_zero.mpr noDigits), if_pos noDigits]
  rw [if_neg (digits_zero.not.mpr noDigits), if_neg noDigits]
  by_cases large : UInt64.size ≤ digitsValue radix.value reading.digits
  · rw [if_pos (overflowed_iff.mpr large), if_pos large]
  rw [if_neg (overflowed_iff.not.mpr large), if_neg large]
  by_cases outside : reading.exponent < Int64.minValue.toInt ∨
      Int64.maxValue.toInt < reading.exponent
  · rw [if_pos outside] at exponent_eq ⊢
    rw [if_pos exponent_eq]
  rw [if_neg outside] at exponent_eq ⊢
  rw [if_neg (by simp [exponent_eq])]
  by_cases plain : reading.fraction? = none ∧ reading.exponent? = none
  · rw [if_pos plain]
    rcases gathered.plain_iff.mpr plain with here | here <;> rw [here]
  · rw [if_neg plain]
    have notPlain := gathered.plain_iff.not.mpr plain
    split <;> simp_all

/-- A literal whose digits and whose exponent fit says the same as the reading. -/
theorem Gathered.literal_agrees {reading : NumberReading} (gathered : p.Gathered radix.value reading)
    (short : reading.digits.length < UInt32.size) (fits : reading.Fits radix.value) :
    (p.literal radix).Agrees radix reading := by
  obtain ⟨small, inside⟩ := fits
  have exponent_eq := gathered.exponent?_eq
  rw [if_neg inside] at exponent_eq
  rw [Int64.toInt_minValue, Int64.toInt_maxValue] at inside
  refine ⟨rfl, ?_, gathered.digits_toNat short, ?_, ?_⟩
  · rw [literal, gathered.keeps.value_eq, Nat.mod_eq_of_lt (Nat.lt_of_not_le small)]
  · have within : reading.precision ≤ reading.digits.length := by
      rw [NumberReading.precision, NumberReading.digits, List.length_append]
      exact Nat.le_add_left _ _
    rw [literal, gathered.precision_eq, UInt32.toNat_ofNat_of_lt' (Nat.lt_of_le_of_lt within short)]
  · rw [literal, exponent_eq.2]
    exact Int64.toInt_ofInt_of_le (by omega) (by omega)

end NumberProgress

theorem SpellsMantissa.length_le {base : Nat} {text : Bytes} {whole : List Nat}
    {fraction? : Option (List Nat)} (mantissa : SpellsMantissa base text whole fraction?) :
    (whole ++ fraction?.getD []).length ≤ text.length := by
  cases mantissa with
  | whole digits => simp [List.Forall₂.length_eq digits]
  | pointed digits behind =>
    simp only [Option.getD_some, List.length_append, List.length_cons,
      List.Forall₂.length_eq digits, List.Forall₂.length_eq behind]
    omega

theorem SpellsNumber.digits_length_le {base : Nat} {text : Bytes} {reading : NumberReading}
    (spells : SpellsNumber base text reading) : reading.digits.length ≤ text.length := by
  cases spells with
  | plain mantissa => exact mantissa.length_le
  | scaled lead exponent =>
    cases lead with
    | intro mantissa =>
      have within := mantissa.length_le
      rw [List.length_append, List.length_append]
      rw [NumberReading.digits]
      dsimp only
      omega

namespace NumberProgress

variable {radix : Radix} {p : NumberProgress} {text : Bytes}

theorem reached_significant (walked : initial.walk radix text = some p) :
    Reached radix.value (significant text) p.phase := by
  apply reached_of_walk
  · intro b membership
    simpa using (List.mem_filter.mp membership).2
  · rw [walk_significant, walked]

/-- What is taken behind a text is just what may follow it. -/
theorem step?_isSome_iff_mayFollow (walked : initial.walk radix text = some p) (b : Byte) :
    (p.step? radix b).isSome ↔ MayFollow radix.value (significant text) b := by
  have atLetter : p.phase = .exponentLetter ↔
      ∃ whole fraction?, SpellsLead radix.value (significant text) whole fraction? := by
    constructor
    · intro here
      have reached := reached_significant walked
      rw [here] at reached
      generalize significant text = spelled at reached
      cases reached with
      | exponentLetter lead => exact ⟨_, _, lead⟩
    · rintro ⟨whole, fraction?, lead⟩
      have again := walk_lead lead
      rw [walk_significant, walked] at again
      rw [Option.some.inj again]
      rfl
  rw [MayFollow, ← atLetter, Option.isSome_iff_ne_none, Ne, step?_eq_none_iff, not_and_or,
    not_not, not_not]

theorem status_eq_malformed_iff : p.status = .malformed ↔ p.phase.isUnfinished := by
  unfold status
  by_cases unfinished : p.phase.isUnfinished
  · rw [if_pos unfinished]
    exact ⟨fun _ => unfinished, fun _ => rfl⟩
  · rw [if_neg unfinished]
    refine ⟨fun malformed => ?_, fun unfinished' => absurd unfinished' unfinished⟩
    repeat' split at malformed
    all_goals cases malformed

end NumberProgress

/-- The scan gives what the grammar gives for the bytes that it takes. -/
structure NumberScan.Accepts (scan : NumberScan) (radix : Radix) (text : Bytes) : Prop where
  malformed_iff : scan.status = .malformed ↔ ¬∃ reading, SpellsNumber radix.value text reading
  status_eq : ∀ reading, SpellsNumber radix.value text reading →
    scan.status = reading.status radix.value
  agrees : ∀ reading, SpellsNumber radix.value text reading → scan.isNumber →
    scan.literal.Agrees radix reading

theorem NumberScan.accepts_of_walk {radix : Radix} {text : Bytes} {p : NumberProgress}
    (walked : NumberProgress.initial.walk radix text = some p) (short : text.length < UInt32.size)
    (length : Nat) : NumberScan.Accepts ⟨p.status, p.literal radix, length⟩ radix
      (significant text) := by
  have gathered : ∀ reading, SpellsNumber radix.value (significant text) reading →
      p.Gathered radix.value reading := by
    intro reading spells
    obtain ⟨q, again, gathered⟩ := NumberProgress.walk_number spells
    rw [NumberProgress.walk_significant, walked] at again
    rw [Option.some.inj again]
    exact gathered
  have short' : ∀ reading, SpellsNumber radix.value (significant text) reading →
      reading.digits.length < UInt32.size := by
    intro reading spells
    have within : (significant text).length ≤ text.length := List.length_filter_le _ _
    have counted := spells.digits_length_le
    omega
  refine ⟨NumberProgress.status_eq_malformed_iff.trans ⟨?_, ?_⟩, ?_, ?_⟩
  · rintro unfinished ⟨reading, spells⟩
    exact (gathered reading spells).finished unfinished
  · intro none
    by_contra finished
    exact none ((NumberProgress.reached_significant walked).spellsNumber finished)
  · intro reading spells
    exact (gathered reading spells).status_eq (short' reading spells)
  · intro reading spells isNumber
    apply (gathered reading spells).literal_agrees (short' reading spells)
    apply NumberReading.fits_of_status
    rw [← (gathered reading spells).status_eq (short' reading spells)]
    simpa [NumberScan.isNumber] using isNumber

theorem Reader.remaining_pass {reader : Reader} {taken rest : Bytes}
    (split : reader.remaining = taken ++ rest) :
    (reader.pass taken.length).position = reader.position + taken.length ∧
      (reader.pass taken.length).remaining = rest := by
  have total := congrArg List.length split
  rw [reader.length_remaining, List.length_append] at total
  have position_le := reader.position_le
  have position_eq : (reader.pass taken.length).position = reader.position + taken.length :=
    Nat.min_eq_left (by omega)
  refine ⟨position_eq, ?_⟩
  rw [remaining, position_eq, ← List.drop_drop]
  exact (congrArg (List.drop taken.length) split).trans List.drop_left

/-- A scan takes bytes for as long as they may follow and leaves the reader before the one that may
not. The literal is malformed just when the grammar does not have it; otherwise its outcome is that
of what it says, and a number that is given says the same. -/
theorem Reader.scanNumber_accepts (reader : Reader) (radix : Radix)
    (short : reader.buffer.size < UInt32.size) :
    let (scan, after) := reader.scanNumber radix
    ∃ taken rest, reader.remaining = taken ++ rest ∧
      after.buffer = reader.buffer ∧ after.position = reader.position + taken.length ∧
      after.remaining = rest ∧
      (∀ before b later, taken = before ++ b :: later →
        MayFollow radix.value (significant before) b) ∧
      (∀ b ∈ rest.head?, ¬MayFollow radix.value (significant taken) b) ∧
      scan.Accepts radix (significant taken) := by
  obtain ⟨taken, rest, split, walked, length_eq, stops⟩ :=
    NumberProgress.exists_walk radix .initial 0 reader.remaining
  rw [Nat.zero_add] at length_eq
  have passed_eq : (reader.scanNumber radix).2 = reader.pass taken.length :=
    congrArg reader.pass length_eq
  obtain ⟨position_eq, remaining_eq⟩ := remaining_pass split
  rw [← passed_eq] at position_eq remaining_eq
  -- A byte was taken or left as the state behind the bytes before it has it.
  refine ⟨taken, rest, split, rfl, position_eq, remaining_eq, ?_, ?_, ?_⟩
  · rintro before b later rfl
    rw [NumberProgress.walk_append] at walked
    obtain ⟨middle, before_eq, later_eq⟩ := Option.bind_eq_some_iff.mp walked
    rw [NumberProgress.walk_cons] at later_eq
    obtain ⟨next, step, _⟩ := Option.bind_eq_some_iff.mp later_eq
    rw [← NumberProgress.step?_isSome_iff_mayFollow before_eq, step]
    rfl
  · intro b isHead
    rw [← NumberProgress.step?_isSome_iff_mayFollow walked, stops b isHead]
    decide
  · have total := congrArg List.length split
    rw [reader.length_remaining, List.length_append] at total
    exact NumberScan.accepts_of_walk walked (by omega) _

/-- The second sign ends the literal, which has digits on both sides of its point. -/
theorem Reader.scanNumber_accepts_second_sign :
    let reader := Reader.ofBuffer ⟨0, Utf8.ofString "(1_2.5p-3-"⟩ 1
    let scan := (reader.scanNumber .decimal).1
    reader.buffer.size < UInt32.size ∧ scan.status = .float ∧ scan.literal.significand = 125 ∧
      scan.literal.precision = 1 ∧ scan.literal.exponent = -3 ∧ scan.length = 8 ∧
      ∃ taken rest, reader.remaining = taken ++ rest ∧ scan.Accepts .decimal (significant taken) := by
  intro reader scan
  obtain ⟨taken, rest, split, _, _, _, _, _, accepts⟩ := scanNumber_accepts reader .decimal (by decide)
  exact ⟨by decide, by decide, by decide, by decide, by decide, by decide, taken, rest, split, accepts⟩

end AssemblyLexer
