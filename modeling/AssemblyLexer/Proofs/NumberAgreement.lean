import AssemblyLexer.Proofs.DigitRun
import AssemblyLexer.Proofs.SelfDelimiting

/-!
The two scans of numbers side by side. They take digits and underscores in step and
gather the same from them. Where the run of digits ends, the scan of a literal ends
with it or takes a byte that makes it something else than an integer.
-/

set_option autoImplicit false

namespace AssemblyLexer

theorem Radix.digit?_eq_some_iff {radix : Radix} {b : Byte} {value : Nat} :
    radix.digit? b = some value ↔ b.digitValue? = some value ∧ value < radix.value := by
  rw [digit?, Option.filter_eq_some_iff, decide_eq_true_eq]

theorem Radix.inRun_of_digit {radix : Radix} {b : Byte} {value : Nat}
    (digit : b.digitValue? = some value ∧ value < radix.value) : radix.inRun b := by
  rw [inRun, digit?_eq_some_iff.mpr digit]
  rfl

namespace NumberProgress

variable {radix : Radix} {taken : Bytes} {p p' : DigitProgress} {q q' : NumberProgress} {b : Byte}

/-- A literal that is no integer any more. -/
def Beyond (q : NumberProgress) : Prop :=
  q.phase ≠ .beforeDigits ∧ q.phase ≠ .integerDigits

theorem beyond_of_malformed (lost : q.phase = .malformed) : q.Beyond := by
  rw [Beyond, lost]
  constructor <;> rintro ⟨⟩

/-- There is no way back to an integer. -/
theorem Beyond.step (beyond : q.Beyond) (step : q.step? radix b = some q') : q'.Beyond := by
  rw [step?] at step
  have takes := takes_of_take? step
  generalize NumberSymbol.ofByte _ b = symbol at takes
  cases takes with
  | separator => exact beyond
  | integerDigit here | point here => exact (here.elim beyond.1 beyond.2).elim
  | fractionDigit | exponent | plus | minus | exponentDigit =>
    constructor <;> rintro ⟨⟩
  | astray lost => exact beyond_of_malformed lost

theorem Beyond.run (beyond : q.Beyond) (radix : Radix) (count : Nat) (bytes : Bytes) :
    (q.run radix count bytes).1.Beyond := by
  fun_induction NumberProgress.run radix q count bytes with
  | case1 => exact beyond
  | case2 q count b rest next step ih => exact ih (beyond.step step)
  | case3 => exact beyond

theorem Beyond.status_ne (beyond : q.Beyond) : q.status ≠ .integer := by
  unfold status
  repeat' split
  all_goals
    first
    | next here => exact absurd here beyond.1
    | next here => exact absurd here beyond.2
    | decide

/-- Both scans have gone over the same bytes, all of them digits or underscores, and have gathered
the same. -/
structure Alike (radix : Radix) (taken : Bytes) (p : DigitProgress) (q : NumberProgress) : Prop where
  here : q.phase = .beforeDigits ∨ q.phase = .integerDigits
  significand_eq : q.significand = p.total
  total_eq : p.total = .ofDigits radix.value (radix.digits taken)
  count_eq : p.count = .ofNat (radix.digits taken).length
  digits_eq : q.digits = .ofNat (radix.digits taken).length
  exponent_eq : q.exponent = .zero

theorem alike_initial (radix : Radix) : Alike radix [] .initial initial :=
  ⟨.inl rfl, rfl, rfl, rfl, rfl, rfl⟩

theorem Alike.not_inExponent (alike : Alike radix taken p q) : q.phase.inExponent = false := by
  rcases alike.here with here | here <;> rw [here] <;> rfl

/-- What the run of digits takes, the literal takes as well. -/
theorem Alike.step (alike : Alike radix taken p q) (step : p.step? radix b = some p') :
    ∃ q', q.step? radix b = some q' ∧ Alike radix (taken ++ [b]) p' q' := by
  obtain ⟨here, significand_eq, total_eq, count_eq, digits_eq, exponent_eq⟩ := alike
  rw [DigitProgress.step?] at step
  cases digit : radix.digit? b with
  | some value =>
    rw [digit] at step
    cases step
    have more : radix.digits (taken ++ [b]) = radix.digits taken ++ [value] := by
      simp [Radix.digits, digit]
    refine ⟨_, (gathers_integerDigit radix).step_eq here (Radix.digit?_eq_some_iff.mp digit),
      .inr rfl, ?_, ?_, ?_, ?_, exponent_eq⟩
    · rw [integerDigit, significand_eq]
    · rw [more, Accumulator.ofDigits, List.foldl_append, total_eq]
      rfl
    · rw [more, List.length_append, count_eq, UInt8.ofNat_add]
      rfl
    · rw [more, List.length_append, integerDigit, digits_eq, UInt32.ofNat_add]
      rfl
  | none =>
    obtain ⟨rfl, rfl⟩ : b = Byte.underscore ∧ p = p' := by simpa [digit] using step
    have same : radix.digits (taken ++ [Byte.underscore]) = radix.digits taken := by
      simp [Radix.digits, digit]
    rw [← same] at total_eq count_eq digits_eq
    exact ⟨q, step?_underscore radix q, here, significand_eq, total_eq, count_eq, digits_eq,
      exponent_eq⟩

/-- A byte that is in no name ends both. -/
theorem Alike.stops (alike : Alike radix taken p q) (outside : ¬b.isNamePart) :
    q.step? radix b = none := by
  rw [step?_eq_none_iff]
  refine ⟨outside, fun sign => ?_⟩
  rcases alike.here with here | here <;> cases here.symm.trans sign.2

theorem Alike.run_eq_of_outside (alike : Alike radix taken p q) {rest : Bytes}
    (outside : ∀ b ∈ rest.head?, ¬b.isNamePart) (count : Nat) :
    q.run radix count rest = (q, count) :=
  run_of_stops (fun b isHead => alike.stops (outside b isHead)) count

/-- A byte that ends the run of digits but may stand in a name leads beyond the integers. -/
theorem Alike.exceeds (alike : Alike radix taken p q) (ends : radix.inRun b = false)
    (isPart : b.isNamePart) : ∃ q', q.step? radix b = some q' ∧ q'.Beyond := by
  have taken : q.step? radix b ≠ none := by
    rw [Ne, step?_eq_none_iff]
    exact fun none => none.1 isPart
  obtain ⟨q', step⟩ := Option.ne_none_iff_exists'.mp taken
  refine ⟨q', step, ?_⟩
  rw [step?, if_neg (by rw [alike.not_inExponent]; exact Bool.false_ne_true)] at step
  have describes := NumberSymbol.describes_ofByte radix.value b
  have takes := takes_of_take? step
  generalize NumberSymbol.ofByte radix.value b = symbol at describes takes
  cases takes with
  | separator =>
    obtain rfl : b = Byte.underscore := describes
    simp [Radix.inRun] at ends
  | integerDigit => cases ends.symm.trans (Radix.inRun_of_digit describes)
  | point | fractionDigit | exponent | plus | minus | exponentDigit =>
    constructor <;> rintro ⟨⟩
  | astray lost => exact beyond_of_malformed lost

theorem Alike.run_exceeds (alike : Alike radix taken p q) {rest : Bytes}
    (ends : StopsClass radix.inRun rest) (isHead : b ∈ rest.head?) (isPart : b.isNamePart)
    (count : Nat) : (q.run radix count rest).1.Beyond ∧ count < (q.run radix count rest).2 := by
  obtain ⟨later, rfl⟩ := List.head?_eq_some_iff.mp isHead
  obtain ⟨q', step, beyond⟩ := alike.exceeds (ends b rfl) isPart
  rw [NumberProgress.run, step]
  exact ⟨beyond.run radix (count + 1) later, (q'.run_taken radix (count + 1) later).1⟩

/-- The scan of a literal comes to where the run of digits ends, and goes on from there. -/
theorem Alike.exists_run (alike : Alike radix taken p q) (count : Nat) (bytes : Bytes) :
    ∃ text rest q', bytes = text ++ rest ∧ (p.run radix count bytes).2 = count + text.length ∧
      Alike radix (taken ++ text) (p.run radix count bytes).1 q' ∧
      StopsClass radix.inRun rest ∧
      q.run radix count bytes = q'.run radix (count + text.length) rest := by
  fun_induction DigitProgress.run radix p count bytes generalizing taken q with
  | case1 p count =>
    refine ⟨[], [], q, rfl, rfl, ?_, ?_, rfl⟩
    · rwa [List.append_nil]
    · simp [StopsClass]
  | case2 p count b rest next step ih =>
    obtain ⟨q', step', alike'⟩ := alike.step step
    obtain ⟨text, after, last, rfl, length_eq, alike'', stops, run_eq⟩ := ih alike'
    have count_eq : count + 1 + text.length = count + (b :: text).length := by
      rw [List.length_cons]
      omega
    refine ⟨b :: text, after, last, rfl, length_eq.trans count_eq, ?_, stops, ?_⟩
    · rwa [List.append_assoc] at alike''
    · rw [NumberProgress.run, step']
      exact run_eq.trans (congrArg (last.run radix · after) count_eq)
  | case3 p count b rest step =>
    refine ⟨[], b :: rest, q, rfl, rfl, ?_, ?_, rfl⟩
    · rwa [List.append_nil]
    · exact stopsClass_cons.mpr (DigitProgress.step?_eq_none_iff.mp step)

theorem Alike.digits_toNat (alike : Alike radix taken p q)
    (short : (radix.digits taken).length < UInt32.size) :
    q.digits.toNat = (radix.digits taken).length := by
  rw [alike.digits_eq, UInt32.toNat_ofNat_of_lt' short]

/-- What comes of a literal that ends with the run of digits. -/
theorem Alike.status_eq (alike : Alike radix taken p q)
    (short : (radix.digits taken).length < UInt32.size) :
    q.status =
      if radix.digits taken = [] then .noDigits
      else if UInt64.size ≤ radix.number taken then .overflow
      else .integer := by
  have digits_toNat := alike.digits_toNat short
  obtain ⟨here, significand_eq, total_eq, _, _, exponent_eq⟩ := alike
  have digits_zero : q.digits = 0 ↔ radix.digits taken = [] := by
    rw [← UInt32.toNat_inj, digits_toNat, ← List.length_eq_zero_iff]
    rfl
  have overflowed_iff : q.significand.overflowed ↔ UInt64.size ≤ radix.number taken := by
    rw [significand_eq, total_eq]
    exact (Accumulator.keeps_ofDigits radix.value_pos _).overflowed_iff
  have finished : q.phase.isUnfinished = false := by
    rcases here with here | here <;> rw [here] <;> rfl
  have fits : (q.exponent.overflowed || q.exponent?.isNone) = false := by
    rw [exponent?, exponent_eq]
    cases q.exponentNegative <;> rfl
  rw [status, finished, fits]
  simp only [digits_zero, overflowed_iff, Bool.false_eq_true, if_false]
  rcases here with here | here <;> rw [here]

end NumberProgress

/-- The scan of a literal finds the number of the run of digits and nothing more. -/
structure NumberScan.Agrees (scan : NumberScan) (run : DigitRun) (radix : Radix) (taken : Bytes) :
    Prop where
  length_eq : scan.length = run.length
  significand_eq : scan.literal.significand = run.value
  count_eq : run.count.toNat =
    if UInt64.size ≤ radix.number taken then 0 else scan.literal.digits.toNat % UInt8.size
  status_eq : scan.status =
    if radix.digits taken = [] then .noDigits
    else if UInt64.size ≤ radix.number taken then .overflow
    else .integer

/-- The scan of a literal takes more than the run of digits and finds no integer. -/
structure NumberScan.Exceeds (scan : NumberScan) (run : DigitRun) : Prop where
  length_lt : run.length < scan.length
  status_ne : scan.status ≠ .integer

open NumberProgress in
/-- The run of digits decides with the byte behind it what the scan of a literal makes of it. -/
theorem NumberScan.agrees_or_exceeds (radix : Radix) {bytes taken rest : Bytes}
    (split : bytes = taken ++ rest) (gives : (DigitRun.scan radix bytes).Gives radix taken)
    (short : taken.length < UInt32.size) :
    ((∀ b ∈ rest.head?, ¬b.isNamePart) →
        (scan radix bytes).Agrees (DigitRun.scan radix bytes) radix taken) ∧
      ∀ b ∈ rest.head?, b.isNamePart → (scan radix bytes).Exceeds (DigitRun.scan radix bytes) := by
  obtain ⟨text, rest', q, split', length_eq, alike, stops, run_eq⟩ :=
    (alike_initial radix).exists_run 0 bytes
  have result_eq := DigitRun.scan_eq_result radix bytes
  generalize DigitProgress.initial.run radix 0 bytes = ended at length_eq alike result_eq
  -- Both runs of digits are of the same length, so that they are the same.
  obtain ⟨rfl, rfl⟩ : taken = text ∧ rest = rest' := by
    apply List.append_inj (split.symm.trans split')
    rw [← gives.length_eq, ← Nat.zero_add text.length, ← length_eq, result_eq]
    rfl
  rw [List.nil_append] at alike
  rw [Nat.zero_add] at run_eq length_eq
  constructor
  · intro outside
    have counted : (radix.digits taken).length ≤ taken.length := List.length_filterMap_le _ _
    have short' := Nat.lt_of_le_of_lt counted short
    rw [alike.run_eq_of_outside outside] at run_eq
    rw [scan, run_eq]
    refine ⟨?_, ?_, ?_, alike.status_eq short'⟩
    · rw [result_eq]
      exact length_eq.symm
    · rw [result_eq]
      exact congrArg Accumulator.value alike.significand_eq
    · have digits_toNat : (q.literal radix).digits.toNat = _ := alike.digits_toNat short'
      rw [gives.count_eq, digits_toNat]
      split
      · rfl
      · exact UInt8.toNat_ofNat'
  · intro b isHead isPart
    obtain ⟨beyond, further⟩ := alike.run_exceeds stops isHead isPart taken.length
    rw [← run_eq] at beyond further
    rw [scan, result_eq]
    refine ⟨?_, beyond.status_ne⟩
    rw [← length_eq] at further
    exact further

/-- Where the run of digits ends before a byte that is in no name, or with the buffer, the scan of
a literal ends too, with the same number and the same digits. Any other byte that ends the run is
taken by the scan of a literal, which then finds no integer. -/
theorem Reader.scanNumber_agrees (reader : Reader) (radix : Radix)
    (short : reader.buffer.size < UInt32.size) :
    let (run, behind) := reader.scanDigits radix
    let (scan, after) := reader.scanNumber radix
    ∃ taken, reader.remaining = taken ++ behind.remaining ∧
      behind.position = reader.position + taken.length ∧
      ((∀ b ∈ behind.remaining.head?, ¬b.isNamePart) →
        after = behind ∧ scan.Agrees run radix taken) ∧
      ∀ b ∈ behind.remaining.head?, b.isNamePart →
        behind.position < after.position ∧ scan.status ≠ .integer := by
  obtain ⟨taken, rest, split, passed_eq, position_eq, remaining_eq, _, _, gives⟩ :=
    reader.exists_scanDigits radix
  have total := congrArg List.length split
  rw [reader.length_remaining, List.length_append] at total
  obtain ⟨agrees, exceeds⟩ := NumberScan.agrees_or_exceeds radix split gives (by omega)
  dsimp only
  rw [remaining_eq]
  refine ⟨taken, split, position_eq, ?_, ?_⟩
  · intro outside
    have same := agrees outside
    refine ⟨?_, same⟩
    rw [passed_eq, ← gives.length_eq]
    exact congrArg reader.pass same.length_eq
  · intro b isHead isPart
    obtain ⟨length_lt, status_ne⟩ := exceeds b isHead isPart
    have length_eq : (DigitRun.scan radix reader.remaining).length = _ := gives.length_eq
    have within := NumberScan.length_le radix reader.remaining
    rw [reader.length_remaining] at within
    rw [length_eq] at length_lt
    refine ⟨?_, status_ne⟩
    rw [position_eq]
    change _ < min _ _
    have position_le := reader.position_le
    omega

/-- A sign ends both scans behind the same number. -/
theorem Reader.scanNumber_agrees_before_sign :
    let reader := Reader.ofBuffer ⟨0, Utf8.ofString "(1_2+3"⟩ 1
    let (run, behind) := reader.scanDigits .octal
    let (scan, after) := reader.scanNumber .octal
    reader.buffer.size < UInt32.size ∧ after = behind ∧ run.value = 10 ∧
      scan.literal.significand = run.value ∧ scan.status = .integer := by
  intro reader
  obtain ⟨taken, _, _, agrees, _⟩ := scanNumber_agrees reader .octal (by decide)
  have stops : (reader.scanDigits .octal).2.remaining.head? = some 0x2B := by decide
  have outside : ∀ b ∈ (reader.scanDigits .octal).2.remaining.head?, ¬b.isNamePart := by
    rw [stops]
    rintro b ⟨⟩
    decide
  obtain ⟨same, agree⟩ := agrees outside
  exact ⟨by decide, same, by decide, agree.significand_eq, by decide⟩

end AssemblyLexer
