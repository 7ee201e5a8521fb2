import AssemblyLexer.Proofs.EscapeRun

/-!
The forms that an escape can have, and where the fault of a failed escape
stands. Scanning refuses a byte exactly where no form goes on with it.
-/

set_option autoImplicit false

namespace AssemblyLexer

namespace Escape

/-- The bytes of a complete escape behind its backslash, whatever code they give. -/
inductive Form : Bytes → Prop
  | single {b : Byte} (meant : (meaning? b).isSome) : Form [b]
  | pair {x high low : Byte} (letter : x = 0x58 ∨ x = 0x78) (isHigh : isDigit high)
      (isLow : isDigit low) : Form [x, high, low]
  | braced {u : Byte} {digits : Bytes} (letter : u = 0x55 ∨ u = 0x75) (nonempty : digits ≠ [])
      (all : ∀ d ∈ digits, isDigit d) : Form (u :: Byte.openBrace :: digits ++ [Byte.closeBrace])

/-- An escape can start with these bytes, and has to go on. -/
def Unfinished (bytes : Bytes) : Prop :=
  ∃ b more, Form (bytes ++ b :: more)

/-- No escape starts with these bytes. -/
def Refused (bytes : Bytes) : Prop :=
  ∀ more, ¬Form (bytes ++ more)

/-- Where the fault of a failed escape stands in the bytes behind the backslash. -/
inductive FaultAt : Bytes → Fault → Nat → Prop
  /-- No escape starts with the byte, which is not the start of a line break. -/
  | unknown {b : Byte} {after : Bytes} (refused : Refused [b]) (noBreak : b.isLineBreak = false) :
      FaultAt (b :: after) .unknownEscape 0
  /-- No escape goes on with the byte. -/
  | wrongByte {stem after : Bytes} {b : Byte} (unfinished : Unfinished stem)
      (refused : Refused (stem ++ [b])) (isBreak : stem = [] → b.isLineBreak) :
      FaultAt (stem ++ b :: after) .invalidEscape stem.length
  /-- The escape is complete but its code is not the code of a character. -/
  | outOfRange {u : Byte} {digits after : Bytes} (letter : u = 0x55 ∨ u = 0x75)
      (nonempty : digits ≠ []) (all : ∀ d ∈ digits, isDigit d)
      (notScalar : Utf8.isScalar (value digits) = false) :
      FaultAt (u :: Byte.openBrace :: digits ++ Byte.closeBrace :: after) .invalidEscape
        (digits.length + 3)
  /-- The source ends before the escape does. -/
  | incomplete {stem : Bytes} (unfinished : Unfinished stem) :
      FaultAt stem .incompleteEscape stem.length

theorem unfinished_nil : Unfinished [] :=
  ⟨Byte.backslash, [], .single rfl⟩

theorem unfinished_pair {x : Byte} {digits : Bytes} (letter : x = 0x58 ∨ x = 0x78)
    (all : ∀ d ∈ digits, isDigit d) (short : digits.length < 2) : Unfinished (x :: digits) := by
  match digits, short with
  | [], _ => exact ⟨0x30, [0x30], .pair letter rfl rfl⟩
  | [high], _ => exact ⟨0x30, [], .pair letter (all high (List.mem_singleton_self high)) rfl⟩

theorem refused_pair {x b : Byte} {digits : Bytes} (letter : x = 0x58 ∨ x = 0x78)
    (short : digits.length < 2) (wrong : isDigit b = false) :
    Refused (x :: digits ++ [b]) := by
  intro more form
  generalize bytes : x :: digits ++ [b] ++ more = whole at form
  cases form with
  | single => simp at bytes
  | pair _ isHigh isLow =>
    match digits, short with
    | [], _ => simp_all
    | [_], _ => simp_all
  | braced letter' =>
    have same := (List.cons.inj bytes).1
    rcases letter with rfl | rfl <;> rcases letter' with rfl | rfl <;>
      exact absurd same (by decide)

theorem braced_of_form {u : Byte} {rest : Bytes} (letter : u = 0x55 ∨ u = 0x75)
    (form : Form (u :: rest)) :
    ∃ digits, digits ≠ [] ∧ (∀ d ∈ digits, isDigit d) ∧
      rest = Byte.openBrace :: digits ++ [Byte.closeBrace] := by
  cases form with
  | single meant => rcases letter with rfl | rfl <;> exact absurd meant (by decide)
  | pair letter' => rcases letter with rfl | rfl <;> rcases letter' with h | h <;> simp at h
  | braced _ nonempty all => exact ⟨_, nonempty, all, rfl⟩

theorem unfinished_letter {u : Byte} (letter : u = 0x55 ∨ u = 0x75) : Unfinished [u] := by
  have all : ∀ d ∈ ([0x30] : Bytes), isDigit d := by
    intro d membership
    rw [List.mem_singleton.mp membership]
    rfl
  have form : Form (u :: Byte.openBrace :: [0x30] ++ [Byte.closeBrace]) :=
    .braced letter (List.cons_ne_nil _ _) all
  exact ⟨_, _, form⟩

theorem refused_letter {u b : Byte} (letter : u = 0x55 ∨ u = 0x75) (wrong : b ≠ Byte.openBrace) :
    Refused [u, b] := by
  intro more form
  obtain ⟨digits, _, _, bytes⟩ := braced_of_form letter form
  exact wrong (List.cons.inj bytes).1

theorem unfinished_braced {u : Byte} {digits : Bytes} (letter : u = 0x55 ∨ u = 0x75)
    (all : ∀ d ∈ digits, isDigit d) : Unfinished (u :: Byte.openBrace :: digits) := by
  have form : Form (u :: Byte.openBrace :: (digits ++ [0x30]) ++ [Byte.closeBrace]) := by
    apply Form.braced letter (by simp)
    intro d membership
    rcases List.mem_append.mp membership with inside | last
    · exact all d inside
    · rw [List.mem_singleton.mp last]
      rfl
  exact ⟨0x30, [Byte.closeBrace], by simpa using form⟩

theorem refused_braced {u b : Byte} {digits : Bytes} (letter : u = 0x55 ∨ u = 0x75)
    (all : ∀ d ∈ digits, isDigit d) (wrong : isDigit b = false)
    (unclosed : digits ≠ [] → b ≠ Byte.closeBrace) :
    Refused (u :: Byte.openBrace :: digits ++ [b]) := by
  intro more form
  obtain ⟨digits', nonempty, all', bytes⟩ := braced_of_form letter form
  have inside : digits ++ b :: more = digits' ++ [Byte.closeBrace] := by
    simpa using (List.cons.inj bytes).2
  have stops : StopsClass isDigit (b :: more) := by simpa [StopsClass] using wrong
  have stops' : StopsClass isDigit [Byte.closeBrace] := by simp [StopsClass]; decide
  have same : digits = digits' := by
    rw [← takeWhile_append_of_stopsClass all stops, inside,
      takeWhile_append_of_stopsClass all' stops']
  subst same
  have closes := (List.cons.inj (List.append_cancel_left inside)).1
  exact unclosed nonempty closes

/-- Everything that scanning can make of the bytes behind a backslash. -/
inductive Outcome : Bytes → Escape → Prop
  | single {b meant : Byte} {after : Bytes} (means : meaning? b = some meant) :
      Outcome (b :: after) ⟨1, .ok [meant]⟩
  | pair {x high low : Byte} {after : Bytes} (letter : x = 0x58 ∨ x = 0x78)
      (isHigh : isDigit high) (isLow : isDigit low) :
      Outcome (x :: high :: low :: after) (coded 3 (value [high, low]))
  | braced {u : Byte} {digits after : Bytes} (letter : u = 0x55 ∨ u = 0x75)
      (nonempty : digits ≠ []) (all : ∀ d ∈ digits, isDigit d) :
      Outcome (u :: Byte.openBrace :: digits ++ Byte.closeBrace :: after)
        (coded (digits.length + 3) (value digits))
  | unknown {b : Byte} {after : Bytes} (refused : Refused [b]) (noBreak : b.isLineBreak = false) :
      Outcome (b :: after) (failed 1 0 .unknownEscape)
  | broken {stem after : Bytes} (unfinished : Unfinished stem)
      (refused : ∀ b ∈ after.head?, Refused (stem ++ [b]))
      (isBreak : stem = [] → ∀ b ∈ after.head?, b.isLineBreak)
      (inside : ∀ d ∈ stem.tail, isDigit d ∨ d = Byte.openBrace) :
      Outcome (stem ++ after) (broken stem.length after)

theorem refused_of_meaning? {b : Byte} (notPair : ¬(b = 0x58 ∨ b = 0x78))
    (notBraced : ¬(b = 0x55 ∨ b = 0x75)) (meaningless : meaning? b = none) : Refused [b] := by
  intro more form
  cases form with
  | single meant => simp [meaningless] at meant
  | pair letter => exact notPair letter
  | braced letter => exact notBraced letter

theorem refused_lineBreak {b : Byte} (isBreak : b.isLineBreak) : Refused [b] := by
  have either : b = Byte.lineFeed ∨ b = Byte.carriageReturn := by
    simpa [Byte.isLineBreak] using isBreak
  rcases either with rfl | rfl <;>
    exact refused_of_meaning? (by decide) (by decide) (by decide)

theorem scan_outcome (bytes : Bytes) : Outcome bytes (scan bytes) := by
  match bytes with
  | [] => exact .broken unfinished_nil (by simp) (by simp) (by simp)
  | b :: rest =>
    by_cases isPair : b = 0x58 ∨ b = 0x78
    · rcases scan_pair_cases isPair rest with
        ⟨high, low, after, rfl, isHigh, isLow, scanned⟩ |
        ⟨digits, after, rfl, short, all, stops, scanned⟩
      · rw [scanned]
        exact .pair isPair isHigh isLow
      · rw [scanned]
        refine .broken (unfinished_pair isPair all short) ?_ (by simp) fun d inside => .inl (all d inside)
        intro b head
        exact refused_pair isPair short (stops b head)
    · by_cases isBraced : b = 0x55 ∨ b = 0x75
      · rcases scan_braced_cases isBraced rest with
          ⟨stops, scanned⟩ |
          ⟨digits, after, rfl, nonempty, all, scanned⟩ |
          ⟨digits, after, rfl, all, stops, unclosed, scanned⟩
        · rw [scanned]
          refine .broken (unfinished_letter isBraced) ?_ (by simp) (by simp)
          intro b head
          exact refused_letter isBraced (by simpa using stops b head)
        · rw [scanned]
          exact .braced isBraced nonempty all
        · rw [scanned]
          refine .broken (unfinished_braced isBraced all) ?_ (by simp) ?_
          · intro b head
            refine refused_braced isBraced all (stops b head) fun nonempty closes => ?_
            exact unclosed nonempty (closes ▸ head)
          · simpa using fun d membership => .inl (all d membership)
      · rw [scan_other isPair isBraced]
        by_cases isBreak : b.isLineBreak
        · rw [if_pos isBreak]
          exact @Outcome.broken [] (b :: rest) unfinished_nil
            (by simpa using refused_lineBreak isBreak) (by simpa using isBreak) (by simp)
        · rw [if_neg isBreak]
          cases means : meaning? b with
          | none =>
            exact .unknown (refused_of_meaning? isPair isBraced means) (by simpa using isBreak)
          | some meant => exact .single means

/-- The code of a pair is never out of range. -/
theorem isScalar_pair {high low : Byte} (isHigh : isDigit high) (isLow : isDigit low) :
    Utf8.isScalar (value [high, low]) := by
  obtain ⟨h, highValue⟩ := Option.isSome_iff_exists.mp isHigh
  obtain ⟨l, lowValue⟩ := Option.isSome_iff_exists.mp isLow
  have highBound := Byte.digitValue?_lt highValue
  have lowBound := Byte.digitValue?_lt lowValue
  have small : value [high, low] < 0xD800 := by
    simp only [value, List.filterMap_cons, List.filterMap_nil, highValue, lowValue,
      List.foldl_cons, List.foldl_nil]
    omega
  simp [Utf8.isScalar, small]

theorem scan_fault {bytes : Bytes} {finding : Finding}
    (failure : (scan bytes).outcome = .error finding) :
    FaultAt bytes finding.fault finding.offset ∧ finding.offset ≤ (scan bytes).length := by
  have outcome := scan_outcome bytes
  generalize scan bytes = escape at outcome failure
  cases outcome with
  | single => cases failure
  | pair letter isHigh isLow =>
    rw [coded_of_isScalar (isScalar_pair isHigh isLow)] at failure
    cases failure
  | @braced u digits after letter nonempty all =>
    cases scalar : Utf8.isScalar (value digits) with
    | true =>
      rw [coded_of_isScalar scalar] at failure
      cases failure
    | false =>
      rw [coded_of_not_isScalar scalar] at failure ⊢
      cases failure
      exact ⟨.outOfRange letter nonempty all scalar, Nat.le_refl _⟩
  | unknown refused noBreak =>
    cases failure
    exact ⟨.unknown refused noBreak, Nat.zero_le _⟩
  | @broken stem after unfinished refused isBreak inside =>
    cases failure
    refine ⟨?_, Nat.le_refl _⟩
    cases after with
    | nil =>
      rw [List.append_nil]
      exact .incomplete unfinished
    | cons b after =>
      exact .wrongByte unfinished (refused b rfl) fun empty => isBreak empty b rfl

/-- What an escape takes behind its first byte has neither a quote nor a backslash, and it takes
nothing only before a line break or the end. -/
theorem scan_takes (bytes : Bytes) :
    ((scan bytes).length = 0 ∧ ∀ b ∈ bytes.head?, b.isLineBreak) ∨
      ∃ b inside, bytes.take (scan bytes).length = b :: inside ∧
        ∀ d ∈ inside, isDigit d ∨ d = Byte.openBrace ∨ d = Byte.closeBrace := by
  have outcome := scan_outcome bytes
  generalize scan bytes = escape at outcome
  cases outcome with
  | @single b => exact .inr ⟨b, [], rfl, by simp⟩
  | @pair x high low after letter isHigh isLow =>
    exact .inr ⟨x, [high, low], by simp [length_coded], by simp [isHigh, isLow]⟩
  | @braced u digits after letter nonempty all =>
    refine .inr ⟨u, Byte.openBrace :: digits ++ [Byte.closeBrace], ?_, ?_⟩
    · rw [length_coded]
      simp [List.take_append, List.take_of_length_le]
    · simp only [List.cons_append, List.mem_cons, List.mem_append, List.not_mem_nil, or_false]
      rintro d (opens | inside | closes)
      · exact .inr (.inl opens)
      · exact .inl (all d inside)
      · exact .inr (.inr closes)
  | @unknown b => exact .inr ⟨b, [], rfl, by simp⟩
  | @broken stem after unfinished refused isBreak inside =>
    rw [length_broken]
    cases stem with
    | nil => exact .inl ⟨rfl, isBreak rfl⟩
    | cons b stem =>
      refine .inr ⟨b, stem, List.take_left, fun d membership => ?_⟩
      exact (inside d membership).imp_right .inl

theorem scan_of_meaning? {b meant : Byte} (means : meaning? b = some meant) (after : Bytes) :
    scan (b :: after) = ⟨1, .ok [meant]⟩ := by
  have meant' : (meaning? b).isSome := by simp [means]
  have notPair : ¬(b = 0x58 ∨ b = 0x78) := by
    rintro (rfl | rfl) <;> exact absurd meant' (by decide)
  have notBraced : ¬(b = 0x55 ∨ b = 0x75) := by
    rintro (rfl | rfl) <;> exact absurd meant' (by decide)
  have noBreak : ¬b.isLineBreak := by
    intro isBreak
    exact refused_lineBreak isBreak [] (.single meant')
  rw [scan_other notPair notBraced, if_neg noBreak, means]

theorem broken_congr {after after' : Bytes} (same : after'.head? = after.head?) (length : Nat) :
    broken length after' = broken length after := by
  have isEmpty_eq : after'.isEmpty = after.isEmpty := by
    cases after <;> cases after' <;> simp_all
  rw [broken, broken, isEmpty_eq]

/-- An escape looks no further than the byte behind it. -/
theorem scan_take_append {bytes after' : Bytes}
    (same : after'.head? = (bytes.drop (scan bytes).length).head?) :
    scan (bytes.take (scan bytes).length ++ after') = scan bytes := by
  match bytes with
  | [] =>
    have none_left : after' = [] := List.head?_eq_none_iff.mp same
    rw [none_left]
    rfl
  | b :: rest =>
    by_cases isPair : b = 0x58 ∨ b = 0x78
    · rcases scan_pair_cases isPair rest with
        ⟨high, low, after, rfl, isHigh, isLow, scanned⟩ |
        ⟨digits, after, rfl, short, all, stops, scanned⟩
      · rw [scanned, length_coded]
        exact scan_of_pair isPair isHigh isLow after'
      · rw [scanned, length_broken, List.drop_succ_cons, List.drop_left] at same
        rw [scanned, length_broken, List.take_succ_cons, List.take_left,
          scan_of_short_pair isPair short all (stops.congr same), broken_congr same]
    · by_cases isBraced : b = 0x55 ∨ b = 0x75
      · rcases scan_braced_cases isBraced rest with
          ⟨stops, scanned⟩ |
          ⟨digits, after, rfl, nonempty, all, scanned⟩ |
          ⟨digits, after, rfl, all, stops, unclosed, scanned⟩
        · rw [scanned, length_broken, List.drop_succ_cons, List.drop_zero] at same
          rw [scanned, length_broken, List.take_succ_cons, List.take_zero, List.cons_append,
            List.nil_append, scan_of_noBrace isBraced (stops.congr same), broken_congr same]
        · have taken : (b :: Byte.openBrace :: digits ++ Byte.closeBrace :: after).take
              (digits.length + 3) = b :: Byte.openBrace :: digits ++ [Byte.closeBrace] := by
            simp [List.take_append, List.take_of_length_le]
          rw [List.cons_append, List.cons_append] at taken
          rw [scanned, length_coded, List.cons_append, taken, List.append_assoc]
          exact scan_of_braced isBraced nonempty all after'
        · rw [scanned, length_broken, List.cons_append, List.drop_succ_cons, List.drop_succ_cons,
            List.drop_left] at same
          rw [scanned, length_broken, List.cons_append, List.take_succ_cons, List.take_succ_cons,
            List.take_left, scan_of_unclosed isBraced all (stops.congr same) (same ▸ unclosed),
            broken_congr same]
      · have scanned := scan_other isPair isBraced
        by_cases isBreak : b.isLineBreak
        · rw [scanned, if_pos isBreak, length_broken, List.drop_zero] at same
          obtain ⟨rest', rfl⟩ := List.head?_eq_some_iff.mp same
          rw [scanned rest, if_pos isBreak, length_broken, List.take_zero, List.nil_append, scanned,
            if_pos isBreak, broken_congr same]
        · rw [scanned rest, if_neg isBreak]
          cases means : meaning? b with
          | none =>
            dsimp only [failed]
            rw [List.take_succ_cons, List.cons_append, scanned, if_neg isBreak, means]
            rfl
          | some meant => exact scan_of_meaning? means after'

end Escape

end AssemblyLexer
