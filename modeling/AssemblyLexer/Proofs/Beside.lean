import AssemblyLexer.Proofs.FaultPlace
import AssemblyLexer.Proofs.Lookahead
import AssemblyLexer.Proofs.Unbroken

/-!
What a space can stand for. A byte that neither breaks a line nor belongs to the
segment before it may as well be a space, as far as that segment goes; comments
and unexpected bytes hold no other bytes, and nothing comes of them.
-/

set_option autoImplicit false

namespace AssemblyLexer

/-- A space stands where a byte stood that neither breaks a line nor stands inside of anything, if
not the same byte. -/
inductive Beside (behind after : Bytes) : Prop
  | sameHead (same : after.head? = behind.head?)
  | space {b : Byte} (before : behind.head? = some b) (goesOn : b.isLineBreak = false)
      (now : after.head? = some Byte.space)

namespace Segment

variable {fresh : Bool} {first : Byte} {rest after : Bytes}

/-- Only a line break can follow a comment. -/
theorem stops_comment (rest : Bytes) :
    StopsClass (fun b => !b.isLineBreak) (rest.drop (comment rest).tail) := by
  have tail_eq : (comment rest).tail = (rest.takeWhile fun b => !b.isLineBreak).length := rfl
  rw [tail_eq, drop_takeWhile]
  exact stopsClass_dropWhile rest

theorem backslash_before_space {b : Byte}
    (before : (rest.drop (backslash rest).tail).head? = some b)
    (now : after.head? = some Byte.space) :
    backslash (rest.take (backslash rest).tail ++ after) = backslash rest := by
  obtain ⟨later, rfl⟩ := List.head?_eq_some_iff.mp now
  cases rest with
  | nil => cases before
  | cons d rest =>
    by_cases isBreak : d.isLineBreak
    · have scanned : ∀ more, backslash (d :: more) =
          skipped .continuation (breakTail d more + 1) := fun more => if_pos isBreak
      have unpaired : d = Byte.carriageReturn → (Byte.space :: later).head? = some Byte.lineFeed →
          rest.head? = some Byte.lineFeed :=
        fun _ isFeed => absurd (Option.some.inj isFeed) (by decide)
      simp only [scanned, skipped, List.take_succ_cons, List.cons_append,
        breakTail_take_append unpaired]
    · have stray : backslash (d :: rest) = faulty .strayBackslash 0 .strayBackslash := if_neg isBreak
      rw [stray]
      rfl

/-- A segment is the same before a space as before a byte that does not belong to it. -/
theorem scan_before_space {b : Byte}
    (before : (rest.drop (scan fresh first rest).tail).head? = some b)
    (goesOn : b.isLineBreak = false) (now : after.head? = some Byte.space) :
    scan fresh first (rest.take (scan fresh first rest).tail ++ after) = scan fresh first rest := by
  have delimits (behind : Bytes) : Delimits behind after := by
    intro d isHead
    exact .inl (Option.some.inj (isHead.symm.trans now))
  have unpaired : first = Byte.carriageReturn → after.head? = some Byte.lineFeed →
      rest.head? = some Byte.lineFeed := fun _ isFeed => nomatch now.symm.trans isFeed
  have selects := selects_scan fresh first
  generalize scan fresh first = scanner at selects before ⊢
  cases selects with
  | blank => rfl
  | word => exact word_take_append (delimits _)
  | decimal isDigit => exact decimal_take_append isDigit (delimits _)
  | lineBreak => exact lineBreak_take_append fresh unpaired
  | comment =>
    have isBreak := stops_comment rest b before
    simp [goesOn] at isBreak
  | backslash => exact backslash_before_space before now
  | semicolon => rfl
  | parameter => exact parameter_take_append (delimits _)
  | operator => exact operator_take_append (delimits _)
  | quoted =>
    cases isClosed : (Quoted.scan first rest).closed with
    | true => exact quoted_take_append isClosed after
    | false =>
      have length_eq := Quoted.scanFrom_length_of_open first 0 [] [] rest isClosed
      rw [tail_quoted, Quoted.scan, length_eq, Nat.zero_add, List.drop_length] at before
      cases before

theorem scan_beside (beside : Beside (rest.drop (scan fresh first rest).tail) after) :
    scan fresh first (rest.take (scan fresh first rest).tail ++ after) = scan fresh first rest := by
  cases beside with
  | sameHead same => exact scan_resembling (.sameHead same)
  | space before goesOn now => exact scan_before_space before goesOn now

theorem scan_of_isOther (isOther : first.isOther) (fresh : Bool) (rest : Bytes) :
    scan fresh first rest = operator first rest := by
  simp only [Byte.isOther, Bool.not_eq_true', Bool.or_eq_false_iff, beq_eq_false_iff_ne] at isOther
  simp [scan, isOther]

/-- Only a byte that can start nothing is reported as unexpected. -/
theorem isUnexpected_of_finding {finding : Finding} (found : finding ∈ (scan fresh first rest).findings)
    (isFault : finding.fault = .unexpectedCharacter) : first.isUnexpected := by
  have faultAt := (founded_scan fresh first rest finding found).1
  rw [isFault] at faultAt
  generalize bytes_eq : first :: rest = bytes, finding.offset = offset at faultAt
  cases faultAt with
  | escape _ _ within => cases within
  | construct opens =>
    cases opens with
    | unexpected isUnexpected =>
      obtain ⟨rfl, rfl⟩ := List.cons.inj bytes_eq
      exact isUnexpected
    | character content => simp at content
    | number numeric => simp at numeric

/-- A segment that is a comment or an unexpected byte, with its first byte and what follows. -/
inductive Idle : Byte → Bytes → Segment → Prop
  | comment {rest : Bytes} : Idle Byte.hash rest (comment rest)
  | unexpected {first : Byte} {rest : Bytes} (goesOn : first.isLineBreak = false) :
      Idle first rest (faulty .unexpected 0 .unexpectedCharacter)

theorem scan_of_isUnexpected (isUnexpected : first.isUnexpected) (fresh : Bool) (rest : Bytes) :
    scan fresh first rest = faulty .unexpected 0 .unexpectedCharacter := by
  obtain ⟨isOther, none⟩ := Bool.and_eq_true_iff.mp isUnexpected
  rw [scan_of_isOther isOther, operator, Option.isNone_iff_eq_none.mp none]

theorem idle_of_isUnexpected (isUnexpected : first.isUnexpected) (fresh : Bool) (rest : Bytes) :
    Idle first rest (scan fresh first rest) := by
  have goesOn : first.isLineBreak = false := by
    have isOther := (Bool.and_eq_true_iff.mp isUnexpected).1
    simp only [Byte.isOther, Bool.not_eq_true', Bool.or_eq_false_iff] at isOther
    exact isOther.1.1.1.1.1.1.2
  rw [scan_of_isUnexpected isUnexpected]
  exact .unexpected goesOn

namespace Idle

variable {s : Segment}

theorem token?_eq (idle : Idle first rest s) : s.token? = none := by
  cases idle <;> rfl

theorem spellsName_eq (idle : Idle first rest s) : s.spellsName = false := by
  cases idle <;> rfl

theorem unbroken (idle : Idle first rest s) : Unbroken (first :: rest.take s.tail) := by
  cases idle with
  | comment => exact unbroken_cons.mpr ⟨rfl, unbroken_comment rest⟩
  | unexpected goesOn => exact unbroken_cons.mpr ⟨goesOn, unbroken_nil⟩

end Idle

end Segment

end AssemblyLexer
