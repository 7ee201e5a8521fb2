import AssemblyLexer.Proofs.Dispatch

/-!
Where the fault of a segment stands: at its first byte when the segment as a
whole is at fault, and otherwise in one of its escapes.
-/

set_option autoImplicit false

namespace AssemblyLexer

/-- No segment but a faulty one starts with the byte. -/
def Byte.isUnexpected (b : Byte) : Bool :=
  b.isOther && (TokenKind.ofByte? b).isNone

/-- A number starts with a digit, or with the letter of its base before an apostrophe. -/
def NumberStarts (first : Byte) (rest : Bytes) : Prop :=
  first.isDecimalDigit ∨
    (Radix.ofSpecifier? [first]).isSome ∧ rest.head? = some Byte.apostrophe

namespace Fault

/-- How a construct starts that is at fault as a whole. -/
inductive Opens : Fault → Byte → Bytes → Prop
  | unexpected {first : Byte} {rest : Bytes} (unexpected : first.isUnexpected) :
      Opens unexpectedCharacter first rest
  | stray {rest : Bytes} (noBreak : StopsClass Byte.isLineBreak rest) :
      Opens strayBackslash Byte.backslash rest
  | unterminated {quote : Byte} {rest : Bytes} (isQuote : Quoted.IsQuote quote) :
      Opens unterminatedLiteral quote rest
  | character {fault : Fault} {rest : Bytes}
      (content : fault ∈ [emptyCharacter, characterNotUtf8, characterTooLong]) :
      Opens fault Byte.apostrophe rest
  | number {fault : Fault} {first : Byte} {rest : Bytes}
      (numeric : fault ∈ [numericOverflow, malformedNumber, numberWithoutDigits])
      (starts : NumberStarts first rest) : Opens fault first rest
  | specifier {name : Bytes} {first : Byte} {rest after : Bytes}
      (invalid : Radix.ofSpecifier? name = none)
      (spelled : first :: rest = name ++ Byte.apostrophe :: after) :
      Opens (invalidSpecifier name) first rest
  | parameter {rest : Bytes} (nameless : StopsClass Byte.isNamePart rest) :
      Opens emptyParameter Byte.dollar rest

/-- Where a fault stands in the bytes from the start of its construct on. -/
inductive At : Bytes → Fault → Nat → Prop
  | construct {first : Byte} {rest : Bytes} {fault : Fault} (opens : fault.Opens first rest) :
      At (first :: rest) fault 0
  | escape {quote : Byte} {inside after : Bytes} {fault : Fault} {offset : Nat}
      (isQuote : Quoted.IsQuote quote) (isOpen : Quoted.Open quote inside)
      (within : Escape.FaultAt after fault offset) :
      At (quote :: inside ++ Byte.backslash :: after) fault (inside.length + 2 + offset)

end Fault

namespace Segment

/-- Every finding of the segment stands where its fault does, and not beyond the segment. -/
def Founded (bytes : Bytes) (s : Segment) : Prop :=
  ∀ finding ∈ s.findings,
    Fault.At bytes finding.fault finding.offset ∧ finding.offset ≤ s.length

theorem founded_skipped (bytes : Bytes) (form : SegmentForm) (tail : Nat) :
    Founded bytes (skipped form tail) := by
  simp [Founded, skipped]

theorem founded_token (bytes : Bytes) (form : SegmentForm) (tail : Nat) (t : Token) :
    Founded bytes (token form tail t) := by
  simp [Founded, token]

theorem founded_faulty {first : Byte} {rest : Bytes} {fault : Fault}
    (opens : fault.Opens first rest) (form : SegmentForm) (tail : Nat) :
    Founded (first :: rest) (faulty form tail fault) := by
  intro finding found
  rw [List.mem_singleton.mp found]
  exact ⟨.construct opens, Nat.zero_le _⟩

theorem founded_number {first : Byte} {rest : Bytes} (starts : NumberStarts first rest)
    (form : SegmentForm) (tail : Nat) (scan : NumberScan) :
    Founded (first :: rest) (number form tail scan) := by
  unfold number
  split
  · exact founded_token _ form tail _
  · exact founded_token _ form tail _
  all_goals exact founded_faulty (.number (by simp) starts) form tail

theorem founded_word (fresh : Bool) {first : Byte} (rest : Bytes) :
    Founded (first :: rest) (word fresh first rest) := by
  obtain ⟨more, after, rest_eq, _, _, taken, dropped⟩ := exists_stretch Byte.isNamePart rest
  unfold word
  dsimp only
  rw [taken, dropped]
  split
  · exact founded_token _ _ _ _
  · next next after =>
    split
    · next isApostrophe =>
      subst isApostrophe
      split
      · next radix specifier =>
        cases more with
        | nil => exact founded_number (.inr ⟨by simp [specifier], by simp [rest_eq]⟩) _ _ _
        | cons => simp [Radix.ofSpecifier?] at specifier
      · next specifier =>
        exact founded_faulty (.specifier specifier (by rw [rest_eq, List.cons_append])) _ _
    · split
      · exact founded_token _ _ _ _
      · exact founded_token _ _ _ _

theorem founded_decimal {first : Byte} (isDigit : first.isDecimalDigit) (rest : Bytes) :
    Founded (first :: rest) (decimal first rest) :=
  founded_number (.inl isDigit) _ _ _

theorem founded_backslash (rest : Bytes) :
    Founded (Byte.backslash :: rest) (backslash rest) := by
  unfold backslash
  split
  · exact founded_faulty (.stray (by simp [StopsClass])) _ _
  · next b after =>
    split
    · exact founded_skipped _ _ _
    · next noBreak => exact founded_faulty (.stray (by simpa [StopsClass] using noBreak)) _ _

theorem founded_parameter (rest : Bytes) :
    Founded (Byte.dollar :: rest) (parameter rest) := by
  obtain ⟨name, after, rest_eq, _, stops, taken, _⟩ := exists_stretch Byte.isNamePart rest
  intro finding found
  simp only [parameter, taken] at found
  split at found
  · next empty =>
    rw [List.mem_singleton.mp found]
    refine ⟨.construct (.parameter ?_), Nat.zero_le _⟩
    rw [rest_eq, List.isEmpty_iff.mp empty]
    exact stops
  · cases found

theorem character_error {content : Bytes} {fault : Fault}
    (failure : Quoted.character content = .error fault) :
    fault ∈ [Fault.emptyCharacter, .characterNotUtf8, .characterTooLong] := by
  unfold Quoted.character at failure
  split at failure
  · cases failure
    simp
  · split at failure
    · cases failure
      simp
    · split at failure
      · cases failure
      · cases failure
        simp

theorem founded_quoted {quote : Byte} (isQuote : Quoted.IsQuote quote) (rest : Bytes) :
    Founded (quote :: rest) (quoted quote rest) := by
  have inside : ∀ finding ∈ (Quoted.scan quote rest).findings,
      Fault.At (quote :: rest) finding.fault finding.offset ∧
        finding.offset ≤ (Quoted.scan quote rest).length + 1 := by
    intro finding found
    obtain ⟨⟨before, after, offset, split, isOpen, fault, offset_eq⟩, bound⟩ :=
      Quoted.scan_finding isQuote found
    refine ⟨?_, bound⟩
    rw [split, offset_eq, Nat.zero_add]
    exact .escape isQuote isOpen fault
  unfold quoted
  dsimp only
  split
  · intro finding found
    rcases List.mem_append.mp found with escape | whole
    · exact inside finding escape
    · rw [List.mem_singleton.mp whole]
      exact ⟨.construct (.unterminated isQuote), Nat.zero_le _⟩
  · split
    · exact inside
    · split
      · exact founded_token _ _ _ _
      · next noString =>
        split
        · exact founded_token _ _ _ _
        · next fault failure =>
          have apostrophe : quote = Byte.apostrophe := isQuote.resolve_left noString
          subst apostrophe
          exact founded_faulty (.character (character_error failure)) _ _

theorem founded_operator {first : Byte} (isOther : first.isOther) (rest : Bytes) :
    Founded (first :: rest) (operator first rest) := by
  unfold operator
  split
  · exact founded_token _ _ _ _
  · next none => exact founded_faulty (.unexpected (by simp [Byte.isUnexpected, isOther, none])) _ _

theorem founded_scan (fresh : Bool) (first : Byte) (rest : Bytes) :
    Founded (first :: rest) (scan fresh first rest) := by
  have selects := selects_scan fresh first
  generalize scan fresh first = scanner at selects ⊢
  cases selects with
  | blank => exact founded_skipped _ _ _
  | word => exact founded_word fresh rest
  | decimal isDigit => exact founded_decimal isDigit rest
  | lineBreak => simp [Founded, lineBreak]
  | comment => exact founded_skipped _ _ _
  | backslash => exact founded_backslash rest
  | semicolon => exact founded_token _ _ _ _
  | parameter => exact founded_parameter rest
  | quoted isQuote => exact founded_quoted isQuote rest
  | operator isOther => exact founded_operator isOther rest

end Segment

end AssemblyLexer
