import AssemblyLexer.Proofs.SelfDelimiting

/-!
One byte of lookahead. What a segment makes of the bytes that it takes depends on
nothing that follows them but the next byte, and one line break there does as
well as the other unless the segment might take it too.
-/

set_option autoImplicit false

namespace AssemblyLexer

/-- What follows the bytes that have been taken starts as it did before, or with a line break where
one stood before. The two line breaks differ behind a carriage return. -/
inductive Resembles (taken behind after : Bytes) : Prop
  | sameHead (same : after.head? = behind.head?)
  | bothBreaks {b d : Byte} (noReturn : Byte.carriageReturn ∉ taken)
      (before : behind.head? = some b) (now : after.head? = some d) (wasBreak : b.isLineBreak)
      (isBreak : d.isLineBreak)

namespace Resembles

variable {taken behind after : Bytes}

theorem delimits (resembles : Resembles taken behind after) : Delimits behind after := by
  intro b isHead
  cases resembles with
  | sameHead same => exact .inr (.inr (same.symm.trans isHead))
  | bothBreaks _ _ now _ isBreak =>
    obtain rfl := Option.some.inj (now.symm.trans isHead)
    exact .inr (.inl isBreak)

theorem eq_nil (resembles : Resembles taken [] after) : after = [] := by
  cases resembles with
  | sameHead same => exact List.head?_eq_none_iff.mp same
  | bothBreaks _ before => cases before

/-- A line break stops what is stopped by line breaks alone. -/
theorem stopsClass {p : Byte → Bool} (resembles : Resembles taken behind after)
    (stops : StopsClass p behind) (breaks : ∀ b : Byte, b.isLineBreak → p b = false) :
    StopsClass p after := by
  cases resembles with
  | sameHead same => exact stops.congr same
  | bothBreaks _ _ now _ isBreak =>
    intro b isHead
    obtain rfl := Option.some.inj (now.symm.trans isHead)
    exact breaks _ isBreak

theorem unpaired {first : Byte} {rest : Bytes} (within : first ∈ taken)
    (resembles : Resembles taken (rest.drop (Segment.breakTail first rest)) after) :
    first = Byte.carriageReturn → after.head? = some Byte.lineFeed →
      rest.head? = some Byte.lineFeed := by
  intro isReturn feeds
  by_cases paired : first = Byte.carriageReturn ∧ rest.head? = some Byte.lineFeed
  · exact paired.2
  · cases resembles with
    | sameHead same =>
      have tail_eq : Segment.breakTail first rest = 0 := if_neg paired
      simp only [tail_eq, List.drop_zero] at same
      exact same.symm.trans feeds
    | bothBreaks noReturn => exact absurd (isReturn ▸ within) noReturn

end Resembles

namespace Segment

variable {after : Bytes}

theorem comment_take_append {taken rest : Bytes}
    (resembles : Resembles taken (rest.drop (comment rest).tail) after) :
    comment (rest.take (comment rest).tail ++ after) = comment rest := by
  obtain ⟨text, behind, rest_eq, inside, stops, text_eq, behind_eq⟩ :=
    exists_stretch (fun b => !b.isLineBreak) rest
  have tail_eq : (comment rest).tail = text.length := congrArg List.length text_eq
  rw [tail_eq, behind_eq] at resembles
  have stops' := resembles.stopsClass stops fun b isBreak => by simp [isBreak]
  rw [tail_eq, rest_eq, List.take_left, ← rest_eq]
  simp only [comment, text_eq, takeWhile_append_of_stopsClass inside stops']

theorem backslash_take_append {rest : Bytes}
    (resembles : Resembles (Byte.backslash :: rest.take (backslash rest).tail)
      (rest.drop (backslash rest).tail) after) :
    backslash (rest.take (backslash rest).tail ++ after) = backslash rest := by
  cases rest with
  | nil =>
    rw [resembles.eq_nil]
    rfl
  | cons b rest =>
    by_cases isBreak : b.isLineBreak
    · have scanned : ∀ later, backslash (b :: later) =
          skipped .continuation (breakTail b later + 1) := fun later => if_pos isBreak
      simp only [scanned, skipped, List.take_succ_cons, List.drop_succ_cons,
        List.cons_append] at resembles ⊢
      have unpaired := resembles.unpaired (List.mem_cons_of_mem _ List.mem_cons_self)
      rw [breakTail_take_append unpaired]
    · have stray : backslash (b :: rest) = faulty .strayBackslash 0 .strayBackslash := if_neg isBreak
      simp only [stray, faulty, List.take_zero, List.drop_zero, List.nil_append] at resembles ⊢
      cases resembles with
      | sameHead same =>
        obtain ⟨later, rfl⟩ := List.head?_eq_some_iff.mp same
        exact if_neg isBreak
      | bothBreaks _ before _ wasBreak =>
        cases before
        exact absurd wasBreak isBreak

/-- A segment looks no further than the byte behind it. -/
theorem scan_resembling {fresh : Bool} {first : Byte} {rest : Bytes}
    (resembles : Resembles (first :: rest.take (scan fresh first rest).tail)
      (rest.drop (scan fresh first rest).tail) after) :
    scan fresh first (rest.take (scan fresh first rest).tail ++ after) = scan fresh first rest := by
  have selects := selects_scan fresh first
  generalize scan fresh first = scanner at selects resembles ⊢
  cases selects with
  | blank => rfl
  | word => exact word_take_append resembles.delimits
  | decimal isDigit => exact decimal_take_append isDigit resembles.delimits
  | lineBreak => exact lineBreak_take_append fresh (resembles.unpaired List.mem_cons_self)
  | comment => exact comment_take_append resembles
  | backslash => exact backslash_take_append resembles
  | semicolon => rfl
  | parameter => exact parameter_take_append resembles.delimits
  | operator => exact operator_take_append resembles.delimits
  | quoted =>
    cases isClosed : (Quoted.scan first rest).closed with
    | true => exact quoted_take_append isClosed after
    | false =>
      -- An open literal takes everything, so that nothing can follow it.
      have length_eq := Quoted.scanFrom_length_of_open first 0 [] [] rest isClosed
      rw [Nat.zero_add] at length_eq
      have tail_eq : (quoted first rest).tail = rest.length := (tail_quoted first rest).trans length_eq
      simp only [tail_eq, List.drop_length, List.take_length] at resembles ⊢
      rw [resembles.eq_nil, List.append_nil]

/-- More bytes at the end of the source make no difference to a segment that ends before it. -/
theorem scan_append {fresh : Bool} {first : Byte} {rest : Bytes}
    (inside : (scan fresh first rest).tail < rest.length) (more : Bytes) :
    scan fresh first (rest ++ more) = scan fresh first rest := by
  have left : rest.drop (scan fresh first rest).tail ≠ [] := by
    simpa only [ne_eq, List.drop_eq_nil_iff, Nat.not_le] using inside
  have same : (rest.drop (scan fresh first rest).tail ++ more).head? =
      (rest.drop (scan fresh first rest).tail).head? := by
    rw [List.head?_append, List.head?_eq_some_head left, Option.some_or]
  have again := scan_resembling (.sameHead same)
  rwa [← List.append_assoc, List.take_append_drop] at again

end Segment

end AssemblyLexer
