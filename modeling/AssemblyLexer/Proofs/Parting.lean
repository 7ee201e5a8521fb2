import AssemblyLexer.Proofs.Content
import AssemblyLexer.Proofs.NumberGrammar
import AssemblyLexer.Proofs.Operator
import AssemblyLexer.Proofs.SelfDelimiting

/-!
Segments do not cut characters. Beside every place where a segment ends stands a
byte of ASCII, so that a valid source falls into valid pieces.
-/

set_option autoImplicit false

namespace AssemblyLexer

namespace Byte

theorem isHigh_of_isLineBreak {b : Byte} (isBreak : b.isLineBreak) : b.isHigh = false :=
  isHigh_of_class (p := isLineBreak) (by decide +kernel) isBreak

theorem isHigh_of_not_isNamePart {b : Byte} (outside : b.isNamePart = false) : b.isHigh = false := by
  simp only [isNamePart, isNameStart, Bool.or_eq_false_iff] at outside
  exact outside.1.2

end Byte

theorem StopsClass.isHigh {bytes : Bytes} (stops : StopsClass Byte.isNamePart bytes) :
    StopsClass Byte.isHigh bytes :=
  fun b isHead => Byte.isHigh_of_not_isNamePart (stops b isHead)

theorem NumberScan.stopsClass_drop (radix : Radix) (bytes : Bytes) :
    StopsClass Byte.isHigh (bytes.drop (scan radix bytes).length) := by
  intro b isHead
  have stopped := NumberProgress.initial.run_stops radix 0 bytes b isHead
  have outside := ((NumberProgress.step?_eq_none_iff radix _ b).mp stopped).1
  exact Byte.isHigh_of_not_isNamePart (Bool.eq_false_iff.mpr outside)

theorem TokenKind.low_grown (kind : TokenKind) (bytes : Bytes) :
    ∀ b ∈ bytes.take (kind.grown bytes).2, b.isHigh = false := by
  have all : ∀ entry ∈ extensions, entry.2.1.isHigh = false := by decide
  intro b membership
  obtain ⟨entry, listed, rfl⟩ := kind.exists_extension_of_mem_grown bytes membership
  exact all entry listed

namespace Utf8

theorem parted_of_low {left right : Bytes} (low : ∀ b ∈ left, b.isHigh = false) :
    Parted left right :=
  .inl fun b isLast => low b (List.mem_of_getLast? isLast)

theorem parted_append (left : Bytes) {middle right : Bytes} (nonempty : middle ≠ [])
    (low : ∀ b ∈ middle, b.isHigh = false) : Parted (left ++ middle) right := by
  left
  rw [List.getLast?_append_of_ne_nil _ nonempty]
  exact fun b isLast => low b (List.mem_of_getLast? isLast)

end Utf8

namespace Segment

open Utf8

/-- No character lies across the end of the segment. -/
def Parts (first : Byte) (rest : Bytes) (s : Segment) : Prop :=
  Parted (first :: rest.take s.tail) (rest.drop s.tail)

theorem parts_of_low {first : Byte} {rest : Bytes} {s : Segment} (low : first.isHigh = false)
    (low' : ∀ b ∈ rest.take s.tail, b.isHigh = false) : Parts first rest s :=
  parted_of_low (List.forall_mem_cons.mpr ⟨low, low'⟩)

theorem parts_single {first : Byte} (low : first.isHigh = false) (rest : Bytes) {s : Segment}
    (tail_eq : s.tail = 0) : Parts first rest s := by
  apply parts_of_low low
  rw [tail_eq]
  exact fun _ membership => nomatch membership

theorem low_breakTail {first : Byte} (rest : Bytes) :
    ∀ b ∈ rest.take (breakTail first rest), b.isHigh = false := by
  unfold breakTail
  split
  · next both =>
    obtain ⟨more, rfl⟩ := List.head?_eq_some_iff.mp both.2
    simp
    rfl
  · simp

theorem low_labelScope (name after : Bytes) :
    ∀ b ∈ after.take (labelScope name after).2, b.isHigh = false := by
  intro b membership
  rcases mem_take_labelScope membership with rfl | rfl <;> rfl

theorem parts_word (fresh : Bool) (first : Byte) (rest : Bytes) :
    Parts first rest (word fresh first rest) := by
  have words := words_word fresh first rest
  generalize word fresh first rest = s at words ⊢
  cases words with
  | identifier _ stops =>
    right
    rw [token, List.drop_left]
    exact stops.isHigh
  | @number more digits radix =>
    right
    rw [tail_number, Nat.add_assoc, List.drop_length_add_append, Nat.add_comm 1, List.drop_succ_cons]
    exact NumberScan.stopsClass_drop radix digits
  | @invalid more =>
    rw [Parts, faulty, List.take_length_add_append]
    exact parted_append (first :: more) (List.cons_ne_nil _ _)
      (List.forall_mem_singleton.mpr rfl)
  | @label more later =>
    have scope := low_labelScope (first :: more) later
    rw [Parts, token, Nat.add_assoc, List.take_length_add_append, Nat.add_comm 1, List.take_succ_cons]
    exact parted_append (first :: more) (List.cons_ne_nil _ _)
      (List.forall_mem_cons.mpr ⟨rfl, scope⟩)

theorem parts_decimal {first : Byte} (isDigit : first.isDecimalDigit) (rest : Bytes) :
    Parts first rest (decimal first rest) := by
  have positive := NumberScan.length_pos_of_isDecimalDigit isDigit rest
  have stops := NumberScan.stopsClass_drop .decimal (first :: rest)
  right
  rw [decimal, tail_number]
  obtain ⟨more, length_eq⟩ := Nat.exists_eq_add_of_lt positive
  rw [length_eq, Nat.zero_add] at stops ⊢
  exact stops

theorem parts_backslash (rest : Bytes) : Parts Byte.backslash rest (backslash rest) := by
  unfold backslash
  split
  · exact parts_single rfl _ rfl
  · next b rest =>
    split
    · next isBreak =>
      apply parts_of_low rfl
      rw [skipped, List.take_succ_cons]
      exact List.forall_mem_cons.mpr ⟨Byte.isHigh_of_isLineBreak isBreak, low_breakTail rest⟩
    · exact parts_single rfl _ rfl

theorem parts_comment (rest : Bytes) : Parts Byte.hash rest (comment rest) := by
  obtain ⟨text, behind, rfl, _, stops, text_eq, behind_eq⟩ :=
    exists_stretch (fun b => !b.isLineBreak) rest
  right
  have tail_eq : (comment (text ++ behind)).tail = text.length := congrArg List.length text_eq
  rw [tail_eq, behind_eq]
  intro b isHead
  have isBreak : b.isLineBreak := by simpa using stops b isHead
  exact Byte.isHigh_of_isLineBreak isBreak

theorem parts_parameter (rest : Bytes) : Parts Byte.dollar rest (parameter rest) := by
  obtain ⟨name, behind, rfl, _, stops, name_eq, behind_eq⟩ := exists_stretch Byte.isNamePart rest
  right
  have tail_eq : (parameter (name ++ behind)).tail = name.length := congrArg List.length name_eq
  rw [tail_eq, behind_eq]
  exact stops.isHigh

theorem parts_quoted {quote : Byte} (isQuote : Quoted.IsQuote quote) (rest : Bytes) :
    Parts quote rest (quoted quote rest) := by
  have low : quote.isHigh = false := by
    rcases isQuote with rfl | rfl <;> rfl
  rw [Parts, tail_quoted]
  cases closed : (Quoted.scan quote rest).closed with
  | false =>
    have length_eq := Quoted.scanFrom_length_of_open quote 0 [] [] rest closed
    right
    rw [Quoted.scan, length_eq, Nat.zero_add, List.drop_length]
    intro b isHead
    cases isHead
  | true =>
    obtain ⟨body, after, rest_eq, length_eq, _⟩ := Quoted.exists_body quote 0 [] [] rest closed
    rw [Quoted.scan, length_eq, rest_eq, Nat.zero_add, List.take_length_add_append]
    exact parted_append (quote :: body) (List.cons_ne_nil _ _)
      (List.forall_mem_singleton.mpr low)

theorem parts_operator {first : Byte} (isOther : first.isOther) (rest : Bytes) :
    Parts first rest (operator first rest) := by
  have low := Byte.isHigh_of_class (p := Byte.isOther) (by decide +kernel) isOther
  unfold operator
  split
  · next kind _ => exact parts_of_low low (kind.low_grown rest)
  · exact parts_single low rest rfl

/-- Segments of a source end between characters, whatever they are. -/
theorem parts_scan (fresh : Bool) (first : Byte) (rest : Bytes) :
    Parts first rest (scan fresh first rest) := by
  have selects := selects_scan fresh first
  generalize scan fresh first = scanner at selects ⊢
  cases selects with
  | blank isBlank =>
    have low := Byte.isHigh_of_class (p := Byte.isBlank) (by decide +kernel) isBlank
    exact parts_single low rest rfl
  | word => exact parts_word fresh first rest
  | decimal isDigit => exact parts_decimal isDigit rest
  | lineBreak isBreak =>
    exact parts_of_low (Byte.isHigh_of_isLineBreak isBreak) (low_breakTail rest)
  | comment => exact parts_comment rest
  | backslash => exact parts_backslash rest
  | semicolon => exact parts_single rfl _ rfl
  | parameter => exact parts_parameter rest
  | quoted isQuote => exact parts_quoted isQuote rest
  | operator isOther => exact parts_operator isOther rest

end Segment

end AssemblyLexer
