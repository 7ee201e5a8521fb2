import AssemblyLexer.Proofs.Operator
import AssemblyLexer.Proofs.PieceToken
import AssemblyLexer.Proofs.SelfDelimiting

/-!
How operators and punctuation are spelled. The text of such a token is the
spelling of its kind, unless it starts with a plus sign that asks for an unsigned
form and the kind has none.
-/

set_option autoImplicit false

namespace AssemblyLexer

namespace TokenKind

/-- Operators and punctuation stand together in the catalogue. -/
def isPunctuator (kind : TokenKind) : Bool :=
  aliasMark.ordinal ≤ kind.ordinal && kind.ordinal ≤ comma.ordinal

/-- The kinds without an unsigned form that are reached with a plus sign all the same. -/
def unpaired : List (TokenKind × Bytes) :=
  [(shiftLeft, Utf8.ofString "+<<"), (shiftLeftAssign, Utf8.ofString "+<<="),
    (unsigned, Utf8.ofString "+%:")]

/-- Every text of a kind. -/
def texts (kind : TokenKind) : List Bytes :=
  Utf8.ofString kind.spelling :: (unpaired.filter fun entry => entry.1 = kind).map Prod.snd

theorem mem_texts {kind : TokenKind} {text : Bytes} :
    text ∈ kind.texts ↔ text = Utf8.ofString kind.spelling ∨ (kind, text) ∈ unpaired := by
  simp [texts]

theorem mem_texts_of_ofByte? {b : Byte} {kind : TokenKind} (spelled : ofByte? b = some kind) :
    [b] ∈ kind.texts := by
  have all : ∀ entry ∈ singles, [entry.1] ∈ entry.2.texts := by decide
  exact all (b, kind) (mem_singles spelled)

/-- A text that is extended is a text of the longer kind. -/
theorem mem_texts_of_extended? {kind longer : TokenKind} {b : Byte} {text : Bytes}
    (extends' : kind.extended? b = some longer) (spelled : text ∈ kind.texts) :
    text ++ [b] ∈ longer.texts := by
  have all : ∀ entry ∈ extensions, ∀ text ∈ entry.1.texts, text ++ [entry.2.1] ∈ entry.2.2.texts := by
    decide
  exact all _ (mem_extensions extends') text spelled

theorem mem_texts_grown (kind : TokenKind) (bytes : Bytes) :
    ∀ text ∈ kind.texts, text ++ bytes.take (kind.grown bytes).2 ∈ (kind.grown bytes).1.texts := by
  fun_induction grown kind bytes with
  | case1 kind =>
    intro text spelled
    rwa [List.take_nil, List.append_nil]
  | case2 kind b rest longer extends' final taken grows ih =>
    intro text spelled
    have longer' := ih _ (mem_texts_of_extended? extends' spelled)
    rw [grows, List.append_assoc, List.singleton_append] at longer'
    exact longer'
  | case3 kind b rest =>
    intro text spelled
    rwa [List.take_zero, List.append_nil]

end TokenKind

namespace Segment

variable {first : Byte} {rest : Bytes} {t : Token}

theorem mem_texts_of_operator (found : (operator first rest).token? = some t) :
    first :: rest.take (operator first rest).tail ∈ t.kind.texts := by
  unfold operator at found ⊢
  split at found
  · next kind spelled =>
    cases found
    exact kind.mem_texts_grown rest [first] (TokenKind.mem_texts_of_ofByte? spelled)
  · cases found

theorem not_isPunctuator_of_number {form : SegmentForm} {tail : Nat} {scan : NumberScan}
    (found : (number form tail scan).token? = some t) : t.kind.isPunctuator = false := by
  unfold number at found
  split at found
  all_goals
    cases found
    try rfl

theorem not_isPunctuator_of_word {fresh : Bool} (found : (word fresh first rest).token? = some t) :
    t.kind.isPunctuator = false := by
  have words := words_word fresh first rest
  generalize word fresh first rest = s at words found
  cases words with
  | number => exact not_isPunctuator_of_number found
  | _ =>
    cases found
    try rfl

theorem not_isPunctuator_of_quoted {quote : Byte} (found : (quoted quote rest).token? = some t) :
    t.kind.isPunctuator = false := by
  unfold quoted at found
  dsimp only at found
  repeat' split at found
  all_goals
    cases found
    try rfl

/-- A token of a segment is no operator, or its text is one of its kind. -/
theorem mem_texts_of_scan {fresh : Bool} (found : (scan fresh first rest).token? = some t)
    (isPunctuator : t.kind.isPunctuator) :
    first :: rest.take (scan fresh first rest).tail ∈ t.kind.texts := by
  have outside (no : t.kind.isPunctuator = false) : False := by
    rw [no] at isPunctuator
    cases isPunctuator
  have selects := selects_scan fresh first
  generalize scan fresh first = scanner at selects found ⊢
  cases selects with
  | blank => cases found
  | word => exact (outside (not_isPunctuator_of_word found)).elim
  | decimal => exact (outside (not_isPunctuator_of_number found)).elim
  | lineBreak =>
    cases fresh <;> cases found
    cases isPunctuator
  | comment => cases found
  | backslash =>
    rw [token?_backslash] at found
    cases found
  | semicolon =>
    cases found
    cases isPunctuator
  | parameter =>
    cases found
    cases isPunctuator
  | quoted => exact (outside (not_isPunctuator_of_quoted found)).elim
  | operator => exact mem_texts_of_operator found

end Segment

namespace Lexer

/-- The text of an operator or of punctuation is the spelling of its kind, or one with a plus sign
that changes nothing. -/
theorem run_spelled (file : UInt32) (source : Bytes) (s : Scanned)
    (membership : s ∈ (ofSource file source).run.1) (isPunctuator : s.token.kind.isPunctuator) :
    s.place.text = Utf8.ofString s.token.kind.spelling ∨
      (s.token.kind, s.place.text) ∈ TokenKind.unpaired := by
  rw [← TokenKind.mem_texts]
  have origin := origin_of_mem_run membership
  generalize s.token = t, s.place = place at origin isPunctuator ⊢
  cases origin with
  | atEnd => cases isPunctuator
  | @piece piece _ membership found =>
    obtain ⟨passed, first, rest, stands⟩ := Piece.stands_of_mem_ofSource membership
    rw [stands.segment_eq] at found
    rw [Piece.place, stands.bytes_eq, stands.segment_eq]
    exact Segment.mem_texts_of_scan found isPunctuator

/-- A plus sign before a percent sign and a colon, and one before an equals sign. -/
theorem run_spelled_unpaired :
    let all := (ofSource 1 (Utf8.ofString "+%:+=")).run.1
    ∃ s ∈ all, ∃ t ∈ all, s.token = .symbol .unsigned ∧ t.token = .symbol .addAssign ∧
      (s.place.text = Utf8.ofString s.token.kind.spelling ∨
        (s.token.kind, s.place.text) ∈ TokenKind.unpaired) ∧
      (t.place.text = Utf8.ofString t.token.kind.spelling ∨
        (t.token.kind, t.place.text) ∈ TokenKind.unpaired) := by
  intro all
  have first : all[0]?.map (fun s => s.token) = some (.symbol .unsigned) := by decide +kernel
  have second : all[1]?.map (fun s => s.token) = some (.symbol .addAssign) := by decide +kernel
  obtain ⟨s, s_eq, s_token⟩ := Option.map_eq_some_iff.mp first
  obtain ⟨t, t_eq, t_token⟩ := Option.map_eq_some_iff.mp second
  have s_mem : s ∈ all := Array.mem_of_getElem? s_eq
  have t_mem : t ∈ all := Array.mem_of_getElem? t_eq
  refine ⟨s, s_mem, t, t_mem, s_token, t_token, ?_, ?_⟩
  · apply run_spelled 1 _ s s_mem
    rw [s_token]
    rfl
  · apply run_spelled 1 _ t t_mem
    rw [t_token]
    rfl

/-- The left shifts are not the only kinds whose text may start with a plus sign in vain. -/
theorem run_not_spelled :
    ¬∀ (file : UInt32) (source : Bytes) (s : Scanned), s ∈ (ofSource file source).run.1 →
      s.token.kind.isPunctuator →
        s.place.text = Utf8.ofString s.token.kind.spelling ∨
          (s.token.kind, s.place.text) ∈
            [(TokenKind.shiftLeft, Utf8.ofString "+<<"),
              (TokenKind.shiftLeftAssign, Utf8.ofString "+<<=")] := by
  intro spelled
  have first : (ofSource 1 (Utf8.ofString "+%:")).run.1[0]?.map
      (fun s => (s.token, s.place.text)) = some (.symbol .unsigned, Utf8.ofString "+%:") := by
    decide +kernel
  obtain ⟨s, s_eq, pair_eq⟩ := Option.map_eq_some_iff.mp first
  obtain ⟨token_eq, text_eq⟩ := Prod.mk.inj pair_eq
  have either := spelled 1 _ s (Array.mem_of_getElem? s_eq)
  rw [token_eq, text_eq] at either
  exact absurd (either rfl) (by decide)

end Lexer

end AssemblyLexer
