import AssemblyLexer.Proofs.Literal
import AssemblyLexer.Proofs.NameGrowth
import AssemblyLexer.Proofs.Parting
import AssemblyLexer.Proofs.PieceToken
import AssemblyLexer.Proofs.SessionLog

/-!
Lexing a valid source. Everything found in it stands between characters and is
valid itself, although the lexer never decodes what it goes through.
-/

set_option autoImplicit false

namespace AssemblyLexer

open Utf8

namespace Piece

/-- A piece of a valid source is valid, and so is what stands before it. -/
theorem exists_valid {source : Bytes} {piece : Piece} (fresh : Bool) (position : Position)
    (bytes : Bytes) (membership : piece ∈ cut fresh position bytes) (valid : Valid bytes) :
    ∀ passed, source = passed ++ bytes → position = Position.initial.passAll passed → Valid passed →
      ∃ passed first rest, piece.Stands source passed first rest ∧ Valid passed ∧
        Valid piece.bytes := by
  fun_induction cut fresh position bytes with
  | case1 => cases membership
  | case2 fresh position first rest segment bytes ih =>
    intro passed source_eq position_eq before
    have whole : Valid (bytes ++ rest.drop segment.tail) := by
      rwa [List.cons_append, List.take_append_drop]
    obtain ⟨own, behind⟩ := whole.of_parted (Segment.parts_scan fresh first rest)
    rcases List.mem_cons.mp membership with equality | later
    · subst equality
      exact ⟨passed, first, rest, ⟨source_eq, position_eq, rfl, rfl⟩, before, own⟩
    · apply ih later behind (passed ++ bytes)
      · rw [source_eq, List.append_assoc, List.cons_append, List.take_append_drop]
      · rw [position_eq, Position.passAll_append]
      · exact before.append own

variable {source : Bytes} {piece : Piece}

theorem exists_valid_of_mem_ofSource (valid : Valid source) (membership : piece ∈ ofSource source) :
    ∃ passed first rest, piece.Stands source passed first rest ∧ Valid passed ∧ Valid piece.bytes :=
  exists_valid true .initial source membership valid [] rfl rfl valid_nil

theorem Stands.source_eq_append {passed : Bytes} {first : Byte} {rest : Bytes}
    (stands : piece.Stands source passed first rest) :
    source = passed ++ piece.bytes ++ rest.drop piece.segment.tail := by
  rw [stands.source_eq, stands.bytes_eq, List.append_assoc, List.cons_append,
    List.take_append_drop]

theorem boundaries (valid : Valid source) (membership : piece ∈ ofSource source) :
    Boundary source piece.position.offset ∧
      Boundary source (piece.position.offset + piece.bytes.length) := by
  obtain ⟨passed, first, rest, stands, before, own⟩ := exists_valid_of_mem_ofSource valid membership
  rw [stands.offset_eq]
  constructor
  · have boundary := boundary_of_valid before (first :: rest)
    rwa [← stands.source_eq] at boundary
  · have boundary := boundary_of_valid (before.append own) (rest.drop piece.segment.tail)
    rwa [← stands.source_eq_append, List.length_append] at boundary

theorem valid_bytes (valid : Valid source) (membership : piece ∈ ofSource source) :
    Valid piece.bytes := by
  obtain ⟨_, _, _, _, _, own⟩ := exists_valid_of_mem_ofSource valid membership
  exact own

theorem carries (membership : piece ∈ ofSource source) {t : Token}
    (found : piece.segment.token? = some t) : Segment.Carries piece.bytes t := by
  obtain ⟨passed, first, rest, stands⟩ := stands_of_mem_ofSource membership
  rw [stands.bytes_eq]
  rw [stands.segment_eq] at found ⊢
  exact Segment.carries_scan found

/-- A piece that starts with an apostrophe is a character literal. -/
theorem exists_apostrophe (membership : piece ∈ ofSource source)
    (isHead : piece.bytes.head? = some Byte.apostrophe) :
    ∃ rest, piece.segment = Segment.quoted Byte.apostrophe rest ∧
      piece.bytes = Byte.apostrophe :: rest.take piece.segment.tail := by
  obtain ⟨passed, first, rest, stands⟩ := stands_of_mem_ofSource membership
  rw [stands.bytes_eq] at isHead
  cases isHead
  exact ⟨rest, stands.segment_eq, stands.bytes_eq⟩

/-- What a character literal comes to: a token with its character and its content, or one fault. -/
inductive Judged (piece : Piece) (content : Bytes) : Except Fault Char → Prop
  | character {c : Char} (found : piece.segment.token? = some (.character c content))
      (faultless : piece.segment.findings = []) : Judged piece content (.ok c)
  | refused {fault : Fault} (none : piece.segment.token? = none)
      (only : piece.segment.findings = [⟨0, fault⟩]) : Judged piece content (.error fault)

theorem judged {body content : Bytes} (membership : piece ∈ ofSource source)
    (bytes_eq : piece.bytes = Byte.apostrophe :: body ++ [Byte.apostrophe])
    (reads : Quoted.Reads Byte.apostrophe body content) :
    piece.Judged content (Quoted.character content) := by
  have isHead : piece.bytes.head? = some Byte.apostrophe := by
    rw [bytes_eq]
    rfl
  obtain ⟨rest, segment_eq, own⟩ := exists_apostrophe membership isHead
  have inside : rest.take piece.segment.tail = body ++ [Byte.apostrophe] :=
    (List.cons.inj (own.symm.trans bytes_eq)).2
  have rest_eq : rest = body ++ Byte.apostrophe :: rest.drop piece.segment.tail := by
    rw [← List.singleton_append, ← List.append_assoc, ← inside, List.take_append_drop]
  rw [rest_eq, Segment.quoted_of_reads (.inr rfl) reads, if_neg (by decide)] at segment_eq
  cases verdict : Quoted.character content with
  | ok c =>
    rw [verdict] at segment_eq
    exact .character (congrArg Segment.token? segment_eq) (congrArg Segment.findings segment_eq)
  | error fault =>
    rw [verdict] at segment_eq
    exact .refused (congrArg Segment.token? segment_eq) (congrArg Segment.findings segment_eq)

theorem unread (membership : piece ∈ ofSource source)
    (isHead : piece.bytes.head? = some Byte.apostrophe)
    (unread : ¬∃ body content, piece.bytes = Byte.apostrophe :: body ++ [Byte.apostrophe] ∧
      Quoted.Reads Byte.apostrophe body content) :
    piece.segment.token? = none ∧ piece.segment.findings ≠ [] ∧
      ∀ finding ∈ piece.segment.findings, finding.fault.isUnread := by
  obtain ⟨rest, segment_eq, own⟩ := exists_apostrophe membership isHead
  rcases Segment.quoted_cases (.inr rfl) rest with ⟨body, content, after, rest_eq, reads⟩ | refused
  · have tail_eq : piece.segment.tail = body.length + 1 := by
      rw [segment_eq, rest_eq, Segment.tail_quoted, Quoted.scan, reads.scanFrom_eq (.inr rfl)]
      exact congrArg (· + 1) (Nat.zero_add _)
    refine absurd ⟨body, content, ?_, reads⟩ unread
    rw [own, tail_eq, rest_eq, List.take_length_add_append]
    rfl
  · rwa [segment_eq]

/-- What becomes of a character literal whose escapes all succeed is decided by its characters. -/
theorem exists_characters (valid : Valid source) (membership : piece ∈ ofSource source)
    {body content : Bytes} (bytes_eq : piece.bytes = Byte.apostrophe :: body ++ [Byte.apostrophe])
    (reads : Quoted.Reads Byte.apostrophe body content) :
    ∃ characters, Decodes content characters ∧ piece.Judged content (Quoted.single characters) := by
  have whole := valid_bytes valid membership
  rw [bytes_eq] at whole
  obtain ⟨characters, decodes⟩ := reads.valid_content rfl whole
  refine ⟨characters, decodes, ?_⟩
  rw [← Quoted.character_of_decodes decodes]
  exact judged membership bytes_eq reads

/-- Only character literals can be at fault for not being UTF-8. -/
theorem apostrophe_of_characterNotUtf8 (membership : piece ∈ ofSource source) {finding : Finding}
    (found : finding ∈ piece.segment.findings) (isFault : finding.fault = .characterNotUtf8) :
    piece.bytes.head? = some Byte.apostrophe := by
  obtain ⟨passed, first, rest, stands⟩ := stands_of_mem_ofSource membership
  rw [stands.segment_eq] at found
  have faultAt := (Segment.founded_scan piece.fresh first rest finding found).1
  rw [isFault] at faultAt
  have head_eq : piece.bytes.head? = (first :: rest).head? := by
    rw [stands.bytes_eq]
    rfl
  rw [head_eq]
  generalize first :: rest = bytes, finding.offset = offset at faultAt ⊢
  cases faultAt with
  | construct opens =>
    cases opens with
    | character => rfl
    | number numeric => simp at numeric
  | escape _ _ within => cases within.isUnread

/-- The content of a character literal in a valid source can always be decoded. -/
theorem fault_ne_characterNotUtf8 (valid : Valid source) (membership : piece ∈ ofSource source)
    {finding : Finding} (found : finding ∈ piece.segment.findings) :
    finding.fault ≠ .characterNotUtf8 := by
  intro isFault
  have isHead := apostrophe_of_characterNotUtf8 membership found isFault
  by_cases reads : ∃ body content, piece.bytes = Byte.apostrophe :: body ++ [Byte.apostrophe] ∧
      Quoted.Reads Byte.apostrophe body content
  · obtain ⟨body, content, bytes_eq, reads⟩ := reads
    obtain ⟨characters, _, judged⟩ := exists_characters valid membership bytes_eq reads
    generalize verdict : Quoted.single characters = judgement at judged
    cases judged with
    | character _ faultless =>
      rw [faultless] at found
      cases found
    | refused _ only =>
      rw [only] at found
      obtain rfl := List.mem_singleton.mp found
      exact Quoted.single_ne_characterNotUtf8 characters (verdict.trans (congrArg _ isFault))
  · have isUnread := (unread membership isHead reads).2.2 finding found
    rw [isFault] at isUnread
    cases isUnread

end Piece

namespace Fault

/-- No other fault is worded like it. -/
theorem eq_of_message_eq {fault : Fault} (same : fault.message = characterNotUtf8.message) :
    fault = characterNotUtf8 := by
  cases fault with
  | characterNotUtf8 => rfl
  | invalidSpecifier specifier =>
    have starts : (invalidSpecifier specifier).message.head? = some 0x69 := rfl
    rw [same] at starts
    exact absurd starts (by decide)
  | _ => exact absurd same (by decide)

end Fault

namespace Session

/-- What the tokens of a run over a source, and what a session makes of them, have to do with
characters. -/
structure KeepsCharacters (session : Session) (file : UInt32) (source : Bytes)
    (all : Array Scanned) : Prop where
  /-- No token starts or ends inside of a character. -/
  boundaries : ∀ s ∈ all, Boundary source s.place.span.start ∧ Boundary source s.place.span.stop
  texts : ∀ s ∈ all, Valid s.place.text
  /-- The name that any session gives to a token is valid, whatever it has absorbed before. -/
  names : ∀ s ∈ all, ∀ (earlier : Session) (name : Name), earlier.names.Indexed →
    (earlier.absorb s).2 = some name → Valid ((earlier.absorb s).1.names.get name)
  contents : ∀ s ∈ all, ∀ content ∈ s.token.content?, Valid content
  /-- The tokens and what is recorded are those of the pieces of the source. -/
  tokens_eq : all.toList.map (fun s => (s.token, s.place)) =
    (Piece.ofSource source).filterMap (Piece.found? file) ++
      [(.symbol .endOfSource, (Lexer.ofSource file source).endPlace)]
  log_eq : (session.absorbAll all).log.entries.toList = session.log.entries.toList ++
    ((Piece.ofSource source).flatMap (Piece.reports file)).map Report.diagnostic
  decodable : ∀ piece ∈ Piece.ofSource source, ∀ report ∈ piece.reports file,
    report.diagnostic.message ≠ Fault.characterNotUtf8.message
  /-- A character literal whose escapes all succeed is decided by the characters of its content. -/
  literals : ∀ piece ∈ Piece.ofSource source, ∀ body content,
    piece.bytes = Byte.apostrophe :: body ++ [Byte.apostrophe] →
      Quoted.Reads Byte.apostrophe body content →
        ∃ characters, Decodes content characters ∧ piece.Judged content (Quoted.single characters)
  /-- Any other one gives no token, and its faults are those of its escapes and of its end. -/
  unread : ∀ piece ∈ Piece.ofSource source, piece.bytes.head? = some Byte.apostrophe →
    (¬∃ body content, piece.bytes = Byte.apostrophe :: body ++ [Byte.apostrophe] ∧
      Quoted.Reads Byte.apostrophe body content) →
        piece.segment.token? = none ∧ piece.segment.findings ≠ [] ∧
          ∀ finding ∈ piece.segment.findings, finding.fault.isUnread

/-- The name of a token stands for the text that the token carries. -/
theorem get_of_absorb {session : Session} {s : Scanned} {name : Name} (indexed : session.names.Indexed)
    (named : (session.absorb s).2 = some name) :
    s.token.name? = some ((session.absorb s).1.names.get name) := by
  rw [absorb, internName] at named ⊢
  dsimp only at named ⊢
  cases carried : s.token.name? with
  | none =>
    rw [carried] at named
    cases named
  | some text =>
    rw [carried] at named
    cases named
    have cleared : (if s.spelledName then session.names.clearPending else session.names).Indexed := by
      split <;> exact indexed
    exact congrArg some (cleared.names_add text).get_eq.symm

section Run

variable {file : UInt32} {source : Bytes} {t : Token} {place : Place}

theorem boundaries_of_origin (valid : Valid source) (origin : Lexer.Origin file source t place) :
    Boundary source place.span.start ∧ Boundary source place.span.stop := by
  cases origin with
  | atEnd =>
    have boundary := boundary_of_valid valid []
    rw [List.append_nil] at boundary
    rw [(Lexer.endPlace_ofSource file source).1]
    exact ⟨boundary, boundary⟩
  | piece membership => exact Piece.boundaries valid membership

theorem valid_text_of_origin (valid : Valid source) (origin : Lexer.Origin file source t place) :
    Valid place.text := by
  cases origin with
  | atEnd =>
    rw [(Lexer.endPlace_ofSource file source).2]
    exact valid_nil
  | piece membership => exact Piece.valid_bytes valid membership

theorem carried_of_origin (valid : Valid source) (origin : Lexer.Origin file source t place) :
    (∀ name ∈ t.name?, Valid name) ∧ ∀ content ∈ t.content?, Valid content := by
  cases origin with
  | atEnd => exact (@Segment.Carries.plain [] _ rfl rfl).valid valid_nil
  | piece membership found =>
    exact (Piece.carries membership found).valid (Piece.valid_bytes valid membership)

end Run

/-- Everything that a run finds in a valid source is valid. -/
theorem absorbAll_valid (session : Session) (file : UInt32) (source : Bytes)
    (valid : Valid source) :
    session.KeepsCharacters file source (Lexer.ofSource file source).run.1 where
  boundaries _ membership := boundaries_of_origin valid (Lexer.origin_of_mem_run membership)
  texts _ membership := valid_text_of_origin valid (Lexer.origin_of_mem_run membership)
  names _ membership _ _ indexed named :=
    (carried_of_origin valid (Lexer.origin_of_mem_run membership)).1 _ (get_of_absorb indexed named)
  contents _ membership := (carried_of_origin valid (Lexer.origin_of_mem_run membership)).2
  tokens_eq := (Lexer.run_found file source).1
  log_eq := by
    rw [log_entries_absorbAll, ← (Lexer.run_found file source).2, List.map_flatMap]
  decodable := by
    intro piece membership report reported same
    obtain ⟨finding, found, rfl⟩ := List.mem_map.mp reported
    exact Piece.fault_ne_characterNotUtf8 valid membership found (Fault.eq_of_message_eq same)
  literals _ membership _ _ := Piece.exists_characters valid membership
  unread _ := Piece.unread

/-- A label, character literals of one character, of two and with an escape of its own lead byte,
a string and a parameter, all with characters outside of ASCII. -/
theorem absorbAll_valid_outside_ascii :
    let source := ofString "ü:'\\u\x7be9\x7d' 'éé' '\\é' \"\\\\é\" $é"
    let all := (Lexer.ofSource 1 source).run.1
    all.toList.map (fun s => s.token) =
        [.label (ofString "ü") .privateLabel, .character 'é' (ofString "é"),
          .string (ofString "\\é"), .parameter (ofString "é"), .symbol .endOfSource] ∧
      initial.KeepsCharacters 1 source all := by
  intro source all
  have valid : Valid source := ⟨_, decodes_iff.mpr rfl⟩
  exact ⟨by decide +kernel, absorbAll_valid initial 1 source valid⟩

end Session

end AssemblyLexer
