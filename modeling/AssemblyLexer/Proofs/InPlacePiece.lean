import AssemblyLexer.Proofs.InPlaceLiteral
import AssemblyLexer.Proofs.NameGrowth
import AssemblyLexer.Proofs.SelfDelimiting

/-!
What a scanner makes of a segment. A scanner that stands where a lexer does
comes, in a few turns, to where the lexer is behind the segment, with the same
token or none, and leaves the session as the segment requires. Only where the
table of names refuses the name of the token does the call end without one.
-/

set_option autoImplicit false

namespace AssemblyLexer.Scanner

/-- The piece that the lexer takes when the given segment starts where it stands. -/
def pieceOf (lexer : Lexer) (first : Byte) (rest : Bytes) (segment : Segment) : Piece where
  position := lexer.position
  fresh := lexer.fresh
  bytes := first :: rest.take segment.tail
  segment := segment

def behindOf (lexer : Lexer) (first : Byte) (rest : Bytes) (segment : Segment) : Lexer :=
  lexer.pass (pieceOf lexer first rest segment).bytes (rest.drop segment.tail)

/-- What a scanner has come to behind a segment, given the lexer before it. -/
inductive Reaches (s : Session) (lexer : Lexer) (first : Byte) (rest : Bytes) (segment : Segment) :
    Stage → Prop
  | token {c : Scanner} {token : Token} {after : Session} {name? : Option Name}
      (found : segment.token? = some token) (granted : ¬s.Refuses token)
      (given : (s.afterPiece lexer.file (pieceOf lexer first rest segment)).give token = (after, name?))
      (follows : c.Follows
        { behindOf lexer first rest segment with
          place := lexer.placeOf (pieceOf lexer first rest segment).bytes
          fresh := token.kind = .endOfStatement })
      (placed : c.place = .ok (lexer.placeOf (pieceOf lexer first rest segment).bytes)) :
      Reaches s lexer first rest segment (.done after c token name?)
  | silence {c : Scanner} {mode : ScannerMode} (none : segment.token? = none)
      (follows : c.Follows (behindOf lexer first rest segment)) (resumes : c.Resumes mode) :
      Reaches s lexer first rest segment
        (.again (s.afterPiece lexer.file (pieceOf lexer first rest segment)) c mode)
  | refused {c : Scanner} {token : Token} {text passed : Bytes}
      (found : segment.token? = some token) (named : token.name? = some text)
      (refuses : s.names.Refuses text) (silent : segment.findings = [])
      (stands : c.Follows (lexer.pass passed c.rest)) :
      Reaches s lexer first rest segment (.refused (s.spelling text) c)

/-- A scanner and a lexer stand where a segment starts. -/
structure Starts (c : Scanner) (lexer : Lexer) (first : Byte) (rest : Bytes) : Prop where
  follows : c.Follows lexer
  rest_eq : c.rest = first :: rest

/-- The marks of a token are those of a position. -/
structure Marks (c : Scanner) (p : Position) : Prop where
  start_eq : c.start = p.offset
  location_eq : c.location = p.location c.file

variable {s s' : Session} {c after : Scanner} {lexer : Lexer} {first : Byte} {rest bytes : Bytes}
  {segment : Segment} {p : Position}

/-- A token is marked by the position of its first byte, which the counters have there. -/
theorem Counts.mark (counts : c.Counts p) : c.mark.Counts p ∧ c.mark.Marks p := by
  obtain ⟨⟨offset_eq, nextLine_eq, lineStart_eq⟩, whole⟩ := counts
  refine ⟨⟨⟨offset_eq, nextLine_eq, lineStart_eq⟩, whole⟩, offset_eq, ?_⟩
  simp only [Scanner.mark, location, locationAt, nextLine_eq, lineStart_eq, offset_eq]
  rfl

theorem Starts.opens_eq (starts : c.Starts lexer first rest) : c.opens = lexer.fresh := by
  apply starts.follows.opens_eq
  rw [← starts.follows.rest_eq, starts.rest_eq]
  exact List.cons_ne_nil _ _

theorem Starts.mark (starts : c.Starts lexer first rest) :
    c.mark.Starts lexer first rest ∧ c.mark.Marks lexer.position := by
  obtain ⟨file_eq, rest_eq, counts, opens_eq⟩ := starts.follows
  obtain ⟨counts', marks⟩ := counts.mark
  exact ⟨⟨⟨file_eq, rest_eq, counts', opens_eq⟩, starts.rest_eq⟩, marks⟩

/-- The fault of a token is reported where the token starts. -/
theorem Starts.report_eq (starts : c.Starts lexer first rest) (marks : c.Marks lexer.position)
    (passes : c.Passes bytes after) (s : Session) (fault : Fault) :
    after.report s fault = s.recordAll #[⟨lexer.position.location lexer.file, fault⟩] := by
  rw [report, passes.location_eq, marks.location_eq, starts.follows.file_eq]

/-- What has been passed is told by its length. -/
theorem Passes.eq_piece (passes : c.Passes bytes after) (remaining : c.rest = first :: rest)
    {tail : Nat} (length_eq : bytes.length = tail + 1) :
    bytes = first :: rest.take tail ∧ after.rest = rest.drop tail := by
  have bytes_eq : bytes = c.rest.take bytes.length := by
    rw [passes.rest_eq, List.take_left]
  constructor
  · rw [bytes_eq, length_eq, remaining, List.take_succ_cons]
  · rw [passes.rest_after, length_eq, remaining, List.drop_succ_cons]

/-- A token that ends behind the passed bytes has these as its text. -/
theorem Passes.place_eq (passes : c.Passes bytes after) (marks : c.Marks p)
    (offset_eq : c.cursor.position = p.offset) (token : Token) :
    (after.close token).place =
      .ok ⟨p.location c.file, ⟨p.offset, p.offset + bytes.length⟩, bytes⟩ := by
  have start_eq : (after.close token).span = ⟨p.offset, p.offset + bytes.length⟩ := by
    rw [span, close, passes.start_eq, marks.start_eq, passes.offset_eq, offset_eq]
  have location_eq : (after.close token).location = p.location c.file :=
    passes.location_eq.trans marks.location_eq
  have buffer_eq : (after.close token).cursor.buffer = c.cursor.buffer := passes.buffer_eq
  have text_eq : (c.cursor.buffer.bytes.drop p.offset).take bytes.length = bytes := by
    rw [← offset_eq]
    change c.rest.take bytes.length = bytes
    rw [passes.rest_eq, List.take_left]
  rw [place, text, start_eq, location_eq, buffer_eq, Span.length, Nat.add_sub_cancel_left, text_eq,
    if_pos (offset_eq ▸ c.cursor.position_le)]
  rfl

theorem Starts.follows_behind (starts : c.Starts lexer first rest) (passes : c.Passes bytes after)
    (length_eq : bytes.length = segment.tail + 1) :
    after.Follows (behindOf lexer first rest segment) := by
  obtain ⟨bytes_eq, rest_eq⟩ := passes.eq_piece starts.rest_eq length_eq
  have follows := starts.follows
  refine ⟨passes.file_eq.trans follows.file_eq, rest_eq, ?_, ?_⟩
  · have counts := passes.counts follows.counts
    rw [bytes_eq] at counts
    exact counts
  · intro _
    rw [passes.opens_eq, starts.opens_eq]
    rfl

theorem Starts.finish (starts : c.Starts lexer first rest) (marks : c.Marks lexer.position)
    (passes : c.Passes bytes after) (length_eq : bytes.length = segment.tail + 1) {token : Token}
    (found : segment.token? = some token) (granted : ¬s.Refuses token) {name? : Option Name}
    (given : (s.afterPiece lexer.file (pieceOf lexer first rest segment)).give token = (s', name?)) :
    Reaches s lexer first rest segment (after.finish s' token name?) := by
  obtain ⟨bytes_eq, rest_eq⟩ := passes.eq_piece starts.rest_eq length_eq
  obtain ⟨file_eq, rest_eq, ⟨⟨offset_eq, nextLine_eq, lineStart_eq⟩, whole⟩, _⟩ :=
    starts.follows_behind passes length_eq
  apply Reaches.token found granted given
  · exact ⟨file_eq, rest_eq, ⟨⟨offset_eq, nextLine_eq, lineStart_eq⟩, whole⟩, fun _ => rfl⟩
  · rw [passes.place_eq marks starts.follows.counts.offset_eq, starts.follows.file_eq, bytes_eq]
    rfl

theorem Starts.again (starts : c.Starts lexer first rest) (passes : c.Passes bytes after)
    (length_eq : bytes.length = segment.tail + 1) (none : segment.token? = none)
    (session_eq : s' = s.afterPiece lexer.file (pieceOf lexer first rest segment)) :
    Reaches s lexer first rest segment (.again s' after c.startMode) := by
  have start_eq : c.startMode = after.startMode := by
    rw [startMode, startMode, passes.opens_eq]
  rw [session_eq, start_eq]
  exact .silence none (starts.follows_behind passes length_eq) .start

theorem reports_pieceOf (lexer : Lexer) (first : Byte) (rest : Bytes) (segment : Segment) :
    (pieceOf lexer first rest segment).reports lexer.file =
      lexer.reports (first :: rest.take segment.tail) segment.findings :=
  rfl

theorem afterPiece_of_silent (silent : segment.findings = []) (file : UInt32) :
    s.afterPiece file (pieceOf lexer first rest segment) = s.clearWhen segment.form.spells := by
  rw [Session.afterPiece, Piece.reports, pieceOf, silent]
  exact Session.recordAll_nil _

theorem not_refuses_of_unnamed {token : Token} (unnamed : token.name? = none) : ¬s.Refuses token := by
  rintro ⟨text, named, _⟩
  cases unnamed.symm.trans named

theorem give_of_name?_eq_none {token : Token} (unnamed : token.name? = none) :
    s.give token = (s, none) := by
  rw [Session.give, unnamed]

section Forms

variable (form : SegmentForm) {tail : Nat}

/-- A segment that is neither a token nor at fault. -/
theorem Starts.again_skipped (starts : c.Starts lexer first rest) (passes : c.Passes bytes after)
    (length_eq : bytes.length = tail + 1) (unspelled : form.spells = false) :
    Reaches s lexer first rest (.skipped form tail) (.again s after c.startMode) := by
  apply starts.again passes length_eq rfl
  rw [afterPiece_of_silent rfl]
  change s = s.clearWhen form.spells
  rw [unspelled]
  rfl

/-- A token without a name, with no fault in it. -/
theorem Starts.finish_unnamed (starts : c.Starts lexer first rest) (marks : c.Marks lexer.position)
    (passes : c.Passes bytes after) (length_eq : bytes.length = tail + 1)
    (session_eq : s' = s.clearWhen form.spells) {token : Token} (unnamed : token.name? = none) :
    Reaches s lexer first rest (.token form tail token) (after.finish s' token none) := by
  apply starts.finish marks passes length_eq rfl (not_refuses_of_unnamed unnamed)
  rw [give_of_name?_eq_none unnamed, afterPiece_of_silent rfl, session_eq]
  rfl

/-- A fault of the whole segment, reported where it starts. -/
theorem Starts.again_faulty (starts : c.Starts lexer first rest) (marks : c.Marks lexer.position)
    (passes : c.Passes bytes after) (length_eq : bytes.length = tail + 1)
    (session_eq : s' = s.clearWhen form.spells) (fault : Fault) :
    Reaches s lexer first rest (.faulty form tail fault)
      (.again (after.report s' fault) after c.startMode) := by
  apply starts.again passes length_eq rfl
  rw [starts.report_eq marks passes, session_eq]
  rfl

theorem Starts.numbered (starts : c.Starts lexer first rest) (marks : c.Marks lexer.position)
    (passes : c.Passes bytes after) (length_eq : bytes.length = tail + 1)
    (session_eq : s' = s.clearWhen form.spells) (scan : NumberScan) :
    Reaches s lexer first rest (.number form tail scan) (after.numbered s' c.startMode scan) := by
  unfold Segment.number Scanner.numbered
  cases scan.status with
  | integer => exact starts.finish_unnamed form marks passes length_eq session_eq rfl
  | float => exact starts.finish_unnamed form marks passes length_eq session_eq rfl
  | noDigits => exact starts.again_faulty form marks passes length_eq session_eq _
  | overflow => exact starts.again_faulty form marks passes length_eq session_eq _
  | exponentOverflow => exact starts.again_faulty form marks passes length_eq session_eq _
  | malformed => exact starts.again_faulty form marks passes length_eq session_eq _

end Forms

/-- The scope follows from the bytes behind the first colon. -/
theorem labelScope_spec (c : Scanner) (first : Byte) (more : Bytes) :
    let label := Segment.labelScope (first :: more) c.rest
    ∃ after, c.Passes (c.rest.take label.2) after ∧
      c.labelScope (first = Byte.dot) = (label.1, after) := by
  have inner_eq : ((first :: more).head? == some Byte.dot) = decide (first = Byte.dot) := by
    rw [List.head?_cons, Bool.eq_iff_iff, beq_iff_eq, Option.some_inj, decide_eq_true_eq]
  by_cases colon : c.rest.head? = some Byte.colon
  · simp only [Segment.labelScope, labelScope, inner_eq, advanceIf_of_head? colon, colon, if_true]
    exact ⟨c.advance, passes_one colon rfl, rfl⟩
  by_cases question : c.rest.head? = some Byte.question
  · rw [Segment.labelScope, if_neg colon, if_pos question]
    simp only [labelScope, advanceIf_of_head?_ne colon, advanceIf_of_head? question]
    exact ⟨c.advance, passes_one question rfl, rfl⟩
  · simp only [Segment.labelScope, labelScope, inner_eq, advanceIf_of_head?_ne colon,
      advanceIf_of_head?_ne question, colon, question, if_false]
    exact ⟨c, .refl c, rfl⟩

theorem isNamePart_of_isNameStart {b : Byte} (isName : b.isNameStart) : b.isNamePart := by
  rw [Byte.isNamePart, isName, Bool.true_or]

/-- A token that carries a name of the session, with no fault in it. -/
theorem Starts.finish_named (starts : c.Starts lexer first rest) (marks : c.Marks lexer.position)
    (passes : c.Passes bytes after) {tail : Nat} (length_eq : bytes.length = tail + 1)
    {token : Token} {name? : Option Name} (granted : ¬s.Refuses token)
    (given : (s.clearWhen true).give token = (s', name?)) :
    Reaches s lexer first rest (.token .word tail token) (after.finish s' token name?) := by
  apply starts.finish marks passes length_eq rfl granted
  rw [afterPiece_of_silent rfl]
  exact given

theorem not_refuses_of_named {token : Token} {text : Bytes} (named : token.name? = some text)
    (granted : ¬s.names.Refuses text) : ¬s.Refuses token := by
  rintro ⟨text', named', refuses⟩
  cases named.symm.trans named'
  exact granted refuses

/-- A name that has been interned becomes a label or an identifier. -/
theorem Starts.named {more behind : Bytes} (starts : c.Starts lexer first (more ++ behind))
    (marks : c.Marks lexer.position) (all : ∀ b ∈ more, b.isNamePart)
    (stops : StopsClass Byte.isNamePart behind) (noQuote : behind.head? ≠ some Byte.apostrophe)
    (passes : c.Passes (first :: more) after) (behind_eq : after.rest = behind) {name : Name}
    (granted : ¬s.names.Refuses (first :: more))
    (given : ∀ {token : Token}, token.name? = some (first :: more) →
      (s.clearWhen true).give token = (s', some name))
    (get_eq : s'.names.get name = first :: more) :
    ∃ stage, after.named s' lexer.fresh name = .ok stage ∧
      Reaches s lexer first (more ++ behind) (.word lexer.fresh first (more ++ behind)) stage := by
  rw [Scanner.named, get_eq]
  dsimp only
  -- Only where a statement may start is the colon looked for; elsewhere it is left alone.
  cases begins : lexer.fresh with
  | false =>
    rw [Segment.word_eq_identifier all stops noQuote (fun isFresh => by cases isFresh)]
    exact ⟨_, rfl, starts.finish_named marks passes rfl (not_refuses_of_named rfl granted) (given rfl)⟩
  | true =>
    by_cases isLabel : behind.head? = some Byte.colon
    · obtain ⟨later, rfl⟩ := List.head?_eq_some_iff.mp isLabel
      have colon := passes_advance behind_eq rfl
      obtain ⟨last, scope, scope_eq⟩ := labelScope_spec after.advance first more
      rw [rest_advance behind_eq] at scope scope_eq
      have within := Segment.labelScope_le (first :: more) later
      have length_eq : ((first :: more) ++ [Byte.colon] ++
          later.take (Segment.labelScope (first :: more) later).2).length =
            more.length + 1 + (Segment.labelScope (first :: more) later).2 + 1 := by
        simp only [List.length_append, List.length_cons, List.length_nil, List.length_take]
        omega
      rw [← behind_eq] at isLabel
      rw [Segment.word_eq_label all, advanceIf_of_head? isLabel]
      simp only [List.head?_cons, scope_eq]
      exact ⟨_, rfl, starts.finish_named marks ((passes.trans colon).trans scope) length_eq
        (not_refuses_of_named rfl granted) (given rfl)⟩
    · rw [Segment.word_eq_identifier all stops noQuote (fun _ => isLabel)]
      rw [← behind_eq] at isLabel
      rw [advanceIf_of_head?_ne isLabel]
      exact ⟨_, rfl, starts.finish_named marks passes rfl (not_refuses_of_named rfl granted) (given rfl)⟩

/-- A name before an apostrophe gives the base of a number, or there is none of that name. -/
theorem Starts.based {more digits : Bytes}
    (starts : c.Starts lexer first (more ++ Byte.apostrophe :: digits))
    (marks : c.Marks lexer.position) (all : ∀ b ∈ more, b.isNamePart)
    (passes : c.Passes (first :: more) after) (behind_eq : after.rest = Byte.apostrophe :: digits) :
    ∃ stage,
      (match Radix.ofSpecifier? (first :: more) with
        | some radix => after.advance.number (s.mapNames .clearPending) c.startMode radix
        | none => .ok (.again
            (after.advance.report (s.mapNames .clearPending) (.invalidSpecifier (first :: more)))
            after.advance c.startMode)) = .ok stage ∧
      Reaches s lexer first (more ++ Byte.apostrophe :: digits)
        (.word lexer.fresh first (more ++ Byte.apostrophe :: digits)) stage := by
  have quoted := passes.trans (passes_advance behind_eq rfl)
  have length_eq : (first :: more ++ [Byte.apostrophe]).length = more.length + 1 + 1 := by
    rw [List.length_append]
    rfl
  rw [Segment.word_eq_number lexer.fresh all]
  cases Radix.ofSpecifier? (first :: more) with
  | none => exact ⟨_, rfl, starts.again_faulty .word marks quoted length_eq rfl _⟩
  | some radix =>
    obtain ⟨last, number, number_eq⟩ :=
      after.advance.number_spec (s.mapNames .clearPending) c.startMode radix
    rw [rest_advance behind_eq] at number number_eq
    have within := NumberScan.length_le radix digits
    refine ⟨_, number_eq, starts.numbered .word marks (quoted.trans number) ?_ rfl _⟩
    rw [List.length_append, length_eq, List.length_take_of_le within]
    omega

/-- Wherever the bytes that have been passed lead to, a lexer can stand there. -/
theorem Passes.stands (passes : c.Passes bytes after) (follows : c.Follows lexer)
    (opens_eq : c.opens = lexer.fresh) : after.Follows (lexer.pass bytes after.rest) :=
  ⟨passes.file_eq.trans follows.file_eq, rfl, passes.counts follows.counts,
    fun _ => passes.opens_eq.trans opens_eq⟩

theorem spell_cleared (remaining : c.rest = bytes) (s : Session) :
    let run := bytes.takeWhile Byte.isNamePart
    ∃ after, c.Passes run after ∧ c.spell (s.mapNames .clearPending) bytes = (s.spelling run, after) :=
  spell_spec remaining

theorem decide_startOf (opens : Bool) : decide (ScannerMode.startOf opens = .lineStart) = opens := by
  cases opens <;> rfl

theorem Starts.word (starts : c.Starts lexer first rest) (marks : c.Marks lexer.position)
    (indexed : s.names.Indexed) (isName : first.isNameStart) :
    ∃ stage, c.word s c.startMode = .ok stage ∧
      Reaches s lexer first rest (.word lexer.fresh first rest) stage := by
  obtain ⟨more, behind, rfl, all, stops, taken_eq, _⟩ := exists_stretch Byte.isNamePart rest
  have spelled_eq : (first :: (more ++ behind)).takeWhile Byte.isNamePart = first :: more := by
    rw [List.takeWhile_cons, if_pos (isNamePart_of_isNameStart isName), taken_eq]
  obtain ⟨after, passes, spelled⟩ := spell_cleared starts.rest_eq s
  rw [spelled_eq] at passes spelled
  have behind_eq : after.rest = behind := by
    rw [(passes.eq_piece starts.rest_eq rfl).2, List.drop_left]
  have resumed_eq : c.startMode.resumed = c.startMode := ScannerMode.resumed_startOf c.opens
  rw [Scanner.word, starts.rest_eq, spelled, resumed_eq]
  dsimp only
  -- The byte that ends the spelling tells a base from a name.
  by_cases isQuote : behind.head? = some Byte.apostrophe
  · obtain ⟨digits, rfl⟩ := List.head?_eq_some_iff.mp isQuote
    have pending_eq : (s.spelling (first :: more)).names.pending = first :: more := List.nil_append _
    rw [if_pos (peek?_of_rest_eq behind_eq), pending_eq]
    exact starts.based (s := s) marks all passes behind_eq
  · rw [if_neg (by rw [peek?_eq, behind_eq]; exact isQuote), Session.internPending?_spelling]
    by_cases refuses : s.names.Refuses (first :: more)
    · obtain ⟨token, found, named, silent⟩ := Segment.exists_token_word lexer.fresh all stops isQuote
      rw [if_pos refuses]
      exact ⟨_, rfl,
        .refused found named refuses silent (passes.stands starts.follows starts.opens_eq)⟩
    · have begins : decide (c.startMode = .lineStart) = lexer.fresh :=
        (decide_startOf c.opens).trans starts.opens_eq
      rw [if_neg refuses, begins]
      apply starts.named marks all stops isQuote passes behind_eq refuses (s.give_spelled ·)
      exact (NameTable.Indexed.names_add (t := s.names.clearPending) indexed _).get_eq

theorem Starts.decimal (starts : c.Starts lexer first rest) (marks : c.Marks lexer.position)
    (isDigit : first.isDecimalDigit) :
    ∃ stage, c.number s c.startMode .decimal = .ok stage ∧
      Reaches s lexer first rest (.decimal first rest) stage := by
  obtain ⟨after, passes, number_eq⟩ := c.number_spec s c.startMode .decimal
  rw [starts.rest_eq] at passes number_eq
  have positive := NumberScan.length_pos_of_isDecimalDigit isDigit rest
  have within := NumberScan.length_le .decimal (first :: rest)
  refine ⟨_, number_eq, starts.numbered .number marks passes ?_ rfl _⟩
  rw [List.length_take_of_le within]
  omega

theorem length_break (b : Byte) (later : Bytes) :
    (b :: later.take (Segment.breakTail b later)).length = Segment.breakTail b later + 1 := by
  rw [List.length_cons, List.length_take_of_le (Segment.breakTail_le b later)]

theorem Starts.parameter (starts : c.Starts lexer Byte.dollar rest)
    (marks : c.Marks lexer.position) (rooted : s.names.Rooted) :
    Reaches s lexer Byte.dollar rest (.parameter rest) (c.parameter s) := by
  obtain ⟨after, spelling, spelled⟩ := spell_cleared (rest_advance starts.rest_eq) s
  have passes := (passes_advance starts.rest_eq rfl).trans spelling
  rw [Scanner.parameter, rest_advance starts.rest_eq, spelled]
  dsimp only
  rw [Session.internPending?_spelling]
  by_cases refuses : s.names.Refuses (rest.takeWhile Byte.isNamePart)
  · have silent : (Segment.parameter rest).findings = [] := by
      rw [Segment.parameter]
      cases run : rest.takeWhile Byte.isNamePart with
      | nil =>
        rw [run] at refuses
        cases refuses.2.symm.trans rooted.find?_nil
      | cons => rfl
    rw [if_pos refuses]
    exact .refused rfl rfl refuses silent (passes.stands starts.follows starts.opens_eq)
  · have indexed : s.names.clearPending.Indexed := rooted.indexed
    have names := indexed.names_add (rest.takeWhile Byte.isNamePart)
    have rooted' : (s.names.clearPending.add (rest.takeWhile Byte.isNamePart)).1.Rooted :=
      (rooted.grows (NameTable.grows_setPending _ [])).grows (NameTable.grows_add _ _)
    have reported : ∀ named : Session,
        (if (rest.takeWhile Byte.isNamePart).isEmpty then after.report named .emptyParameter
          else named) =
        named.recordAll
          ((pieceOf lexer Byte.dollar rest (.parameter rest)).reports lexer.file).toArray := by
      intro named
      rw [starts.report_eq marks passes]
      simp only [Piece.reports, pieceOf, Segment.parameter]
      split
      · rfl
      · exact (Session.recordAll_nil named).symm
    have length_eq : ([Byte.dollar] ++ rest.takeWhile Byte.isNamePart).length =
        (Segment.parameter rest).tail + 1 := rfl
    rw [if_neg refuses]
    dsimp only
    rw [rooted'.isEmpty_iff names, reported]
    have get_eq : ∀ reports, (Session.recordAll { s with names :=
        (s.names.clearPending.add (rest.takeWhile Byte.isNamePart)).1 } reports).names.get
          (s.names.clearPending.add (rest.takeWhile Byte.isNamePart)).2 =
        rest.takeWhile Byte.isNamePart := fun _ => names.get_eq
    rw [get_eq]
    exact starts.finish marks passes length_eq rfl (not_refuses_of_named rfl refuses) rfl

/-- The faults inside a literal are located in the literal as in what is left of the buffer. -/
theorem reports_quoted (lexer : Lexer) (isQuote : Quoted.IsQuote first) (rest : Bytes) :
    lexer.reports (first :: rest) (Quoted.scan first rest).findings =
      lexer.reports (first :: rest.take (Quoted.scan first rest).length)
        (Quoted.scan first rest).findings := by
  apply List.map_congr_left
  intro finding found
  have bound := (Quoted.scan_finding isQuote found).2
  have taken_eq : (first :: rest.take (Quoted.scan first rest).length).take finding.offset =
      (first :: rest).take finding.offset := by
    rw [← List.take_succ_cons, List.take_take, Nat.min_eq_left bound]
  rw [taken_eq]

theorem Starts.quoted (starts : c.Starts lexer first rest) (marks : c.Marks lexer.position)
    (isQuote : Quoted.IsQuote first) :
    Reaches s lexer first rest (.quoted first rest) (c.quoted s c.startMode first) := by
  have passes := passes_inside isQuote starts.rest_eq s
  have agrees := starts.follows.agrees_inside isQuote starts.rest_eq s
  have length_eq : (first :: rest.take (Quoted.scan first rest).length).length =
      (Quoted.scan first rest).length + 1 := by
    rw [List.length_cons, List.length_take_of_le (Quoted.length_le first rest)]
  rw [Scanner.quoted, rest_advance starts.rest_eq]
  generalize inside first c.advance s false true [] rest = found at passes agrees ⊢
  obtain ⟨s', after, closed, intact, content⟩ := found
  obtain ⟨closed_eq, intact_eq, content_eq, session_eq, _⟩ := agrees
  rw [List.nil_append, reports_quoted lexer isQuote] at session_eq
  dsimp only at closed_eq intact_eq content_eq session_eq passes ⊢
  subst closed_eq intact_eq content_eq session_eq
  unfold Segment.quoted
  dsimp only
  cases isClosed : (Quoted.scan first rest).closed with
  | false =>
    simp only [Bool.not_false, if_true]
    apply starts.again passes length_eq rfl
    rw [starts.report_eq marks passes, Session.recordAll_recordAll, Session.afterPiece, reports_pieceOf,
      reports_append, ← List.append_toArray]
    rfl
  | true =>
    cases noFault : (Quoted.scan first rest).findings.isEmpty with
    | false =>
      simp only [Bool.not_true, Bool.not_false, Bool.false_eq_true, if_true, if_false]
      exact starts.again passes length_eq rfl rfl
    | true =>
      have session_eq : s.recordAll (lexer.reports
          (first :: rest.take (Quoted.scan first rest).length) []).toArray =
            s.clearWhen SegmentForm.quoted.spells := Session.recordAll_nil s
      rw [List.isEmpty_iff.mp noFault, session_eq]
      simp only [Bool.not_true, Bool.false_eq_true, if_false]
      by_cases isString : first = Byte.doubleQuote
      · rw [if_pos isString, if_pos isString]
        exact starts.finish_unnamed .quoted marks passes length_eq rfl rfl
      · rw [if_neg isString, if_neg isString]
        cases Quoted.character (Quoted.scan first rest).content with
        | ok value => exact starts.finish_unnamed .quoted marks passes length_eq rfl rfl
        | error fault => exact starts.again_faulty .quoted marks passes length_eq rfl fault

/-- What is done about a byte of an operator. -/
def operated (c : Scanner) (s : Session) (variant : Nat) : OperatorMove → Stage
  | .go next more => .again s c.advance (.operator next (variant ||| more))
  | .produce kind => c.advance.finish s (.symbol (kind.select variant)) none
  | .yield kind => c.finish s (.symbol (kind.select variant)) none

theorem turn_of_move {mode : ScannerMode} {variant : Nat} {starts : Bool} {move : OperatorMove}
    (transition_eq : mode.transition c.rest.head? = ScannerMode.ofMove variant starts move) (s : Session) :
    c.turn s mode = .ok ((if starts then c.mark else c).operated s variant move) := by
  rw [turn, peek?_eq, transition_eq]
  cases move <;> rfl

/-- A few turns complete the operator that the given kind grows into with the bytes under the
cursor. -/
def Grows (c : Scanner) (s : Session) (kind : TokenKind) (bytes : Bytes) (stage : Stage) : Prop :=
  ∃ n after, n ≤ (kind.grown bytes).2 + 1 ∧ c.Passes (bytes.take (kind.grown bytes).2) after ∧
    stage.steps n = .ok (after.finish s (.symbol (kind.grown bytes).1) none)

section Operators

variable {state : OperatorState} {variant : Nat} {kind : TokenKind} {move : OperatorMove}

theorem step_operator (c : Scanner) (s : Session) (state : OperatorState) (variant : Nat) :
    (Stage.again s c (.operator state variant)).step =
      .ok (c.operated s variant (state.move c.rest.head?)) := by
  have transition_eq : (ScannerMode.operator state variant).transition c.rest.head? =
      ScannerMode.ofMove variant false (state.move c.rest.head?) := rfl
  rw [Stage.step, turn_of_move transition_eq]
  rfl

/-- Where no byte can be appended the operator ends. -/
theorem steps_operator_end (isBit : variant < 2) (s : Session)
    (stops : c.rest.head?.bind (state.pending.select variant).extended? = none) :
    (Stage.again s c (.operator state variant)).steps 1 =
      .ok (c.finish s (.symbol (state.pending.select variant)) none) := by
  rw [steps_one, step_operator, OperatorState.move_eq_yield isBit stops]
  rfl

/-- A byte that is taken makes the operator one of the given kind. -/
theorem grows_operated (takes : move.Takes variant kind)
    (goesOn : ∀ {state : OperatorState} {variant : Nat}, variant < 2 →
      c.advance.Grows s (state.pending.select variant) bytes
        (.again s c.advance (.operator state variant))) :
    c.advance.Grows s kind bytes (c.operated s variant move) := by
  cases takes with
  | go isBit => exact goesOn isBit
  | produce isFinal =>
    rw [Grows, isFinal.grown_eq]
    exact ⟨0, _, Nat.zero_le _, .refl _, rfl⟩

/-- In every state the operator is of the kind that comes of the bytes before, and goes on as that
kind does. -/
theorem grows_operator (isBit : variant < 2) (remaining : c.rest = bytes) :
    c.Grows s (state.pending.select variant) bytes (.again s c (.operator state variant)) := by
  induction bytes generalizing c state variant with
  | nil =>
    have stops : c.rest.head?.bind (state.pending.select variant).extended? = none := by
      rw [remaining]
      rfl
    exact ⟨1, c, Nat.le_refl 1, .refl c, steps_operator_end isBit s stops⟩
  | cons b rest ih =>
    cases extends' : (state.pending.select variant).extended? b with
    | none =>
      have stops : c.rest.head?.bind (state.pending.select variant).extended? = none := by
        rw [remaining]
        exact extends'
      rw [Grows, TokenKind.grown, extends']
      exact ⟨1, c, Nat.le_refl 1, .refl c, steps_operator_end isBit s stops⟩
    | some longer =>
      have noBreaks : ∀ entry ∈ TokenKind.extensions, entry.2.1.isLineBreak = false := by decide
      have noBreak := noBreaks _ (TokenKind.mem_extensions extends')
      obtain ⟨n, after, n_le, passes, steps_eq⟩ :=
        grows_operated (OperatorState.takes_move isBit extends')
          fun isBit => ih isBit (rest_advance remaining)
      rw [Grows, TokenKind.grown, extends']
      refine ⟨n + 1, after, Nat.succ_le_succ n_le, (passes_advance remaining noBreak).trans passes, ?_⟩
      rw [steps_succ (step_operator c s state variant), remaining]
      exact steps_eq

end Operators

/-- A comment goes on up to a line break or the end of the buffer. -/
theorem steps_comment (c : Scanner) (s : Session) (bytes : Bytes) (remaining : c.rest = bytes) :
    let taken := bytes.takeWhile fun b => !b.isLineBreak
    ∃ after, c.Passes taken after ∧ (∀ b ∈ after.rest.head?, b.isLineBreak) ∧
      (Stage.again s c (.commentOf c.opens)).steps taken.length =
        .ok (.again s after (.commentOf c.opens)) := by
  induction bytes generalizing c with
  | nil => exact ⟨c, .refl c, by simp [remaining], rfl⟩
  | cons b rest ih =>
    cases isBreak : b.isLineBreak with
    | true =>
      rw [List.takeWhile_cons_of_neg (by simp [isBreak])]
      exact ⟨c, .refl c, by simp [remaining, isBreak], rfl⟩
    | false =>
      obtain ⟨after, passes, ends, steps_eq⟩ := ih c.advance (rest_advance remaining)
      have stepped : (Stage.again s c (.commentOf c.opens)).step =
          .ok (.again s c.advance (.commentOf c.opens)) := by
        rw [Stage.step, turn, peek?_of_rest_eq remaining,
          ScannerMode.transition_inside_comment c.opens isBreak]
        rfl
      rw [List.takeWhile_cons_of_pos (by simp [isBreak])]
      refine ⟨after, (passes_advance remaining isBreak).trans passes, ends, ?_⟩
      rw [List.length_cons, steps_succ stepped]
      exact steps_eq

/-- A few turns more take the scanner behind a segment. -/
def Advances (s : Session) (lexer : Lexer) (first : Byte) (rest : Bytes) (segment : Segment)
    (stage : Stage) : Prop :=
  ∃ n later, n ≤ 2 * segment.tail + 1 ∧ stage.steps n = .ok later ∧
    Reaches s lexer first rest segment later

theorem Reaches.advances {stage : Stage} (reaches : Reaches s lexer first rest segment stage) :
    Advances s lexer first rest segment stage :=
  ⟨0, stage, Nat.zero_le _, rfl, reaches⟩

theorem Starts.comment (starts : c.Starts lexer Byte.hash rest) :
    Advances s lexer Byte.hash rest (.comment rest) (.again s c.advance (.commentOf c.opens)) := by
  obtain ⟨after, passes, ends, steps_eq⟩ :=
    steps_comment c.advance s rest (rest_advance starts.rest_eq)
  have length_eq : ([Byte.hash] ++ rest.takeWhile fun b => !b.isLineBreak).length =
      (Segment.comment rest).tail + 1 := rfl
  have follows := starts.follows_behind ((passes_advance starts.rest_eq rfl).trans passes) length_eq
  have session_eq : s.afterPiece lexer.file (pieceOf lexer Byte.hash rest (.comment rest)) = s :=
    afterPiece_of_silent rfl _
  have opens_eq : after.opens = c.opens := passes.opens_eq
  have resumes : after.Resumes (.commentOf c.opens) := opens_eq ▸ .comment ends
  have reaches := Reaches.silence (s := s) rfl follows resumes
  rw [session_eq] at reaches
  exact ⟨(Segment.comment rest).tail, _, by omega, steps_eq, reaches⟩

theorem Starts.backslash (starts : c.Starts lexer Byte.backslash rest)
    (marks : c.Marks lexer.position) :
    Advances s lexer Byte.backslash rest (.backslash rest)
      (.again s c.advance (.backslashOf c.opens)) := by
  have passes := passes_advance starts.rest_eq rfl
  have remaining := rest_advance starts.rest_eq
  refine ⟨1, ?_⟩
  rw [steps_one, Stage.step, turn, peek?_eq, remaining]
  have stray : Reaches s lexer Byte.backslash rest (.faulty .strayBackslash 0 .strayBackslash)
      (.again (c.advance.report s .strayBackslash) c.advance c.startMode) :=
    starts.again_faulty .strayBackslash marks passes rfl rfl _
  cases rest with
  | nil =>
    rw [List.head?_nil, ScannerMode.transition_stray c.opens rfl]
    exact ⟨_, Nat.le_refl 1, rfl, stray⟩
  | cons b later =>
    rw [Segment.backslash, List.head?_cons]
    cases isBreak : b.isLineBreak with
    | true =>
      rw [if_pos rfl, ScannerMode.transition_continuation c.opens isBreak]
      refine ⟨_, Nat.le_add_left _ _, rfl, ?_⟩
      apply starts.again_skipped .continuation (passes.trans (passes_passBreak remaining isBreak)) _ rfl
      rw [List.length_append, length_break]
      exact Nat.add_comm _ _
    | false =>
      have noBreak : (some b).any Byte.isLineBreak = false := isBreak
      rw [if_neg Bool.false_ne_true, ScannerMode.transition_stray c.opens noBreak]
      exact ⟨_, Nat.le_refl 1, rfl, stray⟩

theorem Starts.operator (starts : c.Starts lexer first rest) (isOther : first.isOther) :
    ∃ stage, c.turn s c.startMode = .ok stage ∧
      Advances s lexer first rest (.operator first rest) stage := by
  have noBreak : first.isLineBreak = false :=
    (Bool.or_eq_false_iff.mp (isEnding_of_class isOther rfl rfl rfl)).1
  have transition_eq := ScannerMode.transition_other c.opens isOther
  have under : c.rest.head? = some first := by
    rw [starts.rest_eq]
    rfl
  rw [Segment.operator]
  cases spelled : TokenKind.ofByte? first with
  | none =>
    rw [OperatorMove.ofFirst?_eq_none spelled] at transition_eq
    refine ⟨_, ?_, (starts.again (passes_advance starts.rest_eq noBreak) rfl rfl
      (show c.reportAt s c.cursor.position .unexpectedCharacter = _ from ?_)).advances⟩
    · rw [turn, peek?_eq, under, startMode, ← ScannerMode.startOf, transition_eq]
      rfl
    · have located := starts.follows.counts.toTracks.locationAt_eq unbroken_nil
      rw [reportAt]
      exact congrArg (fun location => s.recordAll #[⟨location, .unexpectedCharacter⟩])
        (located.trans (congrArg _ starts.follows.file_eq))
  | some kind =>
    obtain ⟨starts', marks⟩ := starts.mark
    obtain ⟨move, move_eq, takes⟩ := OperatorMove.exists_ofFirst? spelled
    obtain ⟨n, after, n_le, passes, steps_eq⟩ :=
      grows_operated (s := s) takes
        fun isBit => grows_operator isBit (rest_advance starts'.rest_eq)
    have length_eq : ([first] ++ rest.take (kind.grown rest).2).length =
        (kind.grown rest).2 + 1 := by
      rw [List.length_append, List.length_take_of_le (kind.grown_le rest)]
      exact Nat.add_comm _ _
    rw [move_eq] at transition_eq
    have turn_eq : c.turn s c.startMode = .ok (c.mark.operated s 0 move) :=
      turn_of_move (by rw [under]; exact transition_eq) s
    refine ⟨_, turn_eq, n, _, ?_, steps_eq, ?_⟩
    · change _ ≤ 2 * (kind.grown rest).2 + 1
      omega
    · exact starts'.finish_unnamed .operator marks ((passes_advance starts'.rest_eq noBreak).trans passes)
        length_eq rfl rfl

/-- The first turn at a segment, by its first byte. -/
theorem Starts.exists_turn (starts : c.Starts lexer first rest) (rooted : s.names.Rooted) :
    ∃ stage, c.turn s c.startMode = .ok stage ∧
      Advances s lexer first rest (Segment.scan lexer.fresh first rest) stage := by
  obtain ⟨starts', marks⟩ := starts.mark
  have under := peek?_of_rest_eq starts.rest_eq
  have same : c.startMode = .startOf c.opens := rfl
  have selects := Segment.selects_scan lexer.fresh first
  generalize Segment.scan lexer.fresh first = scan at selects ⊢
  cases selects with
  | blank isBlank =>
    have noBreak : first.isLineBreak = false :=
      (Bool.or_eq_false_iff.mp (isEnding_of_class isBlank rfl rfl rfl)).1
    rw [turn, under, same, ScannerMode.transition_blank c.opens isBlank]
    exact ⟨_, rfl,
      (starts.again_skipped .blank (passes_advance starts.rest_eq noBreak) rfl rfl).advances⟩
  | word isName =>
    obtain ⟨stage, word_eq, reaches⟩ := starts'.word marks rooted.indexed isName
    rw [turn, under, same, ScannerMode.transition_word c.opens isName]
    exact ⟨stage, word_eq, reaches.advances⟩
  | decimal isDigit =>
    obtain ⟨stage, number_eq, reaches⟩ := starts'.decimal (s := s) marks isDigit
    rw [turn, under, same, ScannerMode.transition_decimal c.opens isDigit]
    dsimp only
    rw [ScannerMode.resumed_startOf]
    exact ⟨stage, number_eq, reaches.advances⟩
  | lineBreak isBreak =>
    have opens_eq := starts.opens_eq
    rw [turn, under, same, ScannerMode.transition_lineBreak c.opens isBreak, Segment.lineBreak,
      ← opens_eq]
    cases begins : c.opens with
    | true =>
      have silent := starts.again_skipped (s := s) .lineBreak (passes_passBreak starts.rest_eq isBreak)
        (length_break first rest) rfl
      rw [same, begins] at silent
      exact ⟨_, rfl, silent.advances⟩
    | false =>
      exact ⟨_, rfl, (starts'.finish_unnamed .lineBreak marks
        (passes_passBreak starts'.rest_eq isBreak) (length_break first rest) rfl rfl).advances⟩
  | comment =>
    rw [turn, under, same, ScannerMode.transition_hash]
    exact ⟨_, rfl, starts.comment⟩
  | backslash =>
    rw [turn, under, same, ScannerMode.transition_backslash]
    exact ⟨_, rfl, starts'.backslash marks⟩
  | semicolon =>
    have passes := passes_advance starts'.rest_eq rfl
    rw [turn, under, same, ScannerMode.transition_semicolon]
    exact ⟨_, rfl, (starts'.finish_unnamed .semicolon marks passes rfl rfl rfl).advances⟩
  | parameter =>
    rw [turn, under, same, ScannerMode.transition_dollar]
    exact ⟨_, rfl, (starts'.parameter marks rooted).advances⟩
  | quoted isQuote =>
    rw [turn, under, same, ScannerMode.transition_quote c.opens isQuote]
    dsimp only
    rw [ScannerMode.resumed_startOf]
    exact ⟨_, rfl, (starts'.quoted marks isQuote).advances⟩
  | operator isOther => exact starts.operator isOther

end AssemblyLexer.Scanner
