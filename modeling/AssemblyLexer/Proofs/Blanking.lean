import AssemblyLexer.Proofs.Beside
import AssemblyLexer.Proofs.Solo
import AssemblyLexer.Proofs.StatementEnd
import Mathlib.Data.List.Forall2

/-!
Comments and unexpected bytes act as spaces. They may stand right beside names,
numbers, operators and backslashes, and yet spaces in their place leave every
token where it is, and every report but those of the bytes that are gone.
-/

set_option autoImplicit false

namespace AssemblyLexer

namespace Piece

/-- A comment, or a byte that is reported as unexpected. -/
def isIdle (piece : Piece) : Bool :=
  piece.bytes.head? == some Byte.hash ||
    piece.segment.findings.any fun finding => finding.fault = .unexpectedCharacter

theorem idle_of_isIdle {piece : Piece} {first : Byte} {rest : Bytes} (isIdle : piece.isIdle)
    (segment_eq : piece.segment = Segment.scan piece.fresh first rest)
    (bytes_eq : piece.bytes = first :: rest.take piece.segment.tail) :
    Segment.Idle first rest piece.segment := by
  rw [segment_eq]
  rcases Bool.or_eq_true_iff.mp isIdle with isComment | isReported
  · rw [bytes_eq] at isComment
    obtain rfl := Option.some.inj (eq_of_beq isComment)
    exact .comment
  · obtain ⟨finding, found, isFault⟩ := List.any_eq_true.mp isReported
    rw [segment_eq] at found
    exact Segment.idle_of_isUnexpected
      (Segment.isUnexpected_of_finding found (of_decide_eq_true isFault)) _ _

variable (chosen : Piece → Bool)

/-- The piece is replaced: it is one of those that are chosen, and idle. -/
def isBlanked (piece : Piece) : Bool :=
  chosen piece && piece.isIdle

/-- The bytes of a piece, with spaces in their place if it is replaced. -/
def blanked (piece : Piece) : Bytes :=
  if piece.isBlanked chosen then List.replicate piece.bytes.length Byte.space else piece.bytes

def blank (pieces : List Piece) : Bytes :=
  pieces.flatMap (blanked chosen)

/-- What is reported of a piece, unless it is replaced. -/
def reportsLeft (file : UInt32) (piece : Piece) : List Report :=
  if piece.isBlanked chosen then [] else piece.reports file

/-- What pieces and those in their place say of names, and what is left of their reports. -/
structure Leaves (taken taken' : List Piece) : Prop where
  spells_eq : (taken'.any fun piece => piece.segment.spellsName) =
    taken.any fun piece => piece.segment.spellsName
  reports_eq (file : UInt32) :
    taken'.flatMap (Piece.reports file) = taken.flatMap (reportsLeft chosen file)

variable {chosen : Piece → Bool} {piece : Piece} {taken taken' more more' : List Piece}

theorem leaves_nil : Leaves chosen [] [] :=
  ⟨rfl, fun _ => rfl⟩

theorem Leaves.append (left : Leaves chosen taken taken') (right : Leaves chosen more more') :
    Leaves chosen (taken ++ more) (taken' ++ more') where
  spells_eq := by rw [List.any_append, List.any_append, left.spells_eq, right.spells_eq]
  reports_eq file := by
    rw [List.flatMap_append, List.flatMap_append, left.reports_eq, right.reports_eq]

theorem leaves_kept (kept : piece.isBlanked chosen = false) : Leaves chosen [piece] [piece] where
  spells_eq := rfl
  reports_eq file := by
    rw [List.flatMap_singleton, List.flatMap_singleton, reportsLeft, if_neg (by simp [kept])]

/-- Pieces that are quiet may stand for one that is replaced. -/
theorem leaves_quiet (replaced : piece.isBlanked chosen)
    (nameless : piece.segment.spellsName = false)
    (quiet : ∀ other ∈ taken, other.segment.findings = [] ∧ other.segment.spellsName = false) :
    Leaves chosen [piece] taken where
  spells_eq := by
    rw [List.any_eq_false.mpr fun other membership => by simp [(quiet other membership).2]]
    simp [nameless]
  reports_eq file := by
    rw [List.flatMap_singleton, reportsLeft, if_pos replaced, List.flatMap_eq_nil_iff]
    intro other membership
    rw [reports, (quiet other membership).1, List.map_nil]

end Piece

namespace Lexer

/-- The lexer behind a piece, with what it knows of the statement there. -/
def beyond (lexer : Lexer) (first : Byte) (rest : Bytes) : Lexer :=
  { lexer.behind first rest with fresh := (lexer.piece first rest).segment.freshAfter lexer.fresh }

/-- A lexer and one that has spaces in place of the chosen pieces that are idle. -/
structure Blanked (chosen : Piece → Bool) (lexer lexer' : Lexer) : Prop where
  file_eq : lexer'.file = lexer.file
  fresh_eq : lexer'.fresh = lexer.fresh
  position_eq : lexer'.position = lexer.position
  rest_eq : lexer'.rest = Piece.blank chosen lexer.pieces

variable {chosen : Piece → Bool} {lexer lexer' middle last after : Lexer} {first : Byte}
  {rest : Bytes} {skipped more : List Piece} {s : Scanned} {all : List Scanned}

theorem Skips.append (skips : lexer.Skips skipped middle) (later : middle.Skips more last) :
    lexer.Skips (skipped ++ more) last := by
  induction skips with
  | done => exact later
  | skip remaining silent _ ih => exact .skip remaining silent (ih later)

theorem beyond_of_silent (silent : (lexer.piece first rest).segment.token? = none) :
    lexer.beyond first rest = lexer.behind first rest := by
  rw [beyond, Segment.freshAfter, silent]
  rfl

theorem idle_of_isBlanked (replaced : (lexer.piece first rest).isBlanked chosen) :
    Segment.Idle first rest (lexer.piece first rest).segment :=
  Piece.idle_of_isIdle (Bool.and_eq_true_iff.mp replaced).2 rfl rfl

theorem blank_pieces (chosen : Piece → Bool) (remaining : lexer.rest = first :: rest) :
    Piece.blank chosen lexer.pieces = (lexer.piece first rest).blanked chosen ++
      Piece.blank chosen (lexer.beyond first rest).pieces := by
  rw [pieces_eq_cons remaining]
  rfl

theorem beside_blank (chosen : Piece → Bool) (lexer : Lexer) :
    Beside lexer.rest (Piece.blank chosen lexer.pieces) := by
  cases remaining : lexer.rest with
  | nil =>
    rw [pieces_of_atEnd remaining]
    exact .sameHead rfl
  | cons first rest =>
    rw [blank_pieces chosen remaining, Piece.blanked]
    cases replaced : (lexer.piece first rest).isBlanked chosen with
    | true =>
      have goesOn := (unbroken_cons.mp (idle_of_isBlanked replaced).unbroken).1
      exact .space rfl goesOn rfl
    | false => exact .sameHead rfl

theorem Blanked.placeOf_eq (both : lexer.Blanked chosen lexer') (bytes : Bytes) :
    lexer'.placeOf bytes = lexer.placeOf bytes := by
  rw [placeOf, placeOf, both.file_eq, both.position_eq]

/-- A piece that is not replaced is found again. -/
theorem Blanked.exists_piece (both : lexer.Blanked chosen lexer')
    (remaining : lexer.rest = first :: rest)
    (kept : (lexer.piece first rest).isBlanked chosen = false) :
    ∃ rest', lexer'.rest = first :: rest' ∧ lexer'.piece first rest' = lexer.piece first rest ∧
      (lexer.beyond first rest).Blanked chosen (lexer'.beyond first rest') := by
  have same := Segment.scan_beside (beside_blank chosen (lexer.beyond first rest))
  have length_eq := List.length_take_of_le (Segment.scan_tail_le lexer.fresh first rest)
  have rest_eq := both.rest_eq
  rw [blank_pieces chosen remaining, Piece.blanked, if_neg (by simp [kept])] at rest_eq
  generalize following_eq : Piece.blank chosen (lexer.beyond first rest).pieces = following
    at same rest_eq
  have piece_eq : lexer'.piece first (rest.take (lexer.piece first rest).segment.tail ++ following) =
      lexer.piece first rest := by
    simp only [piece] at same ⊢
    simp only [both.fresh_eq, both.position_eq, same, List.take_left' length_eq]
  have drop_eq : ∀ found : Piece, found = lexer.piece first rest →
      (rest.take (lexer.piece first rest).segment.tail ++ following).drop found.segment.tail =
        following := by
    rintro _ rfl
    exact List.drop_left' length_eq
  refine ⟨_, rest_eq, piece_eq, both.file_eq, ?_, ?_, ?_⟩
  · exact congrArg₂ Segment.freshAfter (congrArg Piece.segment piece_eq) both.fresh_eq
  · exact congrArg₂ Position.passAll both.position_eq (congrArg Piece.bytes piece_eq)
  · exact (drop_eq _ piece_eq).trans following_eq.symm

theorem exists_skips_spaces (count : Nat) {following : Bytes}
    (remaining : lexer.rest = List.replicate count Byte.space ++ following) :
    ∃ blanks last, lexer.Skips blanks last ∧ last.rest = following ∧
      Piece.join blanks = List.replicate count Byte.space ∧
      ∀ piece ∈ blanks, piece.segment.findings = [] ∧ piece.segment.spellsName = false := by
  induction count generalizing lexer with
  | zero => exact ⟨[], lexer, .done lexer, remaining, rfl, by simp⟩
  | succ count ih =>
    have remaining' : lexer.rest =
        Byte.space :: (List.replicate count Byte.space ++ following) := remaining
    have behind : (lexer.behind Byte.space (List.replicate count Byte.space ++ following)).rest =
        List.replicate count Byte.space ++ following := rfl
    obtain ⟨blanks, last, skips, rest_eq, join_eq, quiet⟩ := ih behind
    refine ⟨_, last, .skip remaining' rfl skips, rest_eq, ?_, ?_⟩
    · rw [Piece.join_cons, join_eq]
      rfl
    · exact List.forall_mem_cons.mpr ⟨⟨rfl, rfl⟩, quiet⟩

/-- The spaces in place of a piece are skipped, and leave the lexer where the piece does. -/
theorem Blanked.exists_blanks (both : lexer.Blanked chosen lexer')
    (remaining : lexer.rest = first :: rest)
    (replaced : (lexer.piece first rest).isBlanked chosen) :
    ∃ blanks middle', lexer'.Skips blanks middle' ∧
      (lexer.behind first rest).Blanked chosen middle' ∧
      Piece.Leaves chosen [lexer.piece first rest] blanks := by
  have idle := idle_of_isBlanked replaced
  have rest_eq := both.rest_eq
  rw [blank_pieces chosen remaining, Piece.blanked, if_pos replaced,
    beyond_of_silent idle.token?_eq] at rest_eq
  obtain ⟨blanks, middle', skips, rest_eq', join_eq, quiet⟩ := exists_skips_spaces _ rest_eq
  refine ⟨blanks, middle', skips, ⟨?_, ?_, ?_, rest_eq'⟩,
    Piece.leaves_quiet replaced idle.spellsName_eq quiet⟩
  · exact skips.file_eq.trans both.file_eq
  · exact skips.fresh_eq.trans both.fresh_eq
  · have unbroken : Unbroken (lexer.piece first rest).bytes := idle.unbroken
    have unbroken' : Unbroken (List.replicate (lexer.piece first rest).bytes.length Byte.space) := by
      intro b isSpace
      rw [List.eq_of_mem_replicate isSpace]
      rfl
    calc middle'.position
        = lexer.position.passAll (List.replicate (lexer.piece first rest).bytes.length Byte.space) := by
          rw [skips.position_eq, join_eq, both.position_eq]
      _ = lexer.position.passAll (lexer.piece first rest).bytes := by
          rw [Position.passAll_of_unbroken unbroken', List.length_replicate,
            Position.passAll_of_unbroken unbroken]
          rfl

theorem Skips.blanked (skips : lexer.Skips skipped last) (both : lexer.Blanked chosen lexer') :
    ∃ skipped' last', lexer'.Skips skipped' last' ∧ last.Blanked chosen last' ∧
      Piece.Leaves chosen skipped skipped' := by
  induction skips generalizing lexer' with
  | done => exact ⟨[], lexer', .done lexer', both, Piece.leaves_nil⟩
  | @skip lexer last first rest skipped remaining silent _ ih =>
    cases replaced : (lexer.piece first rest).isBlanked chosen with
    | true =>
      obtain ⟨blanks, middle', skips', both', leaves⟩ := both.exists_blanks remaining replaced
      obtain ⟨skipped', last', later, both'', leaves'⟩ := ih both'
      exact ⟨_, last', skips'.append later, both'', leaves.append leaves'⟩
    | false =>
      obtain ⟨rest', remaining', piece_eq, both'⟩ := both.exists_piece remaining replaced
      have silent' : (lexer'.piece first rest').segment.token? = none := piece_eq ▸ silent
      rw [beyond_of_silent silent, beyond_of_silent silent'] at both'
      obtain ⟨skipped', last', later, both'', leaves⟩ := ih both'
      refine ⟨_, last', .skip remaining' silent' later, both'', ?_⟩
      rw [piece_eq]
      exact (Piece.leaves_kept replaced).append leaves

end Lexer

/-- Two steps with the same token, which differ in nothing but their reports. -/
structure Scanned.Agrees (s s' : Scanned) : Prop where
  token_eq : s'.token = s.token
  place_eq : s'.place = s.place
  spelledName_eq : s'.spelledName = s.spelledName

namespace Lexer

variable {chosen : Piece → Bool} {lexer lexer' after : Lexer} {s : Scanned} {all : List Scanned}

theorem Takes.blanked (takes : lexer.Takes s after) (both : lexer.Blanked chosen lexer') :
    ∃ taken s' after', lexer.pieces = taken ++ after.pieces ∧ lexer'.Takes s' after' ∧
      after.Blanked chosen after' ∧ s.Agrees s' ∧
      s'.reports.toList = taken.flatMap (Piece.reportsLeft chosen lexer.file) := by
  cases takes with
  | @intro last skipped first rest token skips remaining found =>
    obtain ⟨skipped', last', skips', both', leaves⟩ := skips.blanked both
    have kept : (last.piece first rest).isBlanked chosen = false := by
      by_contra replaced
      have silent := (idle_of_isBlanked (Bool.eq_true_of_not_eq_false replaced)).token?_eq
      cases silent.symm.trans found
    obtain ⟨rest', remaining', piece_eq, both''⟩ := both'.exists_piece remaining kept
    have found' : (last'.piece first rest').segment.token? = some token := piece_eq ▸ found
    have leaves' : Piece.Leaves chosen (skipped ++ [last.piece first rest])
        (skipped' ++ [last'.piece first rest']) := by
      rw [piece_eq]
      exact leaves.append (Piece.leaves_kept kept)
    rw [beyond, beyond, Segment.freshAfter, Segment.freshAfter, found, found'] at both''
    refine ⟨skipped ++ [last.piece first rest], _, _, ?_, .intro skips' remaining' found',
      ⟨both''.file_eq, both''.fresh_eq, both''.position_eq, both''.rest_eq⟩,
      ⟨rfl, ?_, leaves'.spells_eq⟩, ?_⟩
    · exact skips.pieces_eq_of_found remaining found
    · rw [scanned, scanned, piece_eq, both'.placeOf_eq]
    · rw [← skips.file_eq, ← leaves'.reports_eq, ← both'.file_eq]
      rfl

theorem Finishes.blanked (finishes : lexer.Finishes s after) (both : lexer.Blanked chosen lexer') :
    ∃ s' after', lexer'.Finishes s' after' ∧ s.Agrees s' ∧
      s'.reports.toList = lexer.pieces.flatMap (Piece.reportsLeft chosen lexer.file) := by
  cases finishes with
  | @intro last skipped skips atEnd =>
    obtain ⟨skipped', last', skips', both', leaves⟩ := skips.blanked both
    have pieces_eq := skips.pieces_eq_of_atEnd atEnd
    have atEnd' : last'.rest = [] := by
      rw [both'.rest_eq, pieces_of_atEnd atEnd]
      rfl
    refine ⟨_, _, .intro skips' atEnd', ⟨rfl, both'.placeOf_eq [], leaves.spells_eq⟩, ?_⟩
    rw [pieces_eq, ← skips.file_eq, ← leaves.reports_eq, ← both'.file_eq]
    rfl

/-- A run goes on as if nothing had been replaced. -/
theorem Runs.blanked (runs : lexer.Runs all after) (both : lexer.Blanked chosen lexer') :
    ∃ all' after', lexer'.Runs all' after' ∧ List.Forall₂ Scanned.Agrees all all' ∧
      all'.flatMap (fun s => s.reports.toList) =
        lexer.pieces.flatMap (Piece.reportsLeft chosen lexer.file) := by
  induction runs generalizing lexer' with
  | last finishes =>
    obtain ⟨s', after', finishes', agrees, reports_eq⟩ := finishes.blanked both
    exact ⟨[s'], after', .last finishes', .cons agrees .nil, by rw [List.flatMap_singleton, reports_eq]⟩
  | more takes _ ih =>
    obtain ⟨taken, s', middle', pieces_eq, takes', both', agrees, reports_eq⟩ := takes.blanked both
    obtain ⟨all', after', runs', same, later⟩ := ih both'
    obtain ⟨_, _, file_eq, _⟩ := takes.found_eq
    refine ⟨s' :: all', after', .more takes' runs', .cons agrees same, ?_⟩
    rw [List.flatMap_cons, reports_eq, later, file_eq, pieces_eq, List.flatMap_append]

end Lexer

namespace Piece

/-- A comment goes on to the line break or to the end of the source, and nothing comes of it. -/
structure Comments (file : UInt32) (piece : Piece) (following : Bytes) : Prop where
  unbroken : Unbroken piece.bytes
  stops : StopsClass (fun b => !b.isLineBreak) following
  silent : piece.segment.token? = none
  unreported : piece.reports file = []

/-- A byte that is reported as unexpected, by itself and with no other report. -/
structure Surprises (file : UInt32) (piece : Piece) : Prop where
  alone : ∃ b, piece.bytes = [b]
  silent : piece.segment.token? = none
  reports_eq : piece.reports file = [⟨piece.position.location file, .unexpectedCharacter⟩]

variable {source : Bytes} {piece : Piece} {before after : List Piece}

theorem comments (split : ofSource source = before ++ piece :: after)
    (starts : piece.bytes.head? = some Byte.hash) (file : UInt32) :
    piece.Comments file (join after) := by
  obtain ⟨first, rest, among⟩ := among_of_ofSource split
  have bytes_eq := among.bytes_eq
  have after_eq := among.after_eq
  rw [bytes_eq] at starts
  obtain rfl := Option.some.inj starts
  have segment_eq : piece.segment = Segment.comment rest := among.segment_eq
  rw [segment_eq] at bytes_eq after_eq
  refine ⟨?_, ?_, by rw [segment_eq]; rfl, by rw [reports, segment_eq]; rfl⟩
  · rw [bytes_eq]
    exact unbroken_cons.mpr ⟨rfl, Segment.unbroken_comment rest⟩
  · rw [after_eq]
    exact Segment.stops_comment rest

theorem surprises (membership : piece ∈ ofSource source) {file : UInt32} {report : Report}
    (reported : report ∈ piece.reports file) (isFault : report.fault = .unexpectedCharacter) :
    piece.Surprises file := by
  obtain ⟨passed, first, rest, stands⟩ := stands_of_mem_ofSource membership
  obtain ⟨finding, found, rfl⟩ := List.mem_map.mp reported
  have bytes_eq := stands.bytes_eq
  rw [stands.segment_eq] at found
  have isUnexpected := Segment.isUnexpected_of_finding found isFault
  have segment_eq := stands.segment_eq.trans (Segment.scan_of_isUnexpected isUnexpected _ _)
  rw [segment_eq] at bytes_eq
  refine ⟨⟨first, bytes_eq⟩, by rw [segment_eq]; rfl, by rw [reports, segment_eq]; rfl⟩

end Piece

namespace Session

variable {s s' : Session} {scanned scanned' : Scanned} {all all' : List Scanned}

/-- Names come from tokens alone. -/
theorem names_absorb_of_agrees (agrees : scanned.Agrees scanned') (same : s'.names = s.names) :
    (s'.absorb scanned').2 = (s.absorb scanned).2 ∧
      (s'.absorb scanned').1.names = (s.absorb scanned).1.names := by
  unfold absorb internName
  simp only [recordAll, same, agrees.token_eq, agrees.spelledName_eq]
  cases scanned.token.name? with
  | none => exact ⟨rfl, rfl⟩
  | some text => exact ⟨rfl, rfl⟩

theorem answers_of_agrees (agree : List.Forall₂ Scanned.Agrees all all')
    (same : s'.names = s.names) :
    (s'.answers all').map (fun given => (given.1.token, given.1.place, given.2)) =
      (s.answers all).map fun given => (given.1.token, given.1.place, given.2) := by
  induction agree generalizing s s' with
  | nil => rfl
  | @cons scanned scanned' all all' agrees _ ih =>
    obtain ⟨name_eq, names_eq⟩ := names_absorb_of_agrees agrees same
    simp only [answers, List.map_cons, ih names_eq, name_eq, Sharing.answer, agrees.token_eq,
      agrees.place_eq]

/-- Two runs, over a source and over the one that has spaces in place of the chosen pieces that are
idle. -/
structure KeepsBlanked (session : Session) (file : UInt32) (source : Bytes) (chosen : Piece → Bool)
    (all all' : Array Scanned) : Prop extends session.Finds file source all where
  comments : ∀ before piece after, Piece.ofSource source = before ++ piece :: after →
    piece.bytes.head? = some Byte.hash → piece.Comments file (Piece.join after)
  surprises : ∀ piece ∈ Piece.ofSource source, ∀ report ∈ piece.reports file,
    report.fault = .unexpectedCharacter → piece.Surprises file
  /-- The tokens, their places and their names are the same. -/
  answers_eq :
    (session.answers all'.toList).map (fun given => (given.1.token, given.1.place, given.2)) =
      (session.answers all.toList).map fun given => (given.1.token, given.1.place, given.2)
  /-- What is recorded is the same, but for the reports of the pieces that are replaced. -/
  blanked_log_eq : (session.absorbAll all').log.entries.toList = session.log.entries.toList ++
    ((Piece.ofSource source).flatMap (Piece.reportsLeft chosen file)).map Report.diagnostic

/-- Comments and unexpected bytes act as spaces. -/
theorem absorbAll_blanked (session : Session) (file : UInt32) (source : Bytes)
    (chosen : Piece → Bool) :
    session.KeepsBlanked file source chosen (Lexer.ofSource file source).run.1
      (Lexer.ofSource file (Piece.blank chosen (Piece.ofSource source))).run.1 := by
  have both : (Lexer.ofSource file source).Blanked chosen
      (Lexer.ofSource file (Piece.blank chosen (Piece.ofSource source))) := ⟨rfl, rfl, rfl, rfl⟩
  obtain ⟨all', after', runs', agree, reports_eq⟩ := (Lexer.ofSource file source).run_runs.blanked both
  rw [runs'.run_eq]
  refine ⟨session.finds_run file source, ?_, ?_, ?_, ?_⟩
  · intro before piece after split starts
    exact Piece.comments split starts file
  · intro piece membership report reported isFault
    exact Piece.surprises membership reported isFault
  · exact answers_of_agrees agree rfl
  · rw [log_entries_absorbAll, ← List.map_flatMap, reports_eq]
    rfl

/-- Comments beside an operator and a backslash, and unexpected bytes beside a name and a number. -/
theorem absorbAll_blanked_beside_tokens :
    let source := Utf8.ofString "a`:<#=\n\\#b\n1`'2"
    let blanked := Utf8.ofString "a :<  \n\\  \n1 '2"
    Piece.blank (fun _ => true) (Piece.ofSource source) = blanked ∧
      initial.KeepsBlanked 1 source (fun _ => true) (Lexer.ofSource 1 source).run.1
        (Lexer.ofSource 1 blanked).run.1 := by
  intro source blanked
  have blank_eq : Piece.blank (fun _ => true) (Piece.ofSource source) = blanked := by
    decide +kernel
  refine ⟨blank_eq, ?_⟩
  rw [← blank_eq]
  exact absorbAll_blanked initial 1 source fun _ => true

end Session

end AssemblyLexer
