import AssemblyLexer.Proofs.Run
import AssemblyLexer.Proofs.SessionLog

/-!
The tokens of a run are those of the pieces of its source, in order and followed
by the end of the source, and the reports of a run are those of the pieces.
-/

set_option autoImplicit false

namespace AssemblyLexer

namespace Piece

def place (file : UInt32) (piece : Piece) : Place where
  location := piece.position.location file
  span := ⟨piece.position.offset, piece.position.offset + piece.bytes.length⟩
  text := piece.bytes

/-- The token that the piece gives, with its place. -/
def found? (file : UInt32) (piece : Piece) : Option (Token × Place) :=
  piece.segment.token?.map fun token => (token, piece.place file)

end Piece

namespace Lexer

/-- The place where the bytes that are left come to their end. -/
def endPlace (lexer : Lexer) : Place :=
  (lexer.pass lexer.rest []).placeOf []

variable {lexer last after : Lexer} {s : Scanned} {all : List Scanned} {skipped : List Piece}

theorem endPlace_eq (bytes : Bytes) (rest_eq : lexer.rest = bytes ++ after.rest)
    (position_eq : after.position = lexer.position.passAll bytes) (file_eq : after.file = lexer.file) :
    after.endPlace = lexer.endPlace := by
  rw [endPlace, endPlace, placeOf, placeOf, pass, pass, rest_eq, Position.passAll_append, position_eq,
    file_eq]

theorem Skips.found_eq (skips : lexer.Skips skipped last) (file : UInt32) :
    skipped.filterMap (Piece.found? file) = [] := by
  induction skips with
  | done => rfl
  | skip _ silent _ ih =>
    rw [List.filterMap_cons, Piece.found?, silent]
    exact ih

/-- What a step adds to the tokens and to the reports comes from the pieces that it takes. -/
theorem Takes.found_eq (takes : lexer.Takes s after) :
    ∃ taken, lexer.pieces = taken ++ after.pieces ∧ after.file = lexer.file ∧
      after.endPlace = lexer.endPlace ∧
      taken.filterMap (Piece.found? lexer.file) = [(s.token, s.place)] ∧
      taken.flatMap (Piece.reports lexer.file) = s.reports.toList := by
  cases takes with
  | @intro last skipped first rest token skips remaining found =>
    have found_eq : Piece.found? lexer.file (last.piece first rest) =
        some (token, last.placeOf (last.piece first rest).bytes) := by
      rw [Piece.found?, found, ← skips.file_eq]
      rfl
    refine ⟨skipped ++ [last.piece first rest], ?_, skips.file_eq, ?_, ?_, ?_⟩
    · exact skips.pieces_eq_of_found remaining found
    · refine endPlace_eq (Piece.join skipped ++ (last.piece first rest).bytes) ?_ ?_ skips.file_eq
      · rw [List.append_assoc, skips.rest_eq, remaining, ← piece_bytes_append]
      · rw [Position.passAll_append, ← skips.position_eq]
        rfl
    · rw [List.filterMap_append, skips.found_eq, List.filterMap_cons, found_eq]
      rfl
    · rw [scanned, skips.file_eq]

theorem Finishes.found_eq (finishes : lexer.Finishes s after) :
    s.place = lexer.endPlace ∧ lexer.pieces.filterMap (Piece.found? lexer.file) = [] ∧
      lexer.pieces.flatMap (Piece.reports lexer.file) = s.reports.toList := by
  cases finishes with
  | @intro last skipped skips atEnd =>
    have pieces_eq := skips.pieces_eq_of_atEnd atEnd
    have place_eq : last.placeOf [] = lexer.endPlace := by
      rw [← endPlace_eq _ skips.rest_eq skips.position_eq skips.file_eq, endPlace, atEnd]
      rfl
    rw [pieces_eq, scanned, skips.file_eq]
    exact ⟨place_eq, skips.found_eq lexer.file, rfl⟩

theorem Runs.found_eq (runs : lexer.Runs all after) :
    all.map (fun s => (s.token, s.place)) =
        lexer.pieces.filterMap (Piece.found? lexer.file) ++
          [(.symbol .endOfSource, lexer.endPlace)] ∧
      all.flatMap (fun s => s.reports.toList) = lexer.pieces.flatMap (Piece.reports lexer.file) := by
  induction runs with
  | last finishes =>
    obtain ⟨place_eq, found_eq, reports_eq⟩ := finishes.found_eq
    constructor
    · rw [found_eq, ← finishes.token_eq, ← place_eq]
      rfl
    · rw [reports_eq, List.flatMap_singleton]
  | more takes _ ih =>
    obtain ⟨taken, pieces_eq, file_eq, place_eq, found_eq, reports_eq⟩ := takes.found_eq
    obtain ⟨later, laterReports⟩ := ih
    rw [file_eq] at later laterReports
    constructor
    · rw [pieces_eq, List.filterMap_append, found_eq, List.map_cons, later, place_eq]
      rfl
    · rw [pieces_eq, List.flatMap_append, reports_eq, List.flatMap_cons, laterReports]

/-- The tokens and the reports of a source, by its pieces. -/
theorem run_found (file : UInt32) (source : Bytes) :
    let all := (ofSource file source).run.1.toList
    all.map (fun s => (s.token, s.place)) =
        (Piece.ofSource source).filterMap (Piece.found? file) ++
          [(.symbol .endOfSource, (ofSource file source).endPlace)] ∧
      all.flatMap (fun s => s.reports.toList) =
        (Piece.ofSource source).flatMap (Piece.reports file) :=
  (ofSource file source).run_runs.found_eq

theorem endPlace_ofSource (file : UInt32) (source : Bytes) :
    (ofSource file source).endPlace.span = ⟨source.length, source.length⟩ ∧
      (ofSource file source).endPlace.text = [] := by
  have offset_eq := Position.offset_passAll_initial source
  constructor
  · rw [← offset_eq]
    rfl
  · rfl

/-- Where a token of a run comes from. -/
inductive Origin (file : UInt32) (source : Bytes) : Token → Place → Prop
  | atEnd : Origin file source (.symbol .endOfSource) (ofSource file source).endPlace
  | piece {piece : Piece} {t : Token} (membership : piece ∈ Piece.ofSource source)
      (found : piece.segment.token? = some t) : Origin file source t (piece.place file)

theorem origin_of_mem_run {file : UInt32} {source : Bytes} {s : Scanned}
    (membership : s ∈ (ofSource file source).run.1) : Origin file source s.token s.place := by
  have found : (s.token, s.place) ∈
      (ofSource file source).run.1.toList.map fun s => (s.token, s.place) :=
    List.mem_map_of_mem (Array.mem_toList_iff.mpr membership)
  rw [(run_found file source).1] at found
  rcases List.mem_append.mp found with ofPiece | atEnd
  · obtain ⟨piece, membership, gives⟩ := List.mem_filterMap.mp ofPiece
    obtain ⟨token, found, pair_eq⟩ := Option.map_eq_some_iff.mp gives
    obtain ⟨token_eq, place_eq⟩ := Prod.mk.inj pair_eq
    rw [← token_eq, ← place_eq]
    exact .piece membership found
  · obtain ⟨token_eq, place_eq⟩ := Prod.mk.inj (List.mem_singleton.mp atEnd)
    rw [token_eq, place_eq]
    exact .atEnd

end Lexer

/-- The pieces of a source make it up. They give the tokens of a run, and what a session records of
the run are their reports. -/
structure Session.Finds (session : Session) (file : UInt32) (source : Bytes)
    (all : Array Scanned) : Prop where
  join_eq : Piece.join (Piece.ofSource source) = source
  tokens_eq : all.toList.map (fun s => (s.token, s.place)) =
    (Piece.ofSource source).filterMap (Piece.found? file) ++
      [(.symbol .endOfSource, (Lexer.ofSource file source).endPlace)]
  log_eq : (session.absorbAll all).log.entries.toList = session.log.entries.toList ++
    ((Piece.ofSource source).flatMap (Piece.reports file)).map Report.diagnostic

theorem Session.finds_run (session : Session) (file : UInt32) (source : Bytes) :
    session.Finds file source (Lexer.ofSource file source).run.1 where
  join_eq := Piece.join_cut _ _ _
  tokens_eq := (Lexer.run_found file source).1
  log_eq := by rw [log_entries_absorbAll, ← (Lexer.run_found file source).2, List.map_flatMap]

end AssemblyLexer
