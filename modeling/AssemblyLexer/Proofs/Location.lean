import AssemblyLexer.Proofs.FaultPlace
import AssemblyLexer.Proofs.LineColumn
import AssemblyLexer.Proofs.Run
import AssemblyLexer.Proofs.SessionLog

/-!
Faults are located by the line and the column that their offsets have in the source,
however the lexer came there.
-/

set_option autoImplicit false

namespace AssemblyLexer

variable {file : UInt32} {source : Bytes}

/-- The fault of a piece stands in the source from the piece's start on, and its report is located
there. -/
theorem Piece.finding_located (short : source.length < UInt32.size - 1) {piece : Piece}
    {passed rest : Bytes} {first : Byte} (stands : piece.Stands source passed first rest)
    {finding : Finding} (found : finding ∈ piece.segment.findings) :
    Fault.At (source.drop piece.position.offset) finding.fault finding.offset ∧
      ((piece.position.passAll (piece.bytes.take finding.offset)).location file).Marks file source
        (piece.position.offset + finding.offset) := by
  rw [stands.segment_eq] at found
  obtain ⟨fault, bound⟩ := Segment.founded_scan piece.fresh first rest finding found
  have tail_le := Segment.scan_tail_le piece.fresh first rest
  rw [Segment.length] at bound
  have taken_eq : passed ++ piece.bytes.take finding.offset =
      source.take (passed.length + finding.offset) := by
    rw [stands.source_eq, List.take_length_add_append, stands.bytes_eq, stands.segment_eq,
      ← List.take_succ_cons, List.take_take, Nat.min_eq_left bound]
  constructor
  · rw [stands.offset_eq, stands.source_eq, List.drop_left]
    exact fault
  · rw [stands.offset_eq, stands.position_eq, ← Position.passAll_append, taken_eq]
    apply Position.marks_location short file
    rw [stands.source_eq, List.length_append, List.length_cons]
    omega

/-- The diagnostic is an error for something that is at fault in one of the pieces, and located where
the fault stands. -/
def Diagnostic.Located (diagnostic : Diagnostic) (file : UInt32) (source : Bytes) (pieces : List Piece) :
    Prop :=
  diagnostic.severity = .error ∧
    ∃ piece ∈ pieces, ∃ finding ∈ piece.segment.findings,
      diagnostic.message = finding.fault.message ∧
        Fault.At (source.drop piece.position.offset) finding.fault finding.offset ∧
        diagnostic.location.Marks file source (piece.position.offset + finding.offset)

/-- Every report of a step of a lexer is located, whatever the mode that the lexer starts in. -/
theorem Lexer.Reads.exists_located {lexer : Lexer} {passed : Bytes}
    (reads : lexer.Reads file source passed) (short : source.length < UInt32.size - 1) :
    ∃ taken, lexer.pieces = taken ++ lexer.next.2.pieces ∧
      ∀ report ∈ lexer.next.1.reports.toList, report.diagnostic.Located file source taken := by
  obtain ⟨skipped, taken, stands, pieces_eq, _⟩ := Lexer.next_reads reads
  refine ⟨taken, pieces_eq, ?_⟩
  intro report reported
  rw [stands.reports_eq] at reported
  obtain ⟨piece, isTaken, ofPiece⟩ := List.mem_flatMap.mp reported
  obtain ⟨finding, found, rfl⟩ := List.mem_map.mp ofPiece
  have isPiece : piece ∈ lexer.pieces := by
    rw [pieces_eq]
    exact List.mem_append_left _ isTaken
  obtain ⟨_, first, rest, stands⟩ :=
    Piece.stands_of_mem_cut _ _ _ isPiece passed reads.source_eq reads.position_eq
  exact ⟨rfl, piece, isTaken, finding, found, rfl, Piece.finding_located short stands found⟩

end AssemblyLexer
