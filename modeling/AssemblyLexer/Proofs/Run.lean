import AssemblyLexer.Proofs.Piece
import AssemblyLexer.Proofs.SegmentToken

/-!
Steps one after another. A lexer that reads a source stands behind a beginning
of it, with pieces of that source still to come, and a whole run takes tokens
until it finishes.
-/

set_option autoImplicit false

namespace AssemblyLexer.Lexer

def afterSteps (lexer : Lexer) : Nat → Lexer
  | 0 => lexer
  | n + 1 => (lexer.afterSteps n).next.2

/-- The lexer stands in the source of a file behind the bytes that have been passed. -/
structure Reads (lexer : Lexer) (file : UInt32) (source passed : Bytes) : Prop where
  file_eq : lexer.file = file
  source_eq : source = passed ++ lexer.rest
  position_eq : lexer.position = Position.initial.passAll passed

theorem reads_ofSource (file : UInt32) (source : Bytes) :
    (ofSource file source).Reads file source [] :=
  ⟨rfl, rfl, rfl⟩

variable {lexer after : Lexer} {s : Scanned} {file : UInt32} {source passed : Bytes}

theorem Reads.offset_eq (reads : lexer.Reads file source passed) :
    lexer.position.offset = passed.length := by
  rw [reads.position_eq, Position.offset_passAll_initial]

theorem Reads.skips {skipped : List Piece} {last : Lexer} (reads : lexer.Reads file source passed)
    (skips : lexer.Skips skipped last) :
    last.Reads file source (passed ++ Piece.join skipped) where
  file_eq := by rw [skips.file_eq, reads.file_eq]
  source_eq := by rw [List.append_assoc, ← skips.rest_eq, reads.source_eq]
  position_eq := by rw [skips.position_eq, reads.position_eq, Position.passAll_append]

/-- What a step finds stands in the source behind the bytes that have been passed, and its reports
are those of the pieces that it takes. -/
structure Stands (s : Scanned) (file : UInt32) (passed : Bytes) (taken : List Piece) : Prop where
  location_eq : s.place.location = (Position.initial.passAll passed).location file
  start_eq : s.place.span.start = passed.length
  stop_eq : s.place.span.stop = passed.length + s.place.text.length
  reports_eq : s.reports.toList = taken.flatMap (Piece.reports file)

theorem stands_scanned {last : Lexer} {token : Token} {bytes : Bytes}
    (reads : last.Reads file source passed) (taken : List Piece) :
    Stands (scanned token (last.placeOf bytes) last.file taken) file passed taken := by
  refine ⟨?_, reads.offset_eq, congrArg (· + bytes.length) reads.offset_eq, ?_⟩
  · rw [scanned, placeOf, reads.position_eq, reads.file_eq]
  · rw [scanned, reads.file_eq]

theorem Takes.reads (takes : lexer.Takes s after) (reads : lexer.Reads file source passed) :
    ∃ skipped taken, Stands s file (passed ++ skipped) taken ∧
      lexer.pieces = taken ++ after.pieces ∧
      after.Reads file source (passed ++ skipped ++ s.place.text) := by
  cases takes with
  | @intro last skipped first rest token skips remaining found =>
    have there := reads.skips skips
    have pieces_eq := skips.pieces_eq_of_found remaining found
    refine ⟨Piece.join skipped, skipped ++ [last.piece first rest], stands_scanned there _,
      pieces_eq, there.file_eq, ?_, ?_⟩
    · rw [there.source_eq, remaining, ← piece_bytes_append, ← List.append_assoc]
      rfl
    · rw [Position.passAll_append, ← there.position_eq]
      rfl

theorem Finishes.reads (finishes : lexer.Finishes s after)
    (reads : lexer.Reads file source passed) :
    ∃ skipped taken, Stands s file (passed ++ skipped) taken ∧
      lexer.pieces = taken ++ after.pieces ∧
      after.Reads file source (passed ++ skipped ++ s.place.text) := by
  cases finishes with
  | @intro last skipped skips atEnd =>
    have there := reads.skips skips
    refine ⟨Piece.join skipped, skipped, stands_scanned there _, skips.pieces_eq, there.file_eq,
      ?_, ?_⟩
    · rw [there.source_eq, scanned, placeOf, List.append_nil]
    · rw [scanned, placeOf, List.append_nil, ← there.position_eq]

theorem next_reads (reads : lexer.Reads file source passed) :
    ∃ skipped taken, Stands lexer.next.1 file (passed ++ skipped) taken ∧
      lexer.pieces = taken ++ lexer.next.2.pieces ∧
      lexer.next.2.Reads file source (passed ++ skipped ++ lexer.next.1.place.text) := by
  rcases lexer.next_cases with takes | finishes
  · exact takes.reads reads
  · exact finishes.reads reads

/-- Every lexer that is reached from the start of a source reads that source. -/
theorem reads_afterSteps (file : UInt32) (source : Bytes) (n : Nat) :
    ∃ passed, ((ofSource file source).afterSteps n).Reads file source passed := by
  induction n with
  | zero => exact ⟨[], reads_ofSource file source⟩
  | succ n ih =>
    obtain ⟨passed, reads⟩ := ih
    obtain ⟨_, _, _, _, later⟩ := next_reads reads
    exact ⟨_, later⟩

theorem Takes.kind_ne (takes : lexer.Takes s after) : s.token.kind ≠ .endOfSource := by
  cases takes with
  | @intro last skipped first rest token skips remaining found =>
    cases Segment.gives_scan last.fresh first rest with
    | token found' ends =>
      obtain rfl := Option.some.inj (found'.symm.trans found)
      exact ends
    | fault none => cases none.symm.trans found
    | silence none => cases none.symm.trans found

theorem Finishes.token_eq (finishes : lexer.Finishes s after) :
    s.token = .symbol .endOfSource := by
  cases finishes with
  | intro => rfl

inductive Runs : Lexer → List Scanned → Lexer → Prop
  | last {lexer after : Lexer} {s : Scanned} (finishes : lexer.Finishes s after) :
      Runs lexer [s] after
  | more {lexer middle after : Lexer} {s : Scanned} {all : List Scanned}
      (takes : lexer.Takes s middle) (later : Runs middle all after) : Runs lexer (s :: all) after

theorem runFrom_runs (lexer : Lexer) (before : Array Scanned) :
    ∃ all, (lexer.runFrom before).1.toList = before.toList ++ all ∧
      lexer.Runs all (lexer.runFrom before).2 := by
  rw [runFrom]
  by_cases atEnd : lexer.next.1.token = .symbol .endOfSource
  · rw [dif_pos atEnd]
    rcases lexer.next_cases with takes | finishes
    · exact absurd (congrArg Token.kind atEnd) takes.kind_ne
    · exact ⟨[lexer.next.1], by simp, .last finishes⟩
  · rw [dif_neg atEnd]
    rcases lexer.next_cases with takes | finishes
    · obtain ⟨all, all_eq, runs⟩ := runFrom_runs lexer.next.2 (before.push lexer.next.1)
      exact ⟨lexer.next.1 :: all, by simp [all_eq], .more takes runs⟩
    · exact absurd finishes.token_eq atEnd
termination_by lexer.rest.length
decreasing_by exact (scanFrom_rest_length lexer #[] false).resolve_left atEnd

theorem Runs.runFrom_eq {all : List Scanned} (runs : lexer.Runs all after)
    (before : Array Scanned) : lexer.runFrom before = (before ++ all.toArray, after) := by
  induction runs generalizing before with
  | last finishes =>
    rw [runFrom, finishes.next_eq]
    dsimp only
    rw [dif_pos finishes.token_eq]
    simp
  | more takes later ih =>
    rw [runFrom, takes.next_eq]
    dsimp only
    rw [dif_neg fun atEnd => takes.kind_ne (congrArg Token.kind atEnd), ih]
    simp

theorem Runs.run_eq {all : List Scanned} (runs : lexer.Runs all after) :
    lexer.run = (all.toArray, after) := by
  rw [run, runs.runFrom_eq, Array.empty_append]

theorem run_runs (lexer : Lexer) : lexer.Runs lexer.run.1.toList lexer.run.2 := by
  obtain ⟨all, all_eq, runs⟩ := lexer.runFrom_runs #[]
  rw [run, all_eq]
  exact runs

end AssemblyLexer.Lexer
