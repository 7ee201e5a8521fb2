import AssemblyLexer.Proofs.Location
import AssemblyLexer.Proofs.Reachable

/-!
Where the counters of a scanner are right, which is everywhere. They change only where a
line break is passed, in code or in a literal, and yet they always give the line and the
start of the line under the cursor. So do the marks of a token for its first byte, and
what a call reports is located where it stands.
-/

set_option autoImplicit false

namespace AssemblyLexer.Scanner

/-- The counters give the line under the cursor and its start, and no line break is passed in part. -/
structure CountsLines (c : Scanner) (source : Bytes) : Prop where
  within : c.cursor.position ≤ source.length
  nextLine_eq : c.nextLine.toNat = lineAt source c.cursor.position
  lineStart_eq : c.lineStart = lineStartAt source c.cursor.position
  keeps : KeepsBreaks source c.cursor.position

/-- The pieces that are ahead of a scanner, of which its next call takes some. -/
def ahead (c : Scanner) : Lexer :=
  c.standing (Position.initial.passAll (c.cursor.buffer.bytes.take c.cursor.position))

variable {c : Scanner} {s : Session} {stage : Stage} {file : UInt32} {buffer : Buffer}
  {tokens : List Token}

theorem Counted.countsLines (counted : c.Counted)
    (short : c.cursor.buffer.size < UInt32.size - 1) : c.CountsLines c.cursor.buffer.bytes := by
  have within : c.cursor.position ≤ c.cursor.buffer.bytes.length := c.cursor.position_le
  obtain ⟨⟨_, nextLine_eq, lineStart_eq⟩, whole⟩ := counted
  rw [Position.passAll_take within] at nextLine_eq lineStart_eq whole
  refine ⟨within, ?_, lineStart_eq, ?_⟩
  · have line_lt : lineAt c.cursor.buffer.bytes c.cursor.position < UInt32.size := by
      have line_le := lineAt_le c.cursor.buffer.bytes c.cursor.position
      rw [Buffer.size] at short
      omega
    rw [nextLine_eq]
    exact UInt32.toNat_ofNat_of_lt' line_lt
  · intro isFeed positive isReturn
    refine whole ?_ ?_
    · simp [positive, isReturn]
    · rw [rest, List.head?_drop]
      exact isFeed

/-- What holds of the counters and the marks wherever calls have come to. -/
theorem Reachable.located (reachable : Reachable file buffer tokens stage)
    (short : buffer.size < UInt32.size - 1) :
    stage.scanner.CountsLines buffer.bytes ∧
      (stage.isBegun →
        stage.scanner.location.Marks file buffer.bytes stage.scanner.span.start) := by
  obtain ⟨_, rfl, rfl, counted, marked, _, _⟩ := reachable.upheld
  refine ⟨counted.countsLines short, fun begun => ?_⟩
  obtain ⟨start_le, _, location_eq⟩ := marked begun
  rw [location_eq]
  exact Position.marks_location short _ (Nat.le_trans start_le stage.scanner.cursor.position_le)

theorem Counted.reads_ahead (counted : c.Counted) :
    c.Follows c.ahead ∧
      c.ahead.Reads c.file c.cursor.buffer.bytes (c.cursor.buffer.bytes.take c.cursor.position) :=
  ⟨Counts.follows_standing counted, rfl, (List.take_append_drop _ _).symm, rfl⟩

/-- What a call adds to the log, whether its token is complete or its name is refused. -/
theorem Follows.exists_added {lexer : Lexer} (follows : c.Follows lexer) (rooted : s.names.Rooted) :
    ∃ stage, c.next s = .ok stage ∧ stage.isBegun ∧
      stage.session.log.entries.toList =
        s.log.entries.toList ++ lexer.next.1.reports.toList.map Report.diagnostic := by
  cases follows.answers rooted with
  | granted _ ends => exact ⟨_, ends.next_eq, rfl, s.log_entries_absorb lexer.next.1⟩
  | refused _ _ ends => exact ⟨_, ends.next_eq, rfl, s.log_entries_recordAll lexer.next.1.reports⟩

/-- Whatever the sessions of the calls, after every turn of every call the counters are those of the
line under the cursor. The token that a call completes is located where it starts, and what the call
adds to the log are errors in the pieces that it takes, each located where the fault stands. -/
theorem calls_located (file : UInt32) (buffer : Buffer) (short : buffer.size < UInt32.size - 1)
    {sessions : Nat → Session} (rooted : ∀ n, (sessions n).names.Rooted) (n : Nat) :
    ∃ c stage, (ofBuffer file buffer).afterCalls sessions n = .ok c ∧
      c.next (sessions n) = .ok stage ∧
      (∀ count turn, (Stage.again (sessions n) c c.startMode).steps count = .ok turn →
        turn.scanner.CountsLines buffer.bytes) ∧
      stage.scanner.location.Marks file buffer.bytes stage.scanner.span.start ∧
      ∃ taken added, c.ahead.pieces = taken ++ c.ahead.next.2.pieces ∧
        stage.session.log.entries.toList = (sessions n).log.entries.toList ++ added ∧
        ∀ diagnostic ∈ added, diagnostic.Located file buffer.bytes taken := by
  obtain ⟨c, tokens, calls, reachable⟩ := exists_reachable_afterCalls file buffer rooted n
  have upheld := reachable.upheld
  have counted : c.Counted := upheld.counted
  obtain ⟨follows, reads⟩ := counted.reads_ahead
  have file_eq : c.file = file := upheld.file_eq
  have buffer_eq : c.cursor.buffer = buffer := upheld.buffer_eq
  rw [file_eq, buffer_eq] at reads
  obtain ⟨stage, next_eq, begun, entries_eq⟩ := follows.exists_added (rooted n)
  obtain ⟨taken, pieces_eq, located⟩ := reads.exists_located short
  refine ⟨c, stage, calls, next_eq, ?_, ?_, taken, _, pieces_eq, entries_eq, ?_⟩
  · exact fun count turn steps_eq => ((reachable.steps steps_eq).located short).1
  · exact ((reachable.steps next_eq).located short).2 begun
  · intro diagnostic membership
    obtain ⟨report, reported, rfl⟩ := List.mem_map.mp membership
    exact located report reported

/-- The literal before the parameter spans a line break and has an escape at fault. -/
theorem calls_located_behind_literal :
    let source : Bytes := [0x61, 0x0D, 0x0A, 0x27, 0x0D, 0x0A, 0x5C, 0x71, 0x27, 0x24]
    source.length < UInt32.size - 1 ∧ Session.initial.names.Rooted ∧
      ∃ c stage, (ofBuffer 7 ⟨0, source⟩).afterCalls (fun _ => .initial) 2 = .ok c ∧
        c.next .initial = .ok stage ∧ stage.scanner.span = ⟨9, 10⟩ ∧
        stage.scanner.location.Marks 7 source 9 := by
  intro source
  have short : source.length < UInt32.size - 1 := by decide
  obtain ⟨c, stage, calls, next_eq, _, marks, _⟩ :=
    calls_located 7 ⟨0, source⟩ short (fun _ => Session.rooted_initial) 2
  have span_eq : (((ofBuffer 7 ⟨0, source⟩).afterCalls (fun _ => .initial) 2).bind fun c =>
      (c.next .initial).map fun stage => stage.scanner.span) = .ok ⟨9, 10⟩ := by decide +kernel
  rw [calls] at span_eq
  simp only [Except.bind, next_eq, Except.map, Except.ok.injEq] at span_eq
  rw [span_eq] at marks
  exact ⟨short, Session.rooted_initial, c, stage, calls, next_eq, span_eq, marks⟩

end AssemblyLexer.Scanner
