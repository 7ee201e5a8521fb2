import AssemblyLexer.Proofs.ScannerTable

/-!
How a scanner moves. Whatever it takes, its cursor goes over bytes of the buffer.
It counts lines only where it passes a line break as a whole, and so that the
counts are always those of the position which the same bytes lead to.
-/

set_option autoImplicit false

namespace AssemblyLexer.Scanner

/-- The counters are those of a position in the buffer. -/
structure Tracks (c : Scanner) (p : Position) : Prop where
  offset_eq : c.cursor.position = p.offset
  nextLine_eq : c.nextLine = UInt32.ofNat p.line
  lineStart_eq : c.lineStart = p.lineStart

/-- Besides, the cursor is not between the two bytes of one line break. -/
structure Counts (c : Scanner) (p : Position) : Prop extends c.Tracks p where
  whole : p.afterReturn → c.rest.head? ≠ some Byte.lineFeed

/-- From one scanner to another over some bytes of the buffer. -/
structure Moves (c : Scanner) (bytes : Bytes) (after : Scanner) : Prop where
  file_eq : after.file = c.file
  opens_eq : after.opens = c.opens
  start_eq : after.start = c.start
  line_eq : after.line = c.line
  column_eq : after.column = c.column
  buffer_eq : after.cursor.buffer = c.cursor.buffer
  offset_eq : after.cursor.position = c.cursor.position + bytes.length
  rest_eq : c.rest = bytes ++ after.rest

/-- The lines are counted with the bytes. -/
structure Passes (c : Scanner) (bytes : Bytes) (after : Scanner) : Prop extends
    c.Moves bytes after where
  counts : ∀ {p : Position}, c.Counts p → after.Counts (p.passAll bytes)

variable {c middle after : Scanner} {bytes rest : Bytes} {b : Byte} {p : Position}

theorem Moves.refl (c : Scanner) : c.Moves [] c :=
  ⟨rfl, rfl, rfl, rfl, rfl, rfl, rfl, rfl⟩

theorem Moves.trans {more : Bytes} (moves : c.Moves bytes middle) (further : middle.Moves more after) :
    c.Moves (bytes ++ more) after where
  file_eq := further.file_eq.trans moves.file_eq
  opens_eq := further.opens_eq.trans moves.opens_eq
  start_eq := further.start_eq.trans moves.start_eq
  line_eq := further.line_eq.trans moves.line_eq
  column_eq := further.column_eq.trans moves.column_eq
  buffer_eq := further.buffer_eq.trans moves.buffer_eq
  offset_eq := by rw [further.offset_eq, moves.offset_eq, List.length_append, Nat.add_assoc]
  rest_eq := by rw [moves.rest_eq, further.rest_eq, List.append_assoc]

theorem Moves.rest_after (moves : c.Moves bytes after) : after.rest = c.rest.drop bytes.length := by
  rw [moves.rest_eq, List.drop_left]

theorem Moves.location_eq (moves : c.Moves bytes after) : after.location = c.location := by
  rw [location, location, moves.file_eq, moves.line_eq, moves.column_eq]

theorem Passes.refl (c : Scanner) : c.Passes [] c :=
  ⟨.refl c, id⟩

theorem Passes.trans {more : Bytes} (passes : c.Passes bytes middle)
    (further : middle.Passes more after) : c.Passes (bytes ++ more) after := by
  refine ⟨passes.toMoves.trans further.toMoves, ?_⟩
  intro p counts
  rw [Position.passAll_append]
  exact further.counts (passes.counts counts)

/-- Within a line there is nothing to be counted. -/
theorem Moves.passes (moves : c.Moves bytes after) (unbroken : Unbroken bytes)
    (nextLine_eq : after.nextLine = c.nextLine) (lineStart_eq : after.lineStart = c.lineStart) :
    c.Passes bytes after := by
  refine ⟨moves, ?_⟩
  intro p counts
  rw [Position.passAll_of_unbroken unbroken]
  refine ⟨⟨?_, nextLine_eq.trans counts.nextLine_eq, lineStart_eq.trans counts.lineStart_eq⟩, ?_⟩
  · rw [moves.offset_eq, counts.offset_eq]
  · intro afterReturn
    obtain ⟨isEmpty, afterReturn⟩ := Bool.and_eq_true_iff.mp afterReturn
    have rest_eq := moves.rest_eq
    rw [List.isEmpty_iff.mp isEmpty, List.nil_append] at rest_eq
    rw [← rest_eq]
    exact counts.whole afterReturn

theorem peek?_eq (c : Scanner) : c.cursor.peek? = c.rest.head? := by
  rw [rest, List.head?_drop]
  rfl

theorem peek?_of_rest_eq (remaining : c.rest = b :: rest) : c.cursor.peek? = some b := by
  rw [peek?_eq, remaining]
  rfl

theorem moves_advance (remaining : c.rest = b :: rest) : c.Moves [b] c.advance := by
  have inside : c.cursor.position < c.cursor.buffer.size :=
    (List.getElem?_eq_some_iff.mp (peek?_of_rest_eq remaining)).1
  have advance_eq : c.advance = { c with
      cursor := { c.cursor with position := c.cursor.position + 1, position_le := inside } } := by
    rw [advance, Cursor.advance, dif_pos inside]
  rw [advance_eq]
  refine ⟨rfl, rfl, rfl, rfl, rfl, rfl, rfl, ?_⟩
  rw [remaining, Scanner.rest, ← List.drop_drop]
  change b :: rest = [b] ++ c.rest.drop 1
  rw [remaining]
  rfl

theorem passes_advance (remaining : c.rest = b :: rest) (noBreak : b.isLineBreak = false) :
    c.Passes [b] c.advance :=
  (moves_advance remaining).passes (unbroken_cons.mpr ⟨noBreak, unbroken_nil⟩) rfl rfl

theorem rest_advance (remaining : c.rest = b :: rest) : c.advance.rest = rest := by
  rw [(moves_advance remaining).rest_after, remaining]
  rfl

theorem passes_one (under : c.rest.head? = some b) (noBreak : b.isLineBreak = false) :
    c.Passes (c.rest.take 1) c.advance := by
  obtain ⟨rest, remaining⟩ := List.head?_eq_some_iff.mp under
  rw [remaining]
  exact passes_advance remaining noBreak

theorem nextLine_advanceBy (c : Scanner) (count : Nat) :
    (c.advanceBy count).nextLine = c.nextLine ∧ (c.advanceBy count).lineStart = c.lineStart := by
  induction count generalizing c with
  | zero => exact ⟨rfl, rfl⟩
  | succ count ih => exact ih c.advance

theorem moves_advanceBy {count : Nat} (within : count ≤ c.rest.length) :
    c.Moves (c.rest.take count) (c.advanceBy count) := by
  induction count generalizing c with
  | zero => exact .refl c
  | succ count ih =>
    cases remaining : c.rest with
    | nil => simp [remaining] at within
    | cons b rest =>
      have stepped := moves_advance remaining
      have later := rest_advance remaining
      have within' : count ≤ c.advance.rest.length := by
        rw [later]
        rw [remaining] at within
        exact Nat.le_of_succ_le_succ within
      have further := ih within'
      rw [later] at further
      exact stepped.trans further

theorem advanceIf_of_head? (under : c.rest.head? = some b) : c.advanceIf b = (true, c.advance) := by
  rw [advanceIf, Cursor.advanceIf, peek?_eq, if_pos under]
  rfl

theorem advanceIf_of_head?_ne (under : c.rest.head? ≠ some b) : c.advanceIf b = (false, c) := by
  rw [advanceIf, Cursor.advanceIf, peek?_eq, if_neg under]

theorem ofNat_succ (n : Nat) : UInt32.ofNat (n + 1) = UInt32.ofNat n + 1 :=
  UInt32.ofNat_add n 1

/-- The counters follow bytes that end one line, with nothing of the next. -/
theorem Moves.passes_newLine (moves : c.Moves bytes after) (nextLine_eq : after.nextLine = c.nextLine)
    (ends : ∀ {p : Position}, c.Counts p →
      (p.passAll bytes).line = p.line + 1 ∧ (p.passAll bytes).lineStart = p.offset + bytes.length ∧
        ((p.passAll bytes).afterReturn → after.rest.head? ≠ some Byte.lineFeed)) :
    c.Passes bytes after.newLine := by
  refine ⟨⟨moves.file_eq, moves.opens_eq, moves.start_eq, moves.line_eq, moves.column_eq,
    moves.buffer_eq, moves.offset_eq, moves.rest_eq⟩, ?_⟩
  intro p counts
  obtain ⟨line_eq, lineStart_eq, whole⟩ := ends counts
  refine ⟨⟨?_, ?_, ?_⟩, whole⟩
  · rw [Position.offset_passAll, ← counts.offset_eq]
    exact moves.offset_eq
  · rw [newLine, line_eq, ofNat_succ, nextLine_eq, counts.nextLine_eq]
  · rw [lineStart_eq, ← counts.offset_eq]
    exact moves.offset_eq

/-- A line break is passed as a whole. -/
theorem passes_passBreak (remaining : c.rest = b :: rest) (isBreak : b.isLineBreak) :
    c.Passes (b :: rest.take (Segment.breakTail b rest)) c.passBreak := by
  have stepped := moves_advance remaining
  have later := rest_advance remaining
  have under := peek?_of_rest_eq remaining
  rw [passBreak, under, Segment.breakTail]
  rcases Byte.isLineBreak_iff.mp isBreak with rfl | rfl
  · have noReturn : ¬Byte.lineFeed = Byte.carriageReturn := by decide
    rw [if_neg fun both => noReturn both.1, if_neg fun same => noReturn (Option.some.inj same)]
    refine stepped.passes_newLine rfl fun {p} counts => ?_
    have alone : ¬p.afterReturn := fun afterReturn => counts.whole afterReturn (by rw [remaining]; rfl)
    rw [Position.passAll, List.foldl_cons, List.foldl_nil, Position.pass_lineFeed,
      if_neg alone]
    exact ⟨rfl, rfl, Bool.false_ne_true.elim⟩
  · simp only [if_true, true_and]
    by_cases feeds : rest.head? = some Byte.lineFeed
    · rw [if_pos feeds, advanceIf_of_head? (later ▸ feeds)]
      obtain ⟨rest, rfl⟩ := List.head?_eq_some_iff.mp feeds
      refine (stepped.trans (moves_advance later)).passes_newLine rfl fun {p} counts => ?_
      exact ⟨rfl, rfl, Bool.false_ne_true.elim⟩
    · rw [if_neg feeds, advanceIf_of_head?_ne (later ▸ feeds)]
      refine stepped.passes_newLine rfl fun {p} counts => ⟨rfl, rfl, fun _ => ?_⟩
      rw [later]
      exact feeds

theorem noBreak_of_isNamePart (isPart : b.isNamePart) : b.isLineBreak = false :=
  (Bool.or_eq_false_iff.mp (isEnding_of_class isPart rfl rfl rfl)).1

/-- The pending text grows by the part of a name that is passed. -/
theorem spell_spec {s : Session} (remaining : c.rest = bytes) :
    let taken := bytes.takeWhile Byte.isNamePart
    ∃ after, c.Passes taken after ∧
      c.spell s bytes = (s.mapNames fun names => names.pushPending taken, after) := by
  induction bytes generalizing c s with
  | nil =>
    refine ⟨c, .refl c, ?_⟩
    simp [spell, Session.mapNames, NameTable.pushPending]
  | cons b rest ih =>
    rw [List.takeWhile_cons, spell]
    by_cases isPart : b.isNamePart
    · obtain ⟨after, passes, spelled⟩ :=
        ih (s := s.mapNames fun names => names.pushPending [b]) (rest_advance remaining)
      refine ⟨after, ?_, ?_⟩
      · rw [if_pos isPart]
        exact (passes_advance remaining (noBreak_of_isNamePart isPart)).trans passes
      · rw [if_pos isPart, if_pos isPart, spelled]
        simp [Session.mapNames, NameTable.pushPending]
    · refine ⟨c, ?_, ?_⟩
      · rw [if_neg isPart]
        exact .refl c
      · rw [if_neg isPart, if_neg isPart]
        simp [Session.mapNames, NameTable.pushPending]

/-- A cursor catches up with a reader that goes on from it. -/
theorem exists_adopt (cursor : Cursor) (length : Nat) :
    ∃ moved, cursor.adopt (cursor.reader.pass length) = .ok moved ∧
      moved.buffer = cursor.buffer ∧
      moved.position = min (cursor.position + length) cursor.buffer.size := by
  have position_eq : (cursor.reader.pass length).position =
      min (cursor.position + length) cursor.buffer.size := by
    change min (min cursor.position cursor.buffer.size + length) cursor.buffer.size = _
    rw [Nat.min_eq_left cursor.position_le]
  have ahead : ¬(cursor.reader.pass length).position < cursor.position := by
    rw [position_eq, Nat.not_lt]
    exact Nat.le_min.mpr ⟨Nat.le_add_right _ _, cursor.position_le⟩
  have same : (cursor.reader.pass length).buffer = cursor.buffer := rfl
  rw [Cursor.adopt, dif_pos same, if_neg ahead]
  exact ⟨_, rfl, rfl, position_eq⟩

theorem number_spec (c : Scanner) (s : Session) (resume : ScannerMode) (radix : Radix) :
    let scan := NumberScan.scan radix c.rest
    ∃ after, c.Passes (c.rest.take scan.length) after ∧
      c.number s resume radix = .ok (after.numbered s resume scan) := by
  intro scan
  have length_eq : c.rest.length = c.cursor.buffer.size - c.cursor.position := List.length_drop ..
  have within : scan.length ≤ c.rest.length := NumberScan.length_le radix c.rest
  have remaining_eq : c.cursor.reader.remaining = c.rest := by
    change c.cursor.buffer.bytes.drop (min c.cursor.position c.cursor.buffer.size) = c.rest
    rw [Nat.min_eq_left c.cursor.position_le]
    rfl
  obtain ⟨moved, adopted, buffer_eq, position_eq⟩ := exists_adopt c.cursor scan.length
  have inside : c.cursor.position + scan.length ≤ c.cursor.buffer.size := by
    have position_le := c.cursor.position_le
    omega
  rw [Nat.min_eq_left inside] at position_eq
  have moves : c.Moves (c.rest.take scan.length) { c with cursor := moved } := by
    refine ⟨rfl, rfl, rfl, rfl, rfl, buffer_eq, ?_, ?_⟩
    · rw [position_eq, List.length_take_of_le within]
    · have after_eq : moved.buffer.bytes.drop moved.position = c.rest.drop scan.length := by
        rw [buffer_eq, position_eq, ← List.drop_drop]
        rfl
      change c.rest = c.rest.take scan.length ++ moved.buffer.bytes.drop moved.position
      rw [after_eq, List.take_append_drop]
  refine ⟨{ c with cursor := moved },
    moves.passes (NumberScan.unended_scan radix c.rest).unbroken rfl rfl, ?_⟩
  simp only [number, Reader.scanNumber, remaining_eq]
  rw [adopted]

/-- The scanner stands where the lexer does. Whether a statement starts matters only where there is
something left. -/
structure Follows (c : Scanner) (lexer : Lexer) : Prop where
  file_eq : c.file = lexer.file
  rest_eq : c.rest = lexer.rest
  counts : c.Counts lexer.position
  opens_eq : lexer.rest ≠ [] → c.opens = lexer.fresh

/-- Whatever the counters are, they are those of some position. -/
theorem exists_counts (c : Scanner) : ∃ p, c.Counts p :=
  ⟨⟨c.cursor.position, c.nextLine.toNat, c.lineStart, false⟩,
    ⟨rfl, UInt32.ofNat_toNat.symm, rfl⟩, Bool.false_ne_true.elim⟩

/-- The lexer that stands where a scanner does. -/
def standing (c : Scanner) (p : Position) : Lexer where
  file := c.file
  rest := c.rest
  position := p
  fresh := c.opens
  place := ⟨p.location c.file, ⟨p.offset, p.offset⟩, []⟩

theorem Counts.follows_standing (counts : c.Counts p) : c.Follows (c.standing p) :=
  ⟨rfl, rfl, counts, fun _ => rfl⟩

/-- In the mode the scanner does the same as in the one where a token may start. -/
inductive Resumes (c : Scanner) : ScannerMode → Prop
  | start : Resumes c c.startMode
  | comment (ends : ∀ b ∈ c.rest.head?, b.isLineBreak) : Resumes c (.commentOf c.opens)

theorem step_of_resumes {c : Scanner} {mode : ScannerMode} (resumes : c.Resumes mode)
    (s : Session) : (Stage.again s c mode).step = c.turn s c.startMode := by
  cases resumes with
  | start => rfl
  | comment ends =>
    have transition_eq := ScannerMode.transition_comment c.opens ends
    rw [← peek?_eq] at ends transition_eq
    have same : c.startMode = .startOf c.opens := rfl
    rw [Stage.step, turn, turn, same, transition_eq]
    cases under : c.cursor.peek? with
    | none => rw [ScannerMode.transition_end]
    | some b =>
      rw [ScannerMode.transition_lineBreak c.opens (ends b under)]
      generalize c.opens = opens
      cases opens <;> rfl

theorem steps_add (stage : Stage) (m n : Nat) :
    stage.steps (m + n) = (stage.steps m >>= fun later => later.steps n) := by
  induction m generalizing stage with
  | zero =>
    rw [Nat.zero_add]
    rfl
  | succ m ih =>
    rw [Nat.add_right_comm, Stage.steps, Stage.steps]
    cases stage.step with
    | error error => rfl
    | ok next => exact ih next

theorem steps_done (s : Session) (c : Scanner) (token : Token) (name? : Option Name) (n : Nat) :
    (Stage.done s c token name?).steps n = .ok (.done s c token name?) := by
  induction n with
  | zero => rfl
  | succ n ih => exact ih

theorem steps_refused (s : Session) (c : Scanner) (n : Nat) :
    (Stage.refused s c).steps n = .ok (.refused s c) := by
  induction n with
  | zero => rfl
  | succ n ih => exact ih

/-- A call that has completed its token takes no more turns. -/
theorem steps_of_done {stage : Stage} {s : Session} {c : Scanner} {token : Token}
    {name? : Option Name} {n count : Nat} (steps_eq : stage.steps n = .ok (.done s c token name?))
    (enough : n ≤ count) : stage.steps count = .ok (.done s c token name?) := by
  obtain ⟨more, rfl⟩ := Nat.exists_eq_add_of_le enough
  rw [steps_add, steps_eq]
  exact steps_done s c token name? more

theorem steps_succ {stage next : Stage} (stepped : stage.step = .ok next) (n : Nat) :
    stage.steps (n + 1) = next.steps n := by
  rw [Stage.steps, stepped]
  rfl

theorem steps_one (stage : Stage) : stage.steps 1 = stage.step := by
  rw [Stage.steps]
  cases stage.step <;> rfl

end AssemblyLexer.Scanner
