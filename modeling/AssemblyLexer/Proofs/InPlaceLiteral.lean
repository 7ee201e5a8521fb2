import AssemblyLexer.Proofs.Absorb
import AssemblyLexer.Proofs.InPlace
import AssemblyLexer.Proofs.Quoted

/-!
How a scanner goes through a literal. It counts the line breaks in the literal by
itself, byte by byte, and reports each fault of an escape when it is met. Behind
the literal its counters are those of the position there, and what it has found and
reported is what the scan of the literal by itself finds.
-/

set_option autoImplicit false

namespace AssemblyLexer.Scanner

variable {c after : Scanner} {s : Session} {lexer : Lexer} {bytes before more rest : Bytes} {b : Byte}
  {p : Position}

/-- Away from a line feed, the cursor is not between the two bytes of one line break. -/
theorem Tracks.counts (tracks : c.Tracks p) (remaining : c.rest = b :: rest)
    (noBreak : b.isLineBreak = false) : c.Counts p := by
  refine ⟨tracks, fun _ isFeed => ?_⟩
  rw [remaining, List.head?_cons, Option.some.injEq] at isFeed
  subst isFeed
  cases noBreak

theorem moves_passVerbatim (remaining : c.rest = b :: rest) (afterReturn : Bool) :
    c.Moves [b] (c.passVerbatim b afterReturn) := by
  obtain ⟨file_eq, opens_eq, start_eq, line_eq, column_eq, buffer_eq, offset_eq, rest_eq⟩ :=
    moves_advance remaining
  rw [passVerbatim]
  split <;> split <;>
    exact ⟨file_eq, opens_eq, start_eq, line_eq, column_eq, buffer_eq, offset_eq, rest_eq⟩

/-- A line feed behind a carriage return counts no further line. -/
theorem Tracks.passVerbatim (tracks : c.Tracks p) (remaining : c.rest = b :: rest) :
    (c.passVerbatim b p.afterReturn).Tracks (p.pass b) := by
  have offset_eq : c.advance.cursor.position = p.offset + 1 := by
    rw [(moves_advance remaining).offset_eq, tracks.offset_eq]
    rfl
  have nextLine_eq : c.advance.nextLine = UInt32.ofNat p.line := tracks.nextLine_eq
  have lineStart_eq : c.advance.lineStart = p.lineStart := tracks.lineStart_eq
  rw [Scanner.passVerbatim]
  cases isBreak : b.isLineBreak with
  | false =>
    rw [Position.pass_of_noBreak isBreak]
    rw [Byte.isLineBreak, Bool.or_eq_false_iff, beq_eq_false_iff_ne, beq_eq_false_iff_ne] at isBreak
    simp only [isBreak.1, isBreak.2, false_and, or_false, if_false]
    exact ⟨offset_eq, nextLine_eq, lineStart_eq⟩
  | true =>
    rcases Byte.isLineBreak_iff.mp isBreak with rfl | rfl
    · have noReturn : ¬Byte.lineFeed = Byte.carriageReturn := by decide
      rw [Position.pass_lineFeed]
      cases p.afterReturn with
      | true =>
        simp only [noReturn, Bool.not_true, Bool.false_eq_true, and_false, or_false, if_false, if_true,
          or_true]
        exact ⟨offset_eq, nextLine_eq, offset_eq⟩
      | false =>
        simp only [noReturn, Bool.not_false, and_true, or_true, if_true, Bool.false_eq_true, if_false]
        exact ⟨offset_eq, by rw [ofNat_succ, ← nextLine_eq], offset_eq⟩
    · rw [Position.pass_carriageReturn]
      simp only [true_or, if_true]
      exact ⟨offset_eq, by rw [ofNat_succ, ← nextLine_eq], offset_eq⟩

/-- An escape is passed within its line. -/
theorem passes_escape (remaining : c.rest = Byte.backslash :: rest) :
    let length := (Escape.scan rest).length
    let after := c.advance.advanceBy length
    c.Passes (Byte.backslash :: rest.take length) after ∧ after.rest = rest.drop length := by
  intro length after
  have later := rest_advance remaining
  have within : length ≤ c.advance.rest.length := by
    rw [later]
    exact Escape.scan_length_le rest
  have further := moves_advanceBy within
  have moves := (moves_advance remaining).trans further
  rw [later] at moves
  have kept := nextLine_advanceBy c.advance length
  have unbroken := Escape.unbroken_scan rest
  refine ⟨moves.passes (unbroken_cons.mpr ⟨rfl, unbroken⟩) kept.1 kept.2, ?_⟩
  rw [further.rest_after, List.length_take_of_le within, later]

/-- A fault within the line is located at its offset. -/
theorem Tracks.locationAt_eq (tracks : c.Tracks p) (unbroken : Unbroken bytes) :
    c.locationAt (c.cursor.position + bytes.length) = (p.passAll bytes).location c.file := by
  rw [Position.passAll_of_unbroken unbroken, locationAt, tracks.nextLine_eq, tracks.lineStart_eq,
    tracks.offset_eq]
  rfl

theorem Follows.locationAt_eq (follows : c.Follows lexer) :
    c.locationAt c.cursor.position = lexer.position.location lexer.file := by
  rw [← follows.file_eq]
  exact follows.counts.toTracks.locationAt_eq unbroken_nil

/-- What has been found from some byte of a literal on, given the session and the bytes before, is
what the scan of the literal comes to, and the scanner has gone as far. -/
structure Inside.Agrees (c : Scanner) (s : Session) (lexer : Lexer) (before rest : Bytes)
    (scanned : Quoted) (found : Inside) : Prop where
  closed_eq : found.closed = scanned.closed
  intact_eq : found.intact = scanned.findings.isEmpty
  content_eq : found.content = scanned.content
  session_eq : found.session =
    s.recordAll (lexer.reports (before ++ rest) scanned.findings).toArray
  exists_moves : ∃ bytes, (before ++ rest).take (scanned.length + 1) = before ++ bytes ∧
    c.Moves bytes found.scanner ∧ found.scanner.Counts (lexer.position.passAll (before ++ bytes))

theorem Inside.Agrees.behind {scanned : Quoted} {found : Inside} (moves : c.Moves more after)
    (agrees : Agrees after s lexer (before ++ more) rest scanned found) :
    Agrees c s lexer before (more ++ rest) scanned found := by
  obtain ⟨closed_eq, intact_eq, content_eq, session_eq, bytes, taken_eq, further, counts⟩ := agrees
  rw [List.append_assoc] at session_eq
  rw [List.append_assoc, List.append_assoc] at taken_eq
  rw [List.append_assoc] at counts
  exact ⟨closed_eq, intact_eq, content_eq, session_eq, more ++ bytes, taken_eq,
    moves.trans further, counts⟩

theorem reports_append (lexer : Lexer) (bytes : Bytes) (findings more : List Finding) :
    lexer.reports bytes (findings ++ more) =
      lexer.reports bytes findings ++ lexer.reports bytes more :=
  List.map_append

section Escapes

variable {taken : Nat}

theorem length_escape (length_eq : before.length = taken + 1) (rest : Bytes) :
    (before ++ Byte.backslash :: rest.take (Escape.scan rest).length).length =
      taken + 1 + (Escape.scan rest).length + 1 := by
  rw [List.length_append, List.length_cons, List.length_take_of_le (Escape.scan_length_le rest), length_eq]
  omega

theorem append_escape (before rest : Bytes) :
    before ++ Byte.backslash :: rest = before ++ Byte.backslash :: rest.take (Escape.scan rest).length ++
      rest.drop (Escape.scan rest).length := by
  rw [List.append_assoc, List.cons_append, List.take_append_drop]

theorem afterReturn_escape (p : Position) (before rest : Bytes) :
    (p.passAll (before ++ Byte.backslash :: rest.take (Escape.scan rest).length)).afterReturn = false := by
  have unbroken : Unbroken (Byte.backslash :: rest.take (Escape.scan rest).length) :=
    unbroken_cons.mpr ⟨rfl, Escape.unbroken_scan rest⟩
  rw [Position.passAll_append, Position.passAll_of_unbroken unbroken]
  rfl

theorem Tracks.escape (tracks : c.Tracks (p.passAll before)) (remaining : c.rest = Byte.backslash :: rest) :
    (c.advance.advanceBy (Escape.scan rest).length).Tracks
      (p.passAll (before ++ Byte.backslash :: rest.take (Escape.scan rest).length)) := by
  rw [Position.passAll_append]
  exact ((passes_escape remaining).1.counts (tracks.counts remaining rfl)).toTracks

/-- A fault of an escape is reported where the scan of the literal finds it. -/
theorem Tracks.reportAt_escape (tracks : c.Tracks (lexer.position.passAll before))
    (file_eq : c.file = lexer.file) (remaining : c.rest = Byte.backslash :: rest)
    (length_eq : before.length = taken + 1) {failed : Finding}
    (failure : (Escape.scan rest).outcome = .error failed) :
    c.advance.reportAt s (c.advance.cursor.position + failed.offset) failed.fault =
      s.recordAll (lexer.reports (before ++ Byte.backslash :: rest)
        [⟨taken + 2 + failed.offset, failed.fault⟩]).toArray := by
  have within := (Escape.scan_fault failure).2
  have inLine : Unbroken (rest.take failed.offset) := by
    rw [← Nat.min_eq_left within, ← List.take_take]
    exact fun b membership => Escape.unbroken_scan rest b (List.mem_of_mem_take membership)
  have length_eq' : (rest.take failed.offset).length = failed.offset :=
    List.length_take_of_le (within.trans (Escape.scan_length_le rest))
  have taken_eq : (before ++ Byte.backslash :: rest).take (taken + 2 + failed.offset) =
      before ++ [Byte.backslash] ++ rest.take failed.offset := by
    have count_eq : taken + 2 + failed.offset = before.length + (failed.offset + 1) := by omega
    rw [count_eq, List.take_length_add_append, List.take_succ_cons, List.append_assoc]
    rfl
  have advanced := (passes_advance remaining rfl).counts (tracks.counts remaining rfl)
  have located := advanced.toTracks.locationAt_eq inLine
  rw [length_eq'] at located
  rw [reportAt, located, Lexer.reports, List.map_singleton, taken_eq, Position.passAll_append,
    Position.passAll_append, (moves_advance remaining).file_eq, file_eq]

end Escapes

/-- By induction along the scan of the literal. Each escape is passed within its line, and the flag
that is kept from byte to byte is that of the position. -/
theorem agrees_insideFrom {quote : Byte} (isQuote : Quoted.IsQuote quote) (taken : Nat) (content : Bytes)
    (findings : List Finding) (bytes : Bytes) (file_eq : c.file = lexer.file) (remaining : c.rest = bytes)
    (tracks : c.Tracks (lexer.position.passAll before)) (length_eq : before.length = taken + 1)
    {s' : Session}
    (session_eq : s' = s.recordAll (lexer.reports (before ++ bytes) findings.reverse).toArray) :
    Inside.Agrees c s lexer before bytes (Quoted.scanFrom quote taken content findings bytes)
      (inside quote c s' (lexer.position.passAll before).afterReturn findings.isEmpty content.reverse
        bytes) := by
  fun_induction Quoted.scanFrom quote taken content findings bytes generalizing c s' before with
  | case1 taken content findings =>
    rw [inside]
    refine ⟨rfl, List.isEmpty_reverse.symm, rfl, session_eq, [], ?_, .refl c, ?_⟩
    · rw [List.append_nil, ← length_eq, List.take_length]
    · rw [List.append_nil]
      exact ⟨tracks, by simp [remaining]⟩
  | case2 taken content findings rest =>
    have noBreak : quote.isLineBreak = false := by rcases isQuote with rfl | rfl <;> rfl
    have passes := passes_advance remaining noBreak
    rw [inside, if_pos rfl]
    refine ⟨rfl, List.isEmpty_reverse.symm, rfl, session_eq, [quote], ?_, passes.toMoves, ?_⟩
    · rw [← length_eq, List.take_length_add_append]
      rfl
    · rw [Position.passAll_append]
      exact passes.counts (tracks.counts remaining noBreak)
  | case3 taken content findings rest escape behind meant outcome_eq =>
    rename_i noQuote ih
    obtain ⟨passes, later⟩ := passes_escape remaining
    have agrees := ih (passes.file_eq.trans file_eq) later (tracks.escape remaining)
      (length_escape length_eq rest) (show s' = _ by rw [session_eq, append_escape])
    have outcome_eq' : (Escape.scan rest).outcome = .ok meant := outcome_eq
    rw [inside, if_neg noQuote, if_pos rfl]
    simp only [outcome_eq']
    rw [afterReturn_escape, List.reverse_append, List.reverse_reverse] at agrees
    have behind := agrees.behind passes.toMoves
    rw [List.cons_append, List.take_append_drop] at behind
    exact behind
  | case4 taken content findings rest escape behind failed outcome_eq found =>
    rename_i noQuote ih
    obtain ⟨passes, later⟩ := passes_escape remaining
    have outcome_eq' : (Escape.scan rest).outcome = .error failed := outcome_eq
    have agrees := ih (passes.file_eq.trans file_eq) later (tracks.escape remaining)
      (length_escape length_eq rest)
      (show c.advance.reportAt s' (c.advance.cursor.position + failed.offset) failed.fault = _ by
        rw [List.reverse_cons, reports_append, ← List.append_toArray, ← Session.recordAll_recordAll,
          ← append_escape, ← session_eq, tracks.reportAt_escape file_eq remaining length_eq outcome_eq'])
    rw [inside, if_neg noQuote, if_pos rfl]
    simp only [outcome_eq']
    rw [afterReturn_escape] at agrees
    have behind := agrees.behind passes.toMoves
    rw [List.cons_append, List.take_append_drop] at behind
    exact behind
  | case5 taken content findings b rest noQuote noBackslash ih =>
    have moves := moves_passVerbatim remaining (lexer.position.passAll before).afterReturn
    have remaining' : (c.passVerbatim b (lexer.position.passAll before).afterReturn).rest = rest := by
      rw [moves.rest_after, remaining]
      rfl
    have tracks' := tracks.passVerbatim remaining
    have position_eq : lexer.position.passAll (before ++ [b]) = (lexer.position.passAll before).pass b :=
      Position.passAll_append ..
    rw [← position_eq] at tracks'
    have agrees := ih (moves.file_eq.trans file_eq) remaining' tracks' (by simp [length_eq])
      (show s' = _ by rw [session_eq, List.append_assoc]; rfl)
    rw [position_eq, Position.afterReturn_pass, List.reverse_cons] at agrees
    rw [inside, if_neg noQuote, if_neg noBackslash]
    exact agrees.behind moves

section Whole

variable {quote : Byte} (isQuote : Quoted.IsQuote quote)
include isQuote

/-- The whole of a literal, from its opening quote on. -/
theorem Follows.agrees_inside (follows : c.Follows lexer) (remaining : c.rest = quote :: rest)
    (s : Session) :
    Inside.Agrees c s lexer [] (quote :: rest) (Quoted.scan quote rest)
      (inside quote c.advance s false true [] rest) := by
  have noBreak : quote.isLineBreak = false := by rcases isQuote with rfl | rfl <;> rfl
  have passes := passes_advance remaining noBreak
  have tracks := (passes.counts follows.counts).toTracks
  have reported : s = s.recordAll (lexer.reports ([quote] ++ rest) [].reverse).toArray :=
    (Session.recordAll_nil s).symm
  have agrees := agrees_insideFrom isQuote 0 [] [] rest (passes.file_eq.trans follows.file_eq)
    (rest_advance remaining) tracks rfl reported
  have afterReturn_eq : (lexer.position.passAll [quote]).afterReturn = false :=
    congrArg Position.afterReturn (Position.pass_of_noBreak noBreak lexer.position)
  rw [afterReturn_eq] at agrees
  have whole : Inside.Agrees c s lexer [] ([quote] ++ rest) _ _ := .behind passes.toMoves agrees
  exact whole

theorem passes_inside (remaining : c.rest = quote :: rest) (s : Session) :
    c.Passes (quote :: rest.take (Quoted.scan quote rest).length)
      (inside quote c.advance s false true [] rest).scanner := by
  have agrees : ∀ {p : Position}, c.Counts p → _ := fun {p} counts =>
    (counts.follows_standing.agrees_inside isQuote remaining s).exists_moves
  obtain ⟨p, counts⟩ := c.exists_counts
  obtain ⟨bytes, taken_eq, moves, _⟩ := agrees counts
  obtain rfl : quote :: rest.take (Quoted.scan quote rest).length = bytes := taken_eq
  refine ⟨moves, ?_⟩
  intro p counts
  obtain ⟨bytes, taken_eq, _, counts'⟩ := agrees counts
  obtain rfl : quote :: rest.take (Quoted.scan quote rest).length = bytes := taken_eq
  exact counts'

end Whole

end AssemblyLexer.Scanner
