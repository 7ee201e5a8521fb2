import AssemblyLexer.Proofs.Likeness
import AssemblyLexer.Proofs.LineColumn

/-!
Starting again where a statement has ended. Nothing that came before has any
effect on what a lexer finds from there on: a new lexer over the rest of the
source finds the same, with its lines, columns and offsets counted anew.
-/

set_option autoImplicit false

namespace AssemblyLexer

/-- A location in a source and the one that it has anew when the bytes before an offset are gone. -/
structure Location.Behind (source : Bytes) (e : Nat) (location anew : Location) : Prop where
  file_eq : anew.file = location.file
  line_eq : location.line.toNat = anew.line.toNat + (lineAt source e - 1)
  column_eq : location.column.toNat =
    anew.column.toNat + if anew.line.toNat = 1 then e - lineStartAt source e else 0

structure Place.Behind (source : Bytes) (e : Nat) (place anew : Place) : Prop where
  location : place.location.Behind source e anew.location
  start_eq : place.span.start = e + anew.span.start
  stop_eq : place.span.stop = e + anew.span.stop
  text_eq : anew.text = place.text

/-- The same bytes have been passed from the start of a source and from an offset, and the same are
left. -/
inductive Position.Behind (source : Bytes) (e : Nat) (rest : Bytes) : Position → Position → Prop
  | passed {passed : Bytes} (source_eq : source.drop e = passed ++ rest) :
      Behind source e rest (initial.passAll (source.take e ++ passed)) (initial.passAll passed)

/-- A lexer behind an offset of a source and one that has started there. -/
structure Lexer.Behind (source : Bytes) (e : Nat) (lexer anew : Lexer) : Prop where
  file_eq : anew.file = lexer.file
  fresh_eq : anew.fresh = lexer.fresh
  rest_eq : anew.rest = lexer.rest
  position : Position.Behind source e lexer.rest lexer.position anew.position

/-- Lexers are alike when one goes on in a source where the other has started. -/
def Likeness.behind (source : Bytes) (e : Nat) : Likeness where
  lexers := Lexer.Behind source e
  places _ place anew := place.Behind source e anew
  locations := Location.Behind source e

variable {source : Bytes} {e : Nat}

namespace Position.Behind

variable {p anew : Position}

theorem passAll {bytes rest : Bytes} (both : Position.Behind source e (bytes ++ rest) p anew) :
    Position.Behind source e rest (p.passAll bytes) (anew.passAll bytes) := by
  cases both with
  | @passed passed source_eq =>
    simp only [← Position.passAll_append, List.append_assoc]
    apply Position.Behind.passed
    simpa only [List.append_assoc] using source_eq

theorem offset_eq {rest : Bytes} (within : e ≤ source.length)
    (both : Position.Behind source e rest p anew) : p.offset = e + anew.offset := by
  cases both with
  | passed =>
    simp only [offset_passAll, List.length_append, List.length_take_of_le within]
    exact Nat.add_left_comm _ _ _

theorem location {rest : Bytes} (short : source.length < UInt32.size - 1)
    (within : e ≤ source.length) (keeps : KeepsBreaks source e)
    (both : Position.Behind source e rest p anew) (file : UInt32) :
    (p.location file).Behind source e (anew.location file) := by
  cases both with
  | @passed passed source_eq =>
    have isPrefix : passed <+: source.drop e := ⟨rest, source_eq.symm⟩
    have length_le := isPrefix.length_le
    have length_eq : (source.drop e).length = source.length - e := List.length_drop
    have short' : (source.drop e).length < UInt32.size - 1 := by omega
    have marks := marks_location short file (p := e + passed.length) (by omega)
    have anew := marks_location short' file length_le
    rw [List.take_add, ← List.prefix_iff_eq_take.mp isPrefix] at marks
    rw [← List.prefix_iff_eq_take.mp isPrefix] at anew
    refine ⟨rfl, ?_, ?_⟩
    · rw [marks.line_eq, anew.line_eq]
      exact lineAt_add keeps _
    · rw [marks.column_eq, anew.column_eq, anew.line_eq]
      exact columnAt_add source e _

end Position.Behind

namespace Lexer.Behind

variable {lexer anew : Lexer}

theorem piece_eq (both : lexer.Behind source e anew) (first : Byte) (rest : Bytes) :
    anew.piece first rest = { lexer.piece first rest with position := anew.position } := by
  rw [piece, both.fresh_eq]
  rfl

theorem behind (both : lexer.Behind source e anew) {first : Byte} {rest : Bytes}
    (remaining : lexer.rest = first :: rest) (fresh : Bool) :
    Lexer.Behind source e { lexer.behind first rest with fresh := fresh }
      { anew.behind first rest with fresh := fresh } := by
  have position := both.position
  rw [remaining, ← piece_bytes_append] at position
  rw [Lexer.behind, Lexer.behind, both.piece_eq]
  exact ⟨both.file_eq, rfl, rfl, position.passAll⟩

variable (short : source.length < UInt32.size - 1) (within : e ≤ source.length)
  (keeps : KeepsBreaks source e)

include short within keeps

theorem placeOf (both : lexer.Behind source e anew) (bytes : Bytes) :
    (lexer.placeOf bytes).Behind source e (anew.placeOf bytes) := by
  have offset_eq := both.position.offset_eq within
  have located := both.position.location short within keeps lexer.file
  refine ⟨?_, offset_eq, ?_, rfl⟩
  · simpa only [Lexer.placeOf, both.file_eq] using located
  · simp only [Lexer.placeOf, offset_eq, Nat.add_assoc]

theorem reports (both : lexer.Behind source e anew) {first : Byte} {rest : Bytes}
    (remaining : lexer.rest = first :: rest) :
    List.Forall₂ (Likeness.behind source e).Reports ((lexer.piece first rest).reports lexer.file)
      ((anew.piece first rest).reports anew.file) := by
  rw [both.piece_eq, both.file_eq]
  apply Likeness.reports_of_findings
  · rfl
  · intro finding _
    have position := both.position
    rw [remaining, ← piece_bytes_append, ← List.take_append_drop finding.offset (piece _ _ _).bytes,
      List.append_assoc] at position
    exact position.passAll.location short within keeps lexer.file

end Lexer.Behind

theorem Likeness.kept_behind (short : source.length < UInt32.size - 1) (within : e ≤ source.length)
    (keeps : KeepsBreaks source e) : (Likeness.behind source e).Kept where
  replace both _ _ := ⟨both.file_eq, both.fresh_eq, both.rest_eq, both.position⟩
  finish both atEnd := ⟨both.rest_eq.trans atEnd, both.placeOf short within keeps []⟩
  piece := by
    intro lexer anew first rest both remaining
    have bytes_eq : (anew.piece first rest).bytes = (lexer.piece first rest).bytes := by
      rw [both.piece_eq]
    have segment_eq : (anew.piece first rest).segment = (lexer.piece first rest).segment := by
      rw [both.piece_eq]
    refine ⟨first, rest, both.rest_eq.trans remaining, congrArg Segment.token? segment_eq,
      congrArg Segment.spellsName segment_eq, both.reports short within keeps remaining, ?_, ?_⟩
    · rw [bytes_eq]
      exact fun _ _ => both.placeOf short within keeps _
    · rw [segment_eq, both.fresh_eq]
      exact both.behind remaining _

/-- The end of a statement parts no line break. -/
theorem Segment.Ending.keepsBreaks {first : Byte} {rest : Bytes} {tail : Nat}
    (ending : Ending first rest tail) (before : Bytes) :
    KeepsBreaks (before ++ first :: rest) (before.length + (tail + 1)) := by
  intro isFeed _ isReturn
  rw [List.getElem?_append_right (Nat.le_add_right _ _), Nat.add_sub_cancel_left,
    List.getElem?_cons_succ] at isFeed
  rw [← Nat.add_assoc, Nat.add_sub_cancel, List.getElem?_append_right (Nat.le_add_right _ _),
    Nat.add_sub_cancel_left] at isReturn
  cases ending with
  | semicolon => cases isReturn
  | lineBreak =>
    by_cases paired : first = Byte.carriageReturn ∧ rest.head? = some Byte.lineFeed
    · rw [breakTail, if_pos paired, List.getElem?_cons_succ, ← List.head?_eq_getElem?,
        paired.2] at isReturn
      cases isReturn
    · rw [breakTail, if_neg paired] at isFeed isReturn
      rw [← List.head?_eq_getElem?] at isFeed
      exact paired ⟨Option.some.inj isReturn, isFeed⟩

namespace Lexer

variable {lexer after : Lexer} {s : Scanned} {file : UInt32} {passed : Bytes}

theorem Takes.fresh_eq (takes : lexer.Takes s after) :
    after.fresh = decide (s.token.kind = .endOfStatement) := by
  cases takes with
  | intro => rfl

theorem Takes.keepsBreaks (takes : lexer.Takes s after) (reads : lexer.Reads file source passed)
    (ends : s.token.kind = .endOfStatement) : KeepsBreaks source s.place.span.stop := by
  cases takes with
  | @intro last skipped first rest token skips remaining found =>
    have there := reads.skips skips
    have isEnding : Segment.Ending first rest (Segment.scan last.fresh first rest).tail := by
      cases Segment.gives_scan last.fresh first rest with
      | token found' _ _ stops =>
        obtain rfl := Option.some.inj (found'.symm.trans found)
        exact stops ends
      | fault none => cases none.symm.trans found
      | silence none => cases none.symm.trans found
    have length_eq := List.length_take_of_le (Segment.scan_tail_le last.fresh first rest)
    have keeps := isEnding.keepsBreaks (passed ++ Piece.join skipped)
    rw [← remaining, ← there.source_eq, ← there.offset_eq] at keeps
    simpa only [scanned, Lexer.placeOf, piece, List.length_cons, length_eq] using keeps

/-- Behind the end of a statement a lexer goes on as a new one starts. -/
theorem Takes.restarts (takes : lexer.Takes s after) (reads : lexer.Reads file source passed)
    (ends : s.token.kind = .endOfStatement) :
    let e := s.place.span.stop
    e ≤ source.length ∧ KeepsBreaks source e ∧
      after.Behind source e (ofSource file (source.drop e)) := by
  intro e
  obtain ⟨skipped, taken, stands, _, later⟩ := takes.reads reads
  have stop_eq : e = (passed ++ skipped ++ s.place.text).length := by
    rw [List.length_append]
    exact stands.stop_eq
  have source_eq := later.source_eq
  have rest_eq : source.drop e = after.rest := by
    rw [stop_eq, source_eq, List.drop_left]
  have taken_eq : source.take e = passed ++ skipped ++ s.place.text := by
    rw [stop_eq, source_eq, List.take_left]
  refine ⟨?_, takes.keepsBreaks reads ends, later.file_eq.symm, ?_, rest_eq, ?_⟩
  · rw [source_eq, stop_eq]
    exact (List.prefix_append _ _).length_le
  · rw [takes.fresh_eq, ends]
    rfl
  · rw [later.position_eq, ← taken_eq, ← List.append_nil (source.take e)]
    exact .passed rest_eq

end Lexer

namespace Sharing

/-- What a scanner answers behind the end of a statement is what a new one answers that has only
the rest of the source, in a session of its own. Its names are called the same, and its lines,
columns and offsets differ by those of the end of the statement. Every call is answered. -/
theorem solo_restarts (file : UInt32) (short : source.length < UInt32.size - 1) (n more : Nat) :
    ∃ session answers, solo file source (n + 1 + more) = .ok (session, answers) ∧
      answers.length = n + 1 + more ∧
      ∀ (last : Answer) (name? : Option Name), answers[n]? = some (last, name?) →
        last.token.kind = .endOfStatement →
          let e := last.place.span.stop
          ∃ session' anew, solo file (source.drop e) more = .ok (session', anew) ∧
            anew.length = more ∧ List.Forall₂ (fun given given' =>
              (Likeness.behind source e).Answers given.1 given'.1 ∧
                given.2.map session.names.get = given'.2.map session'.names.get)
              (answers.drop (n + 1)) anew := by
  have few : source.length < UInt32.size := Nat.lt_of_lt_pred short
  obtain ⟨session, solo_eq, named⟩ := solo_eq file source (n + 1 + more)
  refine ⟨session, _, solo_eq, length_answers file few _, ?_⟩
  intro last name? isLast ends e
  obtain ⟨_, rfl⟩ := Lexer.answer_eq_of_getElem? isLast
  obtain ⟨passed, reads⟩ := Lexer.reads_afterSteps file source n
  rcases Lexer.next_cases ((Lexer.ofSource file source).afterSteps n) with takes | finishes
  · obtain ⟨inside, keeps, both⟩ := takes.restarts reads ends
    have few' : (source.drop e).length < UInt32.size :=
      Nat.lt_of_le_of_lt (List.drop_sublist ..).length_le few
    obtain ⟨session', solo_eq', named'⟩ := Sharing.solo_eq file (source.drop e) more
    have steps := (Likeness.kept_behind short inside keeps).firstSteps both more
    have same := Likeness.answers_of_steps steps
    refine ⟨session', _, solo_eq', length_answers file few' more,
      Likeness.names_of_answers ?_ ?_ named'⟩
    · rw [List.map_drop, Session.map_fst_answers, Session.map_fst_answers, ← List.map_drop,
        grantedSteps_eq file few, grantedSteps_eq file few', Lexer.drop_firstSteps]
      exact same
    · exact fun one isGiven => named one (List.mem_of_mem_drop isGiven)
  · have token_eq : (answer ((Lexer.ofSource file source).afterSteps n).next.1).token =
        .symbol .endOfSource := finishes.token_eq
    rw [token_eq] at ends
    cases ends

/-- A semicolon ends a statement in the first line. A literal with an escape at fault, a label and a
carriage return follow. -/
theorem solo_restarts_behind_semicolon :
    let source : Bytes := [0x61, 0x3B, 0x27, 0x5C, 0x71, 0x27, 0x62, 0x3A, 0x0D, 0x63]
    ∃ session answers session' anew, solo 7 source 5 = .ok (session, answers) ∧
      solo 7 (source.drop 2) 3 = .ok (session', anew) ∧
      answers.map (fun given => (given.1.token.kind, given.1.place.span.stop)) =
        [(.identifier, 1), (.endOfStatement, 2), (.label, 8), (.endOfStatement, 9),
          (.identifier, 10)] ∧
      List.Forall₂ (fun given given' => (Likeness.behind source 2).Answers given.1 given'.1 ∧
        given.2.map session.names.get = given'.2.map session'.names.get) (answers.drop 2) anew := by
  intro source
  have short : source.length < UInt32.size - 1 := by decide
  obtain ⟨session, answers, ran, _, restarts⟩ := solo_restarts 7 short 1 3
  have ends : (solo 7 source 5).toOption.map (fun result =>
      result.2.map fun given => (given.1.token.kind, given.1.place.span.stop)) =
        some [(.identifier, 1), (.endOfStatement, 2), (.label, 8), (.endOfStatement, 9),
          (.identifier, 10)] := by
    decide +kernel
  rw [ran] at ends
  have ends_eq := Option.some.inj ends
  have second := congrArg (fun all => all[1]?) ends_eq
  rw [List.getElem?_map] at second
  obtain ⟨⟨last, name?⟩, isLast, last_eq⟩ := Option.map_eq_some_iff.mp second
  obtain ⟨kind_eq, stop_eq⟩ := Prod.mk.inj last_eq
  obtain ⟨session', anew, ran', _, same⟩ := restarts last name? isLast kind_eq
  rw [stop_eq] at ran' same
  exact ⟨session, answers, session', anew, ran, ran', ends_eq, same⟩

end Sharing

end AssemblyLexer
