import AssemblyLexer.Proofs.InPlacePiece
import AssemblyLexer.Proofs.Run

/-!
Calls of a scanner. Every call completes a token after a bounded number of turns
and agrees with the step of the lexer that the scanner follows, so that calls
one after another come to the end of the buffer and stay there. Only a name that the
table refuses makes a call end without its token.
-/

set_option autoImplicit false

namespace AssemblyLexer

namespace Lexer

variable {lexer after : Lexer} {s : Scanned}

theorem Finishes.rest_eq (finishes : lexer.Finishes s after) : after.rest = [] := by
  cases finishes with
  | intro _ atEnd => exact atEnd

theorem Takes.place_eq (takes : lexer.Takes s after) : after.place = s.place := by
  cases takes with
  | intro => rfl

theorem Finishes.place_eq (finishes : lexer.Finishes s after) :
    after.place = s.place ∧ s.place = after.placeOf [] := by
  cases finishes with
  | intro => exact ⟨rfl, rfl⟩

theorem next_of_rest_eq_nil (atEnd : lexer.rest = []) :
    lexer.next = (⟨.symbol .endOfSource, lexer.placeOf [], #[], false⟩,
      { lexer with place := lexer.placeOf [] }) :=
  scanFrom_nil atEnd #[] false

end Lexer

theorem Session.names_initial : initial.names = .predefined := by
  simp only [initial]

theorem Session.rooted_initial : initial.names.Rooted := by
  rw [names_initial]
  exact NameTable.rooted_predefined

/-- The predefined names leave room for others. -/
theorem Session.granted_initial (text : Bytes) : ¬initial.names.Refuses text := by
  have room : initial.names.isFull = false := by decide +kernel
  exact fun refuses => Bool.false_ne_true (room.symm.trans refuses.1)

theorem Session.rooted_afterPiece {s : Session} (rooted : s.names.Rooted) (file : UInt32) (piece : Piece) :
    (s.afterPiece file piece).names.Rooted := by
  rw [afterPiece, clearWhen]
  split
  · exact rooted.grows (s.names.grows_setPending [])
  · exact rooted

/-- What a piece leaves plays no part in what the table refuses. -/
theorem Session.refuses_foldl_afterPiece (s : Session) (file : UInt32) (found : List Piece) (text : Bytes) :
    (found.foldl (afterPiece file) s).names.Refuses text ↔ s.names.Refuses text := by
  rw [foldl_afterPiece, clearWhen]
  split <;> exact Iff.rfl

theorem Session.spelling_foldl_afterPiece (s : Session) (file : UInt32) (found : List Piece)
    (text : Bytes) :
    (found.foldl (afterPiece file) s).spelling text =
      (s.recordAll (found.flatMap (Piece.reports file)).toArray).spelling text := by
  rw [foldl_afterPiece, clearWhen]
  split <;> rfl

namespace Scanner

variable {c : Scanner} {lexer last : Lexer} {s : Session} {mode : ScannerMode} {stage : Stage}

theorem Follows.exists_steps (follows : c.Follows lexer) {first : Byte} {rest : Bytes}
    (remaining : lexer.rest = first :: rest) (rooted : s.names.Rooted) (resumes : c.Resumes mode) :
    ∃ n later, n ≤ 2 * (lexer.piece first rest).bytes.length ∧
      (Stage.again s c mode).steps n = .ok later ∧
      Reaches s lexer first rest (Segment.scan lexer.fresh first rest) later := by
  have starts : c.Starts lexer first rest := ⟨follows, follows.rest_eq.trans remaining⟩
  obtain ⟨stage, turn_eq, n, later, bound, steps_eq, reaches⟩ := starts.exists_turn rooted
  have within := Segment.scan_tail_le lexer.fresh first rest
  have length_eq : (lexer.piece first rest).bytes.length =
      (Segment.scan lexer.fresh first rest).tail + 1 := by
    rw [Lexer.piece, List.length_cons, List.length_take_of_le within]
  refine ⟨n + 1, later, by omega, ?_, reaches⟩
  rw [steps_succ ((step_of_resumes resumes s).trans turn_eq), steps_eq]

/-- Behind what is skipped the scanner may still be in a comment, at the line break that ends it. -/
theorem exists_steps_of_skips {skipped : List Piece} (skips : lexer.Skips skipped last) :
    ∀ {c : Scanner} {s : Session} {mode : ScannerMode}, c.Follows lexer → s.names.Rooted →
      c.Resumes mode →
      ∃ n after mode', n ≤ 2 * (Piece.join skipped).length ∧
        (Stage.again s c mode).steps n =
          .ok (.again (skipped.foldl (Session.afterPiece lexer.file) s) after mode') ∧
        after.Follows last ∧ after.Resumes mode' ∧
        (skipped.foldl (Session.afterPiece lexer.file) s).names.Rooted := by
  induction skips with
  | done => exact fun {c s mode} follows rooted resumes =>
      ⟨0, c, mode, Nat.zero_le _, rfl, follows, resumes, rooted⟩
  | @skip lexer last first rest skipped remaining silent later ih =>
    intro c s mode follows rooted resumes
    obtain ⟨m, stage, m_le, steps_eq, reaches⟩ := follows.exists_steps remaining rooted resumes
    cases reaches with
    | token found => cases silent.symm.trans found
    | refused found => cases silent.symm.trans found
    | @silence middle mode' _ follows' resumes' =>
      obtain ⟨n, after, last', n_le, steps_eq', rest⟩ :=
        ih follows' (Session.rooted_afterPiece rooted lexer.file (lexer.piece first rest)) resumes'
      refine ⟨m + n, after, last', ?_, ?_, rest⟩
      · rw [Piece.join_cons, List.length_append]
        omega
      · rw [steps_add, steps_eq]
        exact steps_eq'

/-- However many turns a call is given beyond those that are enough, this is where it ends. -/
def Ends (c : Scanner) (s : Session) (stage : Stage) : Prop :=
  ∀ count, 2 * c.rest.length + 1 ≤ count → (Stage.again s c c.startMode).steps count = .ok stage

theorem Ends.next_eq (ends : c.Ends s stage) : c.next s = .ok stage :=
  ends _ (Nat.le_refl _)

/-- Neither a token nor a refusal is followed by another turn. -/
theorem ends_of_steps {n : Nat} (n_le : n ≤ 2 * c.rest.length + 1)
    (steps_eq : (Stage.again s c c.startMode).steps n = .ok stage)
    (final : ∀ count, stage.steps count = .ok stage) : c.Ends s stage := by
  intro count count_ge
  obtain ⟨more, rfl⟩ := Nat.exists_eq_add_of_le (Nat.le_trans n_le count_ge)
  rw [steps_add, steps_eq]
  exact final more

/-- What a call comes to when the lexer's step finds the given and leaves the lexer behind it. -/
inductive Answers (c : Scanner) (s : Session) (scanned : Scanned) (after : Lexer) : Prop
  | granted {c' : Scanner} (granted : ¬s.Refuses scanned.token)
      (ends : c.Ends s (.done (s.absorb scanned).1 c' scanned.token (s.absorb scanned).2))
      (follows : c'.Follows after) (placed : c'.place = .ok scanned.place)
  | refused {c' : Scanner} {lexer : Lexer} {text : Bytes} (named : scanned.token.name? = some text)
      (refuses : s.names.Refuses text)
      (ends : c.Ends s (.refused ((s.recordAll scanned.reports).spelling text) c'))
      (follows : c'.Follows lexer)

theorem Follows.answers_of_takes (follows : c.Follows lexer) (rooted : s.names.Rooted)
    {scanned : Scanned} {after : Lexer} (takes : lexer.Takes scanned after) :
    c.Answers s scanned after := by
  cases takes with
  | @intro last skipped first rest token skips remaining found =>
    obtain ⟨m, middle, mode, m_le, steps_eq, follows', resumes, rooted'⟩ :=
      exists_steps_of_skips skips follows rooted .start
    obtain ⟨n, stage, n_le, steps_eq', reaches⟩ :=
      follows'.exists_steps remaining rooted' resumes
    have length_eq := congrArg List.length skips.rest_eq
    have bytes_eq := congrArg List.length (last.piece_bytes_append first rest)
    rw [List.length_append, remaining, ← follows.rest_eq] at length_eq
    rw [List.length_append] at bytes_eq
    have bound : m + n ≤ 2 * c.rest.length + 1 := by omega
    have both : (Stage.again s c c.startMode).steps (m + n) = .ok stage := by
      rw [steps_add, steps_eq]
      exact steps_eq'
    cases reaches with
    | silence none => cases none.symm.trans found
    | @token c' token' final name? found' granted given follows'' placed =>
      obtain rfl : token' = token := Option.some.inj (found'.symm.trans found)
      have absorbed : ((skipped ++ [last.piece first rest]).foldl (Session.afterPiece last.file) s).give
          token' = (final, name?) := by
        rw [List.foldl_append, skips.file_eq]
        rw [skips.file_eq] at given
        exact given
      refine .granted ?_ ?_ follows'' placed
      · rintro ⟨text, named, refuses⟩
        exact granted ⟨text, named, (s.refuses_foldl_afterPiece _ skipped text).mpr refuses⟩
      · rw [Session.absorb_scanned, absorbed]
        exact ends_of_steps bound both fun count => steps_done final c' token' name? count
    | @refused c' token' text passed found' named refuses silent stands =>
      obtain rfl : token' = token := Option.some.inj (found'.symm.trans found)
      have reports_eq : (skipped ++ [last.piece first rest]).flatMap (Piece.reports last.file) =
          skipped.flatMap (Piece.reports lexer.file) := by
        have last_eq : (last.piece first rest).reports last.file = [] :=
          List.map_eq_nil_iff.mpr silent
        rw [List.flatMap_append, List.flatMap_singleton, last_eq, List.append_nil, skips.file_eq]
      rw [s.refuses_foldl_afterPiece] at refuses
      refine .refused named refuses ?_ stands
      rw [Lexer.scanned, reports_eq, ← Session.spelling_foldl_afterPiece]
      exact ends_of_steps bound both fun count => steps_refused _ c' count

theorem Follows.answers_of_finishes (follows : c.Follows lexer) (rooted : s.names.Rooted)
    {scanned : Scanned} {after : Lexer} (finishes : lexer.Finishes scanned after) :
    c.Answers s scanned after := by
  cases finishes with
  | @intro last skipped skips atEnd =>
    obtain ⟨m, middle, mode, m_le, steps_eq, follows', resumes, rooted'⟩ :=
      exists_steps_of_skips skips follows rooted .start
    have length_eq := congrArg List.length skips.rest_eq
    rw [List.length_append, atEnd, ← follows.rest_eq] at length_eq
    have under : middle.cursor.peek? = none := by
      rw [peek?_eq, follows'.rest_eq, atEnd]
      rfl
    have finished : middle.turn (skipped.foldl (Session.afterPiece lexer.file) s) middle.startMode =
        .ok (middle.mark.finish (skipped.foldl (Session.afterPiece lexer.file) s)
          (.symbol .endOfSource) none) := by
      rw [turn, under, startMode, ← ScannerMode.startOf, ScannerMode.transition_end]
      rfl
    obtain ⟨counts, marks⟩ := follows'.counts.mark
    -- Every byte is skipped in at most two turns, and one turn more finds that none is left.
    have bound : m + 1 ≤ 2 * c.rest.length + 1 := by omega
    refine .granted (not_refuses_of_unnamed rfl) ?_
      (show (middle.mark.close (.symbol .endOfSource)).Follows _ from ?_) ?_
    · rw [Session.absorb_scanned, skips.file_eq]
      refine ends_of_steps bound ?_ fun count => steps_done _ _ _ _ count
      rw [steps_add, steps_eq]
      exact steps_succ ((step_of_resumes resumes _).trans finished) 0
    · exact ⟨follows'.file_eq, follows'.rest_eq,
        ⟨⟨counts.offset_eq, counts.nextLine_eq, counts.lineStart_eq⟩, counts.whole⟩,
        fun left => absurd atEnd left⟩
    · rw [(Passes.refl middle.mark).place_eq marks counts.offset_eq]
      exact congrArg (fun file => Except.ok (⟨last.position.location file, _, []⟩ : Place))
        follows'.file_eq

/-- A scanner that follows a lexer answers a call as the lexer's step does, and follows the lexer
from there. -/
theorem Follows.answers (follows : c.Follows lexer) (rooted : s.names.Rooted) :
    c.Answers s lexer.next.1 lexer.next.2 := by
  rcases lexer.next_cases with takes | finishes
  · exact follows.answers_of_takes rooted takes
  · exact follows.answers_of_finishes rooted finishes

/-- Unless the name of its token is refused, a call completes the token. -/
theorem Follows.call (follows : c.Follows lexer) (rooted : s.names.Rooted)
    (granted : ¬s.Refuses lexer.next.1.token) :
    ∃ c', c.Ends s (.done (s.absorb lexer.next.1).1 c' lexer.next.1.token (s.absorb lexer.next.1).2) ∧
      c'.Follows lexer.next.2 ∧ c'.place = .ok lexer.next.1.place := by
  cases follows.answers rooted with
  | granted _ ends follows' placed => exact ⟨_, ends, follows', placed⟩
  | refused named refuses => exact absurd ⟨_, named, refuses⟩ granted

/-- A refused call has spelled out the name and reported what it met before. -/
theorem Follows.call_refused (follows : c.Follows lexer) (rooted : s.names.Rooted) {text : Bytes}
    (named : lexer.next.1.token.name? = some text) (refuses : s.names.Refuses text) :
    ∃ c', c.Ends s (.refused ((s.recordAll lexer.next.1.reports).spelling text) c') ∧
      ∃ lexer', c'.Follows lexer' := by
  cases follows.answers rooted with
  | granted granted => exact absurd ⟨text, named, refuses⟩ granted
  | refused named' refuses' ends follows' =>
    obtain rfl := Option.some.inj (named.symm.trans named')
    exact ⟨_, ends, _, follows'⟩

theorem follows_ofBuffer (file : UInt32) (buffer : Buffer) :
    (ofBuffer file buffer).Follows (.ofSource file buffer.bytes) :=
  ⟨rfl, rfl, ⟨⟨rfl, rfl, rfl⟩, Bool.false_ne_true.elim⟩, fun _ => rfl⟩

theorem afterCalls_succ {sessions : Nat → Session} {n : Nat} {c' : Scanner}
    (calls : c.afterCalls sessions n = .ok c') (ends : c'.Ends (sessions n) stage) :
    c.afterCalls sessions (n + 1) = .ok stage.scanner := by
  rw [afterCalls, calls]
  simp only [bind, Except.bind, ends.next_eq]
  rfl

variable (file : UInt32) (buffer : Buffer) {sessions : Nat → Session}

/-- Calls in whatever sessions come to no error, even behind one that has been refused. -/
theorem exists_follows_afterCalls (rooted : ∀ n, (sessions n).names.Rooted) (n : Nat) :
    ∃ c lexer, (ofBuffer file buffer).afterCalls sessions n = .ok c ∧ c.Follows lexer := by
  induction n with
  | zero => exact ⟨_, _, rfl, follows_ofBuffer file buffer⟩
  | succ n ih =>
    obtain ⟨c, lexer, calls, follows⟩ := ih
    cases follows.answers (rooted n) with
    | granted _ ends follows' => exact ⟨_, _, afterCalls_succ calls ends, follows'⟩
    | refused _ _ ends follows' => exact ⟨_, _, afterCalls_succ calls ends, follows'⟩

end Scanner

end AssemblyLexer
