import AssemblyLexer.Proofs.Lookahead
import AssemblyLexer.Proofs.Run
import AssemblyLexer.Proofs.Solo

/-!
Sources that go on. What a lexer finds before the end of a source it finds in
every longer source that starts the same, with the same diagnostics on the way,
since none of its steps looks further than the byte behind a token.
-/

set_option autoImplicit false

namespace AssemblyLexer

namespace Lexer

/-- The lexer with more bytes at the end of its source. -/
def extended (lexer : Lexer) (more : Bytes) : Lexer :=
  { lexer with rest := lexer.rest ++ more }

variable {lexer last after : Lexer} {skipped : List Piece} {s : Scanned} {first : Byte}
  {rest : Bytes}

theorem tail_lt_of_behind (left : (lexer.behind first rest).rest ≠ []) :
    (Segment.scan lexer.fresh first rest).tail < rest.length := by
  apply Nat.lt_of_not_le
  intro whole
  exact left (List.drop_eq_nil_of_le whole)

theorem piece_extended (left : (lexer.behind first rest).rest ≠ []) (more : Bytes) :
    (lexer.extended more).piece first (rest ++ more) = lexer.piece first rest := by
  have inside := tail_lt_of_behind left
  simp only [piece, extended, Segment.scan_append inside,
    List.take_append_of_le_length (Nat.le_of_lt inside)]

theorem behind_extended (left : (lexer.behind first rest).rest ≠ []) (more : Bytes) :
    (lexer.extended more).behind first (rest ++ more) =
      (lexer.behind first rest).extended more := by
  have inside := Nat.le_of_lt (tail_lt_of_behind left)
  rw [behind, piece_extended left, piece, List.drop_append_of_le_length inside]
  rfl

theorem Skips.extended (skips : lexer.Skips skipped last) (left : last.rest ≠ []) (more : Bytes) :
    (lexer.extended more).Skips skipped (last.extended more) := by
  induction skips with
  | done => exact .done _
  | @skip lexer last first rest skipped remaining silent later ih =>
    have behind_ne : (lexer.behind first rest).rest ≠ [] := by
      rw [later.rest_eq]
      exact List.append_ne_nil_of_right_ne_nil _ left
    have remaining' : (lexer.extended more).rest = first :: (rest ++ more) :=
      congrArg (· ++ more) remaining
    rw [← piece_extended behind_ne more] at silent ⊢
    apply Skips.skip remaining' silent
    rw [behind_extended behind_ne]
    exact ih left

theorem Takes.extended (takes : lexer.Takes s after) (left : after.rest ≠ []) (more : Bytes) :
    (lexer.extended more).Takes s (after.extended more) := by
  cases takes with
  | @intro last skipped first rest token skips remaining found =>
    have last_ne : last.rest ≠ [] := remaining ▸ List.cons_ne_nil _ _
    have remaining' : (last.extended more).rest = first :: (rest ++ more) :=
      congrArg (· ++ more) remaining
    have piece_eq := piece_extended left more
    have takes' := Takes.intro (skips.extended last_ne more) remaining' (piece_eq ▸ found)
    rw [piece_eq, behind_extended left] at takes'
    exact takes'

/-- A step that leaves something is the same when more follows. -/
theorem next_extended (left : lexer.next.2.rest ≠ []) (more : Bytes) :
    (lexer.extended more).next = (lexer.next.1, lexer.next.2.extended more) := by
  rcases lexer.next_cases with takes | finishes
  · exact (takes.extended left more).next_eq
  · exact absurd finishes.rest_eq left

/-- A step from the end of the source leaves nothing. -/
theorem rest_next_of_nil (atEnd : lexer.rest = []) : lexer.next.2.rest = [] := by
  rw [next_of_rest_eq_nil atEnd]
  exact atEnd

theorem steps_extended (more : Bytes) {n : Nat} (left : (lexer.afterSteps n).rest ≠ []) :
    (lexer.extended more).afterSteps n = (lexer.afterSteps n).extended more ∧
      (lexer.extended more).firstSteps n = lexer.firstSteps n := by
  induction n with
  | zero => exact ⟨rfl, rfl⟩
  | succ n ih =>
    obtain ⟨after_eq, steps_eq⟩ := ih fun atEnd => left (rest_next_of_nil atEnd)
    have next_eq := next_extended left more
    rw [← after_eq] at next_eq
    constructor
    · exact congrArg Prod.snd next_eq
    · rw [firstSteps_add, firstSteps_add, steps_eq]
      exact congrArg (fun found => lexer.firstSteps n ++ [found.1]) next_eq

/-- A token that stops before the end of the source leaves something. -/
theorem rest_ne_nil_of_stop_lt {file : UInt32} {source : Bytes} {n : Nat}
    (inside : ((ofSource file source).afterSteps n).next.1.place.span.stop < source.length) :
    ((ofSource file source).afterSteps (n + 1)).rest ≠ [] := by
  obtain ⟨passed, reads⟩ := reads_afterSteps file source n
  obtain ⟨skipped, taken, stands, _, later⟩ := next_reads reads
  intro atEnd
  have source_eq := later.source_eq
  rw [afterSteps] at atEnd
  rw [atEnd, List.append_nil] at source_eq
  rw [stands.stop_eq, ← List.length_append, ← source_eq] at inside
  exact Nat.lt_irrefl _ inside

end Lexer

namespace Sharing

/-- Up to a token that stops before the end of the source, the answers are those for every source
that goes on from there, with the same places, names and diagnostics. A source of less than 4 GiB is
answered call by call. -/
theorem solo_extended (file : UInt32) (source more : Bytes) (calls : Nat) :
    ∃ session answers session' longer,
      solo file source calls = .ok (session, answers) ∧
      solo file (source ++ more) calls = .ok (session', longer) ∧
      (source.length < UInt32.size → answers.length = calls) ∧
      ((source ++ more).length < UInt32.size → longer.length = calls) ∧
      ∀ (i : Nat) (answer : Answer) (name? : Option Name), answers[i]? = some (answer, name?) →
        answer.place.span.stop < source.length → longer.take (i + 1) = answers.take (i + 1) := by
  obtain ⟨session, solo_eq, _⟩ := solo_eq file source calls
  obtain ⟨session', solo_eq', _⟩ := Sharing.solo_eq file (source ++ more) calls
  refine ⟨session, _, session', _, solo_eq, solo_eq', fun short => length_answers file short calls,
    fun short => length_answers file short calls, ?_⟩
  intro i answer name? isAnswer inside
  obtain ⟨within, rfl⟩ := Lexer.answer_eq_of_getElem? isAnswer
  have same := (Lexer.steps_extended more (Lexer.rest_ne_nil_of_stop_lt inside)).2
  obtain ⟨later, rfl⟩ := Nat.exists_eq_add_of_lt within
  rw [Session.take_answers, Session.take_answers, Session.take_grantedSteps, Session.take_grantedSteps,
    Nat.add_right_comm, Lexer.take_firstSteps, Lexer.take_firstSteps]
  exact congrArg (fun steps => Session.initial.answers (Session.initial.grantedSteps steps)) same

/-- The operator at the end of the source goes on, and what comes before it stays: a literal with an
escape at fault, and a name. -/
theorem solo_extended_behind_literal :
    let source : Bytes := [0x27, 0x5C, 0x71, 0x27, 0x20, 0x61, 0x2B]
    ∃ session answers session' longer, solo 1 source 2 = .ok (session, answers) ∧
      solo 1 (source ++ [0x2B]) 2 = .ok (session', longer) ∧
      answers.map (fun given => given.1.place.span.stop) = [6, 7] ∧
      longer.map (fun given => given.1.place.span.stop) = [6, 8] ∧
      longer.take 1 = answers.take 1 := by
  intro source
  obtain ⟨session, answers, session', longer, ran, ran', _, _, same⟩ := solo_extended 1 source [0x2B] 2
  have stops : (solo 1 source 2).toOption.map (fun result =>
      result.2.map fun given => given.1.place.span.stop) = some [6, 7] := by decide +kernel
  have stops' : (solo 1 (source ++ [0x2B]) 2).toOption.map (fun result =>
      result.2.map fun given => given.1.place.span.stop) = some [6, 8] := by decide +kernel
  rw [ran] at stops
  rw [ran'] at stops'
  have stops_eq := Option.some.inj stops
  refine ⟨session, answers, session', longer, ran, ran', stops_eq, Option.some.inj stops', ?_⟩
  obtain ⟨⟨answer, name?⟩, later, rfl, stop_eq, _⟩ := List.map_eq_cons_iff.mp stops_eq
  apply same 0 answer name? rfl
  rw [stop_eq]
  decide

end Sharing

end AssemblyLexer
