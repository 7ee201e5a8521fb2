import AssemblyLexer.Proofs.Solo

/-!
Scanners that share a session do not interfere. Whatever the others do, each of
them answers as it does alone, as long as there are numbers for the names of its
tokens; where they have been used up, it has answered so until then.
-/

set_option autoImplicit false

namespace AssemblyLexer

theorem NameTable.Names.mem_texts {t : NameTable} {text : Bytes} {name : Name}
    (names : t.Names text name) : text ∈ t.texts := by
  obtain ⟨entry, isEntry, rfl⟩ := Option.map_eq_some_iff.mp names.text_eq
  exact List.mem_map_of_mem (List.mem_of_getElem? isEntry)

namespace Sharing

variable {w after : Sharing} {lexers later : List Lexer} {calls : Nat → Nat} {events : List Event}
  {index : Nat} {lexer : Lexer}

theorem untilRefused_eq (granted : ∀ event ∈ events, event.refuses index = false) :
    untilRefused index events = events := by
  simpa [untilRefused] using untilRefused_append granted []

/-- Until it is refused, if it is, a scanner answers what its lexer finds in its first steps. -/
theorem Answers.exists_steps {count : Nat} {later? : Option Lexer}
    (answers : Answers index lexer count events later?) :
    ∃ n ≤ count, (untilRefused index events).filterMap (Event.answerOf? index) =
        (lexer.firstSteps n).map answer ∧
      ((∀ event ∈ events, event.refuses index = false) → n = count) := by
  cases answers with
  | granted granted answers_eq =>
    refine ⟨count, Nat.le_refl _, ?_, fun _ => rfl⟩
    rw [untilRefused_eq granted, answers_eq]
  | @refused n n_lt refused answers_eq =>
    obtain ⟨event, happened, refuses⟩ := refused
    refine ⟨n, Nat.le_of_lt n_lt, answers_eq, fun granted => ?_⟩
    rw [granted event happened] at refuses
    cases refuses

/-- The table in the end knows the names of the tokens that have been answered. -/
theorem Yields.known (yields : w.Yields lexers calls after later events) {n : Nat}
    (answers_eq : (untilRefused index events).filterMap (Event.answerOf? index) =
      (lexer.firstSteps n).map answer) :
    ∀ scanned ∈ lexer.firstSteps n, ∀ text ∈ scanned.token.name?,
      text ∈ after.session.names.texts := by
  intro scanned isStep text named
  have isAnswer := List.mem_map_of_mem (f := answer) isStep
  rw [← answers_eq] at isAnswer
  obtain ⟨event, happened, isAnswered⟩ := List.mem_filterMap.mp isAnswer
  have happened := (List.takeWhile_prefix _).subset happened
  cases event with
  | called i a name? =>
    rw [Event.answerOf?, Option.ite_none_right_eq_some] at isAnswered
    obtain ⟨-, isAnswered⟩ := isAnswered
    obtain rfl := Option.some.inj isAnswered
    have calls := yields.named _ _ _ happened
    change after.session.names.Calls scanned.token.name? name? at calls
    rw [named] at calls
    cases calls with
    | named names => exact names.mem_texts
  | refused => cases isAnswered
  | reported => cases isAnswered

end Sharing

end AssemblyLexer
