import AssemblyLexer.Proofs.NameRoom

/-!
A scanner that has a session to itself. Its answers are what the steps of its
lexer find, up to one whose name is refused, and the session gives the names of
their tokens one after another.
-/

set_option autoImplicit false

namespace AssemblyLexer

namespace Session

/-- What steps of a lexer find, with the names that a session gives to their tokens. -/
def answers (s : Session) : List Scanned → List (Sharing.Answer × Option Name)
  | [] => []
  | scanned :: steps =>
    (Sharing.answer scanned, (s.absorb scanned).2) :: (s.absorb scanned).1.answers steps

theorem take_answers (s : Session) (steps : List Scanned) (n : Nat) :
    (s.answers steps).take n = s.answers (steps.take n) := by
  induction steps generalizing s n with
  | nil => simp [answers]
  | cons scanned steps ih =>
    cases n with
    | zero => rfl
    | succ n => exact congrArg _ (ih _ n)

/-- The steps before the first whose name is refused. -/
def grantedSteps (s : Session) : List Scanned → List Scanned
  | [] => []
  | scanned :: steps =>
    if s.Refuses scanned.token then [] else scanned :: (s.absorb scanned).1.grantedSteps steps

theorem grantedSteps_prefix (s : Session) (steps : List Scanned) : s.grantedSteps steps <+: steps := by
  induction steps generalizing s with
  | nil => exact List.prefix_refl _
  | cons scanned steps ih =>
    rw [grantedSteps]
    split
    · exact List.nil_prefix
    · exact List.cons_prefix_cons.mpr ⟨rfl, ih _⟩

/-- Steps that are granted are taken whatever comes behind them. -/
theorem grantedSteps_append {s : Session} {steps : List Scanned} (granted : s.Grants steps)
    (later : List Scanned) : steps <+: s.grantedSteps (steps ++ later) := by
  induction steps generalizing s with
  | nil => exact List.nil_prefix
  | cons scanned steps ih =>
    rw [List.cons_append, grantedSteps, if_neg granted.1]
    exact List.cons_prefix_cons.mpr ⟨rfl, ih granted.2⟩

theorem grantedSteps_of_grants {s : Session} {steps : List Scanned} (granted : s.Grants steps) :
    s.grantedSteps steps = steps := by
  have all := grantedSteps_append granted []
  rw [List.append_nil] at all
  exact (s.grantedSteps_prefix steps).eq_of_length_le all.length_le

theorem take_grantedSteps (s : Session) (steps : List Scanned) (n : Nat) :
    (s.grantedSteps steps).take n = s.grantedSteps (steps.take n) := by
  induction steps generalizing s n with
  | nil => simp [grantedSteps]
  | cons scanned steps ih =>
    cases n with
    | zero => rfl
    | succ n =>
      rw [List.take_succ_cons, grantedSteps, grantedSteps]
      split
      · rfl
      · exact congrArg _ (ih _ n)

theorem map_fst_answers (s : Session) (steps : List Scanned) :
    (s.answers steps).map Prod.fst = steps.map Sharing.answer := by
  induction steps generalizing s with
  | nil => rfl
  | cons scanned steps ih => exact congrArg _ (ih _)

end Session

namespace Lexer

theorem length_firstSteps (lexer : Lexer) (n : Nat) : (lexer.firstSteps n).length = n := by
  induction n generalizing lexer with
  | zero => rfl
  | succ n ih => exact congrArg (· + 1) (ih _)

theorem take_firstSteps (lexer : Lexer) (m n : Nat) :
    (lexer.firstSteps (m + n)).take m = lexer.firstSteps m := by
  rw [firstSteps_add]
  exact List.take_left' (length_firstSteps lexer m)

theorem drop_firstSteps (lexer : Lexer) (m n : Nat) :
    (lexer.firstSteps (m + n)).drop m = (lexer.afterSteps m).firstSteps n := by
  rw [firstSteps_add]
  exact List.drop_left' (length_firstSteps lexer m)

theorem getElem?_firstSteps (lexer : Lexer) {i n : Nat} (within : i < n) :
    (lexer.firstSteps n)[i]? = some (lexer.afterSteps i).next.1 := by
  obtain ⟨later, rfl⟩ := Nat.exists_eq_add_of_lt within
  have length_eq := length_firstSteps lexer i
  rw [Nat.add_assoc, firstSteps_add, List.getElem?_append_right (Nat.le_of_eq length_eq), length_eq,
    Nat.sub_self]
  rfl

/-- Each answer is what the step with its number finds. -/
theorem answer_eq_of_getElem? {lexer : Lexer} {s : Session} {i n : Nat}
    {answer : Sharing.Answer} {name? : Option Name}
    (isGiven : (s.answers (s.grantedSteps (lexer.firstSteps n)))[i]? = some (answer, name?)) :
    i < n ∧ answer = Sharing.answer (lexer.afterSteps i).next.1 := by
  have isAnswer := congrArg (Option.map Prod.fst) isGiven
  rw [← List.getElem?_map, Session.map_fst_answers, List.getElem?_map] at isAnswer
  obtain ⟨scanned, isGranted, answer_eq⟩ := Option.map_eq_some_iff.mp isAnswer
  have isStep : (lexer.firstSteps n)[i]? = some scanned := by
    obtain ⟨later, steps_eq⟩ := s.grantedSteps_prefix (lexer.firstSteps n)
    rw [← steps_eq, List.getElem?_append_left (List.getElem?_eq_some_iff.mp isGranted).1]
    exact isGranted
  have within : i < n := by
    simpa only [length_firstSteps] using (List.getElem?_eq_some_iff.mp isStep).1
  obtain rfl := Option.some.inj (isStep.symm.trans (getElem?_firstSteps lexer within))
  exact ⟨within, answer_eq.symm⟩

end Lexer

namespace Sharing

/-- Each of several calls of a scanner is a step of its lexer, up to the first that is refused. -/
theorem run_calls {w : Sharing} (index : Nat) {c : Scanner} {lexer : Lexer}
    (isScanner : w.scanners[index]? = some c) (followed : c.Follows lexer)
    (rooted : w.session.names.Rooted) (n : Nat) :
    ∃ after events, w.run (List.replicate n (.call index)) = .ok (after, events) ∧
      (untilRefused index events).filterMap Event.call? =
        w.session.answers (w.session.grantedSteps (lexer.firstSteps n)) ∧
      (untilRefused index events).filterMap (Event.answerOf? index) =
        (w.session.grantedSteps (lexer.firstSteps n)).map answer ∧
      (w.session.Grants (lexer.firstSteps n) → ∀ event ∈ events, event.refuses index = false) := by
  induction n generalizing w c lexer with
  | zero => exact ⟨w, [], rfl, rfl, rfl, fun _ => by simp⟩
  | succ n ih =>
    have stepped : w.step (.call index) = w.call index c := by
      simp only [Sharing.step, isScanner]
    have within : index < w.scanners.length := (List.getElem?_eq_some_iff.mp isScanner).1
    by_cases refused : w.session.Refuses lexer.next.1.token
    · obtain ⟨text, named, refuses⟩ := refused
      obtain ⟨c', lexer', followed', called⟩ := call_refused w index followed rooted named refuses
      have rooted' : ((w.session.recordAll lexer.next.1.reports).spelling text).names.Rooted :=
        rooted.grows (w.session.names.grows_setPending text)
      obtain ⟨after, events, run_eq, _⟩ :=
        ih (w := ⟨_, w.scanners.set index c'⟩) (List.getElem?_set_self within) followed' rooted'
      refine ⟨after, _, run_cons_eq_ok (stepped.trans called) run_eq, ?_, ?_, ?_⟩
      · rw [Lexer.firstSteps, Session.grantedSteps, if_pos ⟨text, named, refuses⟩]
        simp [untilRefused, Event.refuses, Session.answers]
      · rw [Lexer.firstSteps, Session.grantedSteps, if_pos ⟨text, named, refuses⟩]
        simp [untilRefused, Event.refuses]
      · exact fun granted => absurd ⟨text, named, refuses⟩ granted.1
    · obtain ⟨c', followed', called⟩ := call_eq w index followed rooted refused
      have rooted' := rooted.grows (Session.names_absorb rooted.indexed lexer.next.1).1
      obtain ⟨after, events, run_eq, answers_eq, alike, all⟩ :=
        ih (w := ⟨_, w.scanners.set index c'⟩) (List.getElem?_set_self within) followed' rooted'
      refine ⟨after, .called index (answer lexer.next.1) (w.session.absorb lexer.next.1).2 :: events,
        run_cons_eq_ok (stepped.trans called) run_eq, ?_, ?_, ?_⟩
      · rw [Lexer.firstSteps, Session.grantedSteps, if_neg refused]
        exact congrArg _ answers_eq
      · rw [Lexer.firstSteps, Session.grantedSteps, if_neg refused, List.map_cons, ← alike]
        simp [untilRefused, Event.refuses, Event.answerOf?]
      · intro granted
        exact List.forall_mem_cons.mpr ⟨rfl, all granted.2⟩

/-- A scanner by itself answers what its lexer's steps find, up to one that is refused, and the names
that it is given are called as its tokens are. -/
theorem solo_eq (file : UInt32) (source : Bytes) (n : Nat) :
    let answers := Session.initial.answers
      (Session.initial.grantedSteps ((Lexer.ofSource file source).firstSteps n))
    ∃ session, solo file source n = .ok (session, answers) ∧
      ∀ given ∈ answers, session.names.Calls given.1.token.name? given.2 := by
  intro answers
  obtain ⟨after, events, run_eq, answers_eq, _⟩ :=
    run_calls (w := opened [(file, ⟨0, source⟩)]) 0 rfl
      (Scanner.follows_ofBuffer file ⟨0, source⟩) Session.rooted_initial n
  obtain ⟨_, _, _, run_eq', yields⟩ :=
    (follows_opened [(file, ⟨0, source⟩)]).run (List.replicate n (.call 0))
  cases run_eq.symm.trans run_eq'
  have collected : (untilRefused 0 events).filterMap Event.call? = answers := answers_eq
  refine ⟨after.session, ?_, ?_⟩
  · simp only [solo, run_eq, bind, Except.bind, collected]
    rfl
  · intro given membership
    rw [← collected] at membership
    obtain ⟨event, happened, isCall⟩ := List.mem_filterMap.mp membership
    have happened : event ∈ events := (List.takeWhile_prefix _).subset happened
    cases event with
    | called index answer name? =>
      cases isCall
      exact yields.named index answer name? happened
    | refused => cases isCall
    | reported => cases isCall

/-- No step over a short source is refused. -/
theorem grantedSteps_eq (file : UInt32) {source : Bytes} (short : source.length < UInt32.size) (n : Nat) :
    Session.initial.grantedSteps ((Lexer.ofSource file source).firstSteps n) =
      (Lexer.ofSource file source).firstSteps n :=
  Session.grantedSteps_of_grants (Lexer.grants_ofSource Session.names_initial file short n)

/-- There are as many answers as calls. -/
theorem length_answers (file : UInt32) {source : Bytes} (short : source.length < UInt32.size) (n : Nat) :
    (Session.initial.answers
      (Session.initial.grantedSteps ((Lexer.ofSource file source).firstSteps n))).length = n := by
  rw [grantedSteps_eq file short, ← List.length_map Prod.fst, Session.map_fst_answers, List.length_map,
    Lexer.length_firstSteps]

end Sharing

end AssemblyLexer
