import AssemblyLexer.Proofs.InPlaceCall
import AssemblyLexer.Proofs.SessionLog
import AssemblyLexer.Sharing

/-!
Scanners that share a session do not interfere. What each of them finds, and
what it reports, depends on its own source alone; the names that they are given
are those of one table, which only grows.
-/

set_option autoImplicit false

namespace AssemblyLexer

/-- The count of errors is the number of errors in the log. -/
def Log.Counted (log : Log) : Prop :=
  log.errors = log.entries.toList.countP fun diagnostic => diagnostic.severity = .error

theorem Log.counted_record {log : Log} (counted : log.Counted) (diagnostic : Diagnostic) :
    (log.record diagnostic).Counted := by
  rw [Counted] at counted ⊢
  by_cases isError : diagnostic.severity = .error
  · simp [record, isError, counted]
  · simp [record, isError, counted]

theorem Log.counted_foldl_record {log : Log} (counted : log.Counted) (reports : List Report) :
    (reports.foldl (fun log report => log.record report.diagnostic) log).Counted := by
  induction reports generalizing log with
  | nil => exact counted
  | cons report reports ih => exact ih (counted_record counted report.diagnostic)

/-- A token's name, if it has one, is called the same in the table. -/
inductive NameTable.Calls (t : NameTable) : Option Bytes → Option Name → Prop
  | unnamed : Calls t none none
  | named {text : Bytes} {name : Name} (names : t.Names text name) : Calls t (some text) (some name)

theorem NameTable.Calls.grows {t later : NameTable} {text? : Option Bytes} {name? : Option Name}
    (calls : t.Calls text? name?) (grows : t.Grows later) : later.Calls text? name? := by
  cases calls with
  | unnamed => exact .unnamed
  | named names => exact .named (names.grows grows)

theorem NameTable.Calls.text_eq {t : NameTable} {text? : Option Bytes} {name? : Option Name}
    (calls : t.Calls text? name?) : text? = name?.map t.get := by
  cases calls with
  | unnamed => rfl
  | named names => exact congrArg some names.get_eq.symm

theorem NameTable.Calls.eq_iff {t : NameTable} {text? text?' : Option Bytes} {name name' : Name}
    (calls : t.Calls text? (some name)) (calls' : t.Calls text?' (some name')) :
    name = name' ↔ text? = text?' := by
  cases calls with
  | named names =>
    cases calls' with
    | named names' => rw [names.eq_iff names', Option.some_inj]

theorem NameTable.Grows.count_le {t later : NameTable} (grows : t.Grows later) : t.count ≤ later.count :=
  grows.entries.length_le

theorem NameTable.Grows.isFull {t later : NameTable} (grows : t.Grows later) (full : t.isFull) :
    later.isFull := by
  rw [NameTable.isFull, decide_eq_true_eq] at full ⊢
  exact Nat.le_trans full grows.count_le

/-- The table grows, and not beyond the numbers that there are. -/
structure NameTable.GrowsWithin (t later : NameTable) : Prop extends t.Grows later where
  count_le : t.count ≤ limit → later.count ≤ limit

theorem NameTable.GrowsWithin.trans {t later last : NameTable} (grows : t.GrowsWithin later)
    (further : later.GrowsWithin last) : t.GrowsWithin last :=
  ⟨grows.toGrows.trans further.toGrows, fun within => further.count_le (grows.count_le within)⟩

theorem NameTable.growsWithin_setPending (t : NameTable) (pending : Bytes) :
    t.GrowsWithin { t with pending := pending } :=
  ⟨t.grows_setPending pending, id⟩

theorem NameTable.growsWithin_add {t : NameTable} {text : Bytes} (granted : ¬t.Refuses text) :
    t.GrowsWithin (t.add text).1 := by
  refine ⟨t.grows_add text, fun within => ?_⟩
  rw [Refuses, isFull, decide_eq_true_eq, not_and] at granted
  rw [add]
  cases found : t.find? text with
  | some name => exact within
  | none =>
    have count_eq : (t.insert text).1.count = t.count + 1 := List.length_append
    rw [count_eq]
    exact Nat.lt_of_not_le fun full => granted full found

theorem NameTable.growsWithin_pushPendingCode (t : NameTable) (code : Nat) :
    t.GrowsWithin (t.pushPendingCode code) := by
  unfold pushPendingCode
  split
  · exact t.growsWithin_setPending _
  · exact t.growsWithin_setPending t.pending

/-- What is refused changes nothing. -/
theorem NameTable.growsWithin_add? (t : NameTable) (text : Bytes) :
    t.GrowsWithin (((t.add? text).map Prod.fst).getD t) := by
  rw [add?_eq]
  split
  · exact t.growsWithin_setPending t.pending
  · next granted => exact growsWithin_add granted

theorem NameTable.growsWithin_internPending? (t : NameTable) :
    t.GrowsWithin ((t.internPending?.map Prod.fst).getD t) := by
  rw [internPending?_eq]
  split
  · exact t.growsWithin_setPending t.pending
  · next granted =>
    rw [internPending_eq]
    exact (growsWithin_add granted).trans (growsWithin_setPending _ [])

namespace Session

theorem within_initial : initial.names.count ≤ NameTable.limit := by
  decide +kernel

/-- A step adds at most the name of its token to the table. -/
theorem names_absorb {s : Session} (indexed : s.names.Indexed) (scanned : Scanned) :
    s.names.Grows (s.absorb scanned).1.names ∧
      (s.absorb scanned).1.names.Calls scanned.token.name? (s.absorb scanned).2 := by
  have cleared : s.names.Grows (if scanned.spelledName then s.names.clearPending else s.names) := by
    split
    · exact s.names.grows_setPending []
    · exact .refl s.names
  unfold absorb internName
  dsimp only [recordAll]
  cases scanned.token.name? with
  | none => exact ⟨cleared, .unnamed⟩
  | some text =>
    exact ⟨cleared.trans (NameTable.grows_add _ text), .named ((cleared.indexed indexed).names_add text)⟩

theorem growsWithin_absorb {s : Session} {scanned : Scanned} (granted : ¬s.Refuses scanned.token) :
    s.names.GrowsWithin (s.absorb scanned).1.names := by
  have cleared : s.names.GrowsWithin (if scanned.spelledName then s.names.clearPending else s.names) := by
    split
    · exact s.names.growsWithin_setPending []
    · exact ⟨.refl s.names, id⟩
  unfold absorb internName
  dsimp only [recordAll]
  cases named : scanned.token.name? with
  | none => exact cleared
  | some text =>
    refine cleared.trans (NameTable.growsWithin_add fun refuses => granted ⟨text, named, ?_⟩)
    split at refuses
    · exact refuses
    · exact refuses

theorem counted_recordAll {s : Session} (counted : s.log.Counted) (reports : Array Report) :
    (s.recordAll reports).log.Counted := by
  rw [recordAll, ← Array.foldl_toList]
  exact Log.counted_foldl_record counted reports.toList

theorem counted_absorb {s : Session} (counted : s.log.Counted) (scanned : Scanned) :
    (s.absorb scanned).1.log.Counted := by
  rw [absorb, log_internName]
  exact counted_recordAll counted scanned.reports

end Session

namespace Lexer

/-- What the lexer finds in so many steps. -/
def firstSteps (lexer : Lexer) : Nat → List Scanned
  | 0 => []
  | n + 1 => lexer.next.1 :: lexer.next.2.firstSteps n

theorem afterSteps_add (lexer : Lexer) (m n : Nat) :
    lexer.afterSteps (m + n) = (lexer.afterSteps m).afterSteps n := by
  induction n with
  | zero => rfl
  | succ n ih => rw [← Nat.add_assoc, afterSteps, ih, afterSteps]

theorem firstSteps_add (lexer : Lexer) (m n : Nat) :
    lexer.firstSteps (m + n) = lexer.firstSteps m ++ (lexer.afterSteps m).firstSteps n := by
  induction m generalizing lexer with
  | zero =>
    rw [Nat.zero_add]
    rfl
  | succ m ih =>
    have stepped : lexer.afterSteps (m + 1) = lexer.next.2.afterSteps m := by
      rw [Nat.add_comm, afterSteps_add]
      rfl
    rw [Nat.add_right_comm, firstSteps, ih, stepped, firstSteps, List.cons_append]

end Lexer

namespace Sharing

/-- The answer of a scanner whose lexer finds the given. -/
def answer (s : Scanned) : Answer :=
  ⟨s.token, s.place, s.reports.toList.map Report.diagnostic⟩

/-- Each scanner follows a lexer, in a session that is in order. -/
structure Follows (w : Sharing) (lexers : List Lexer) : Prop where
  scanners : ∀ index : Nat, Option.Rel Scanner.Follows w.scanners[index]? lexers[index]?
  rooted : w.session.names.Rooted
  within : w.session.names.count ≤ NameTable.limit
  counted : w.session.log.Counted

/-- What a scanner answers in some events, given the lexer that it follows before them and the number
of its calls: what the lexer's first steps find, up to a call that is refused if there is one. -/
inductive Answers (index : Nat) (lexer : Lexer) (calls : Nat) (events : List Event)
    (later? : Option Lexer) : Prop
  | granted (granted : ∀ event ∈ events, event.refuses index = false)
      (answers_eq : events.filterMap (Event.answerOf? index) = (lexer.firstSteps calls).map answer)
      (later_eq : later? = some (lexer.afterSteps calls))
  | refused {n : Nat} (n_lt : n < calls) (refused : ∃ event ∈ events, event.refuses index)
      (answers_eq : (untilRefused index events).filterMap (Event.answerOf? index) =
        (lexer.firstSteps n).map answer)
      (isLexer : later?.isSome)

/-- What comes of actions in which each scanner is called so many times. -/
structure Yields (w : Sharing) (lexers : List Lexer) (calls : Nat → Nat) (after : Sharing)
    (later : List Lexer) (events : List Event) : Prop where
  follows : after.Follows later
  answers : ∀ (index : Nat) (lexer : Lexer), lexers[index]? = some lexer →
    Answers index lexer (calls index) events later[index]?
  named : ∀ index a name?, Event.called index a name? ∈ events →
    after.session.names.Calls a.token.name? name?
  grows : w.session.names.Grows after.session.names
  full : ∀ index, (∃ event ∈ events, event.refuses index) → after.session.names.isFull
  entries : after.session.log.entries.toList =
    w.session.log.entries.toList ++ events.flatMap Event.added

variable {w middle after : Sharing} {lexers between later : List Lexer} {calls calls' : Nat → Nat}
  {events events' : List Event} {index : Nat} {lexer : Lexer}

theorem untilRefused_append (granted : ∀ event ∈ events, event.refuses index = false)
    (events' : List Event) :
    untilRefused index (events ++ events') = events ++ untilRefused index events' :=
  List.takeWhile_append_of_pos fun event membership => by simp [granted event membership]

theorem untilRefused_append_of_refused (refused : ∃ event ∈ events, event.refuses index)
    (events' : List Event) : untilRefused index (events ++ events') = untilRefused index events := by
  induction events with
  | nil => simp at refused
  | cons event events ih =>
    rw [untilRefused, untilRefused, List.cons_append, List.takeWhile_cons, List.takeWhile_cons]
    cases refuses : event.refuses index with
    | true => rfl
    | false =>
      have later : ∃ event ∈ events, event.refuses index := by simpa [refuses] using refused
      exact congrArg (List.cons event) (ih later)

/-- A scanner that has been refused once counts as refused for good. -/
theorem Answers.trans {calls calls' : Nat} {between? later? : Option Lexer}
    (first : Answers index lexer calls events between?)
    (second : ∀ lexer', between? = some lexer' → Answers index lexer' calls' events' later?) :
    Answers index lexer (calls + calls') (events ++ events') later? := by
  cases first with
  | granted granted answers_eq later_eq =>
    cases second _ later_eq with
    | granted granted' answers_eq' later_eq' =>
      refine .granted ?_ ?_ (later_eq'.trans (congrArg some (lexer.afterSteps_add _ _).symm))
      · exact List.forall_mem_append.mpr ⟨granted, granted'⟩
      · rw [List.filterMap_append, answers_eq, answers_eq', Lexer.firstSteps_add, List.map_append]
    | @refused n n_lt refused answers_eq' isLexer =>
      obtain ⟨event, happened, refuses⟩ := refused
      refine .refused (Nat.add_lt_add_left n_lt calls)
        ⟨event, List.mem_append_right _ happened, refuses⟩ ?_ isLexer
      rw [untilRefused_append granted, List.filterMap_append, answers_eq, answers_eq',
        Lexer.firstSteps_add, List.map_append]
  | refused n_lt refused answers_eq isLexer =>
    obtain ⟨lexer', between_eq⟩ := Option.isSome_iff_exists.mp isLexer
    have isLater : later?.isSome := by
      cases second lexer' between_eq with
      | granted _ _ later_eq => exact later_eq ▸ rfl
      | refused _ _ _ isLexer' => exact isLexer'
    obtain ⟨event, happened, refuses⟩ := refused
    refine .refused (Nat.lt_add_right _ n_lt) ⟨event, List.mem_append_left _ happened, refuses⟩ ?_ isLater
    rw [untilRefused_append_of_refused ⟨event, happened, refuses⟩, answers_eq]

theorem Yields.trans (first : w.Yields lexers calls middle between events)
    (second : middle.Yields between calls' after later events') :
    w.Yields lexers (fun index => calls index + calls' index) after later (events ++ events') where
  follows := second.follows
  answers index lexer isLexer := (first.answers index lexer isLexer).trans (second.answers index)
  named index a name? membership := by
    rcases List.mem_append.mp membership with before | behind
    · exact (first.named index a name? before).grows second.grows
    · exact second.named index a name? behind
  grows := first.grows.trans second.grows
  full := by
    rintro index ⟨event, happened, refuses⟩
    rcases List.mem_append.mp happened with before | behind
    · exact second.grows.isFull (first.full index ⟨event, before, refuses⟩)
    · exact second.full index ⟨event, behind, refuses⟩
  entries := by rw [second.entries, first.entries, List.flatMap_append, List.append_assoc]

/-- Where nothing happens that concerns a scanner, its lexer stays where it is. -/
theorem Answers.of_quiet {later? : Option Lexer} (later_eq : later? = some lexer)
    (granted : ∀ event ∈ events, event.refuses index = false)
    (silent : events.filterMap (Event.answerOf? index) = []) : Answers index lexer 0 events later? :=
  .granted granted silent later_eq

/-- Calls of scanners that are not there count for nothing. -/
theorem Yields.of_absent (follows : w.Follows lexers)
    (absent : ∀ (index : Nat) (lexer : Lexer), lexers[index]? = some lexer → calls index = 0) :
    w.Yields lexers calls w lexers [] where
  follows := follows
  answers index lexer isLexer := by
    rw [absent index lexer isLexer]
    exact .of_quiet isLexer (by simp) rfl
  named _ _ _ membership := by cases membership
  grows := .refl _
  full _ refused := by simp at refused
  entries := (List.append_nil _).symm

/-- Whatever else is done to the names, the table only grows. -/
theorem Follows.yields_mapNames (follows : w.Follows lexers) {change : NameTable → NameTable}
    (grows : w.session.names.GrowsWithin (change w.session.names)) :
    w.Yields lexers (fun _ => 0) (w.mapNames change) lexers [] where
  follows := ⟨follows.scanners, follows.rooted.grows grows.toGrows, grows.count_le follows.within,
    follows.counted⟩
  answers _ _ isLexer := .of_quiet isLexer (by simp) rfl
  named _ _ _ membership := by cases membership
  grows := grows.toGrows
  full _ refused := by simp at refused
  entries := (List.append_nil _).symm

theorem Follows.yields_report (follows : w.Follows lexers) (diagnostic : Diagnostic) :
    w.Yields lexers (fun _ => 0) { w with session := w.session.record diagnostic } lexers
      [.reported diagnostic] where
  follows := ⟨follows.scanners, follows.rooted, follows.within,
    Log.counted_record follows.counted diagnostic⟩
  answers _ _ isLexer := .of_quiet isLexer (by simp [Event.refuses]) rfl
  named _ _ _ membership := by simp at membership
  grows := .refl _
  full _ refused := by simp [Event.refuses] at refused
  entries := by simp [Session.record, Log.record, Event.added]

theorem Follows.exists_lexer (follows : w.Follows lexers) {i : Nat} {c : Scanner}
    (isScanner : w.scanners[i]? = some c) : ∃ lexer, lexers[i]? = some lexer ∧ c.Follows lexer := by
  have related := follows.scanners i
  rw [isScanner] at related
  cases isLexer : lexers[i]? with
  | none =>
    rw [isLexer] at related
    cases related
  | some lexer =>
    rw [isLexer] at related
    cases related with
    | some followed => exact ⟨lexer, rfl, followed⟩

/-- A scanner may go on to where some lexer stands. -/
theorem Follows.set (follows : w.Follows lexers) {i : Nat} {c : Scanner} {lexer : Lexer}
    (inScanners : i < w.scanners.length) (inLexers : i < lexers.length) (followed : c.Follows lexer)
    {session : Session} (grows : w.session.names.GrowsWithin session.names)
    (counted : session.log.Counted) :
    Sharing.Follows ⟨session, w.scanners.set i c⟩ (lexers.set i lexer) where
  scanners index := by
    by_cases same : i = index
    · subst same
      rw [List.getElem?_set_self inScanners, List.getElem?_set_self inLexers]
      exact .some followed
    · rw [List.getElem?_set_ne same, List.getElem?_set_ne same]
      exact follows.scanners index
  rooted := follows.rooted.grows grows.toGrows
  within := grows.count_le follows.within
  counted := counted

/-- The diagnostics that are added are those behind the ones that were there. -/
theorem addedSince_eq {before after : Session} {added : List Diagnostic}
    (entries_eq : after.log.entries.toList = before.log.entries.toList ++ added) :
    addedSince before after = added := by
  rw [addedSince, entries_eq, ← Array.length_toList, List.drop_left]

/-- A call of a scanner is a step of its lexer, whoever has used the session before, unless the name
of the token is refused. -/
theorem call_eq (w : Sharing) (index : Nat) {c : Scanner} {lexer : Lexer}
    (followed : c.Follows lexer) (rooted : w.session.names.Rooted)
    (granted : ¬w.session.Refuses lexer.next.1.token) :
    ∃ c', c'.Follows lexer.next.2 ∧ w.call index c =
      .ok (⟨(w.session.absorb lexer.next.1).1, w.scanners.set index c'⟩,
        [.called index (answer lexer.next.1) (w.session.absorb lexer.next.1).2]) := by
  obtain ⟨c', ends, followed', placed⟩ := followed.call rooted granted
  refine ⟨c', followed', ?_⟩
  simp only [Sharing.call, ends.next_eq, bind, Except.bind, placed, pure, Except.pure,
    addedSince_eq (w.session.log_entries_absorb lexer.next.1)]
  rfl

/-- A refused call leaves the name pending and keeps what it has reported. -/
theorem call_refused (w : Sharing) (index : Nat) {c : Scanner} {lexer : Lexer} {text : Bytes}
    (followed : c.Follows lexer) (rooted : w.session.names.Rooted)
    (named : lexer.next.1.token.name? = some text) (refuses : w.session.names.Refuses text) :
    ∃ c' lexer', c'.Follows lexer' ∧ w.call index c =
      .ok (⟨(w.session.recordAll lexer.next.1.reports).spelling text, w.scanners.set index c'⟩,
        [.refused index (lexer.next.1.reports.toList.map Report.diagnostic)]) := by
  obtain ⟨c', ends, lexer', followed'⟩ := followed.call_refused rooted named refuses
  have entries_eq : ((w.session.recordAll lexer.next.1.reports).spelling text).log.entries.toList = _ :=
    w.session.log_entries_recordAll lexer.next.1.reports
  refine ⟨c', lexer', followed', ?_⟩
  simp only [Sharing.call, ends.next_eq, bind, Except.bind, pure, Except.pure, addedSince_eq entries_eq]

/-- A call concerns no other scanner. -/
theorem Answers.of_other {event : Event} {i : Nat} {later? : Option Lexer} (other : i ≠ index)
    (later_eq : later? = some lexer)
    (isCall : (∃ a name?, event = .called i a name?) ∨ ∃ added, event = .refused i added) :
    Answers index lexer 0 [event] later? := by
  rcases isCall with ⟨a, name?, rfl⟩ | ⟨added, rfl⟩
  · exact .of_quiet later_eq (by simp [Event.refuses]) (by simp [Event.answerOf?, other])
  · exact .of_quiet later_eq (by simp [Event.refuses, other]) rfl

theorem Follows.yields_call (follows : w.Follows lexers) {i : Nat} {c : Scanner} {lexer : Lexer}
    (isScanner : w.scanners[i]? = some c) (isLexer : lexers[i]? = some lexer)
    (followed : c.Follows lexer) :
    ∃ after later events, w.call i c = .ok (after, events) ∧
      w.Yields lexers (fun index => if i = index then 1 else 0) after later events := by
  have inScanners : i < w.scanners.length := (List.getElem?_eq_some_iff.mp isScanner).1
  have inLexers : i < lexers.length := (List.getElem?_eq_some_iff.mp isLexer).1
  by_cases refused : w.session.Refuses lexer.next.1.token
  · obtain ⟨text, named, refuses⟩ := refused
    obtain ⟨c', lexer', followed', called⟩ := call_refused w i followed follows.rooted named refuses
    have grows := w.session.names.growsWithin_setPending text
    refine ⟨_, lexers.set i lexer', _, called, follows.set inScanners inLexers followed' grows
      (Session.counted_recordAll follows.counted _), ?_, ?_, grows.toGrows, fun _ _ => refuses.1, ?_⟩
    · intro index other isOther
      by_cases same : i = index
      · subst same
        rw [List.getElem?_set_self inLexers, if_pos rfl]
        refine .refused (n := 0) Nat.one_pos ⟨_, List.mem_singleton_self _, ?_⟩ ?_ rfl
        · simp [Event.refuses]
        · simp [untilRefused, Event.refuses, Lexer.firstSteps]
      · rw [List.getElem?_set_ne same, if_neg same]
        exact .of_other same isOther (.inr ⟨_, rfl⟩)
    · intro index a name? membership
      cases List.mem_singleton.mp membership
    · rw [List.flatMap_singleton]
      exact w.session.log_entries_recordAll lexer.next.1.reports
  · obtain ⟨c', followed', called⟩ := call_eq w i followed follows.rooted refused
    have grows := Session.growsWithin_absorb refused
    refine ⟨_, lexers.set i lexer.next.2, _, called, follows.set inScanners inLexers followed' grows
      (Session.counted_absorb follows.counted _), ?_, ?_, grows.toGrows, ?_, ?_⟩
    · intro index other isOther
      by_cases same : i = index
      · subst same
        obtain rfl := Option.some.inj (isLexer.symm.trans isOther)
        rw [List.getElem?_set_self inLexers, if_pos rfl]
        exact .granted (by simp [Event.refuses]) (by simp [Event.answerOf?, Lexer.firstSteps]) rfl
      · rw [List.getElem?_set_ne same, if_neg same]
        exact .of_other same isOther (.inl ⟨_, _, rfl⟩)
    · intro index a name? membership
      cases List.mem_singleton.mp membership
      exact (Session.names_absorb follows.rooted.indexed _).2
    · intro index refuses
      simp [Event.refuses] at refuses
    · rw [List.flatMap_singleton]
      exact w.session.log_entries_absorb lexer.next.1

/-- Every action is taken, and it counts as a call of the scanner that it calls. -/
theorem Follows.step (follows : w.Follows lexers) (action : Action) :
    ∃ after later events, w.step action = .ok (after, events) ∧
      w.Yields lexers (fun index => if action = .call index then 1 else 0) after later events := by
  cases action with
  | call i =>
    simp only [Action.call.injEq, Sharing.step]
    cases isScanner : w.scanners[i]? with
    | none =>
      have related := follows.scanners i
      refine ⟨w, lexers, [], rfl, .of_absent follows ?_⟩
      rintro index lexer isLexer
      rw [if_neg]
      rintro rfl
      rw [isScanner, isLexer] at related
      cases related
    | some c =>
      obtain ⟨lexer, isLexer, followed⟩ := follows.exists_lexer isScanner
      exact follows.yields_call isScanner isLexer followed
  | add text => exact ⟨_, _, _, rfl, follows.yields_mapNames (NameTable.growsWithin_add? _ text)⟩
  | find => exact ⟨_, _, _, rfl, .of_absent follows fun _ _ _ => rfl⟩
  | pushPending => exact ⟨_, _, _, rfl, follows.yields_mapNames (NameTable.growsWithin_setPending _ _)⟩
  | pushPendingCode code =>
    exact ⟨_, _, _, rfl, follows.yields_mapNames (NameTable.growsWithin_pushPendingCode _ code)⟩
  | clearPending => exact ⟨_, _, _, rfl, follows.yields_mapNames (NameTable.growsWithin_setPending _ _)⟩
  | internPending => exact ⟨_, _, _, rfl, follows.yields_mapNames (NameTable.growsWithin_internPending? _)⟩
  | report diagnostic => exact ⟨_, _, _, rfl, follows.yields_report diagnostic⟩

theorem run_cons_eq_ok {middle after : Sharing} {action : Action} {actions : List Action}
    {events later : List Event} (step_eq : w.step action = .ok (middle, events))
    (run_eq : middle.run actions = .ok (after, later)) :
    w.run (action :: actions) = .ok (after, events ++ later) := by
  rw [Sharing.run, step_eq]
  simp only [bind, Except.bind, run_eq]
  rfl

theorem Follows.run (follows : w.Follows lexers) (actions : List Action) :
    ∃ after later events, w.run actions = .ok (after, events) ∧
      w.Yields lexers (fun index => actions.count (.call index)) after later events := by
  -- The lexers go on with the scanners, so that the actions that follow start from where they are.
  induction actions generalizing w lexers with
  | nil => exact ⟨w, lexers, [], rfl, .of_absent follows fun _ _ _ => rfl⟩
  | cons action actions ih =>
    obtain ⟨middle, between, events, step_eq, first⟩ := follows.step action
    obtain ⟨after, later, events', run_eq, second⟩ := ih first.follows
    refine ⟨after, later, events ++ events', run_cons_eq_ok step_eq run_eq, ?_⟩
    have counts : (fun index => (action :: actions).count (.call index)) =
        fun index => (if action = .call index then 1 else 0) + actions.count (.call index) := by
      funext index
      rw [List.count_cons, Nat.add_comm]
      simp only [beq_iff_eq]
    rw [counts]
    exact first.trans second

theorem follows_opened (sources : List (UInt32 × Buffer)) :
    (opened sources).Follows (sources.map fun (file, buffer) => .ofSource file buffer.bytes) where
  scanners index := by
    rw [opened, List.getElem?_map, List.getElem?_map]
    cases sources[index]? with
    | none => exact .none
    | some source => exact .some (Scanner.follows_ofBuffer source.1 source.2)
  rooted := Session.rooted_initial
  within := Session.within_initial
  counted := rfl

end Sharing

end AssemblyLexer
