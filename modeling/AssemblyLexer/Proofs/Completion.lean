import AssemblyLexer.Program
import AssemblyLexer.Proofs.Memoized
import AssemblyLexer.Proofs.NameRoom

/-!
The program in place comes to its end. Nothing breaks it off, whatever its
arguments and the files that it finds, and it leaves behind what the program
over steps of a lexer does.
-/

set_option autoImplicit false

namespace AssemblyLexer

namespace Lexer

variable {lexer after : Lexer} {s : Scanned} {all : List Scanned}

theorem Takes.rest_length_lt (takes : lexer.Takes s after) :
    after.rest.length < lexer.rest.length := by
  have stepped := (lexer.scanFrom_rest_length #[] false).resolve_left
  rw [← next, takes.next_eq] at stepped
  exact stepped fun token_eq => takes.kind_ne (congrArg Token.kind token_eq)

/-- There are no more tokens than bytes, but for the end. -/
theorem Runs.length_le (runs : lexer.Runs all after) : all.length ≤ lexer.rest.length + 1 := by
  induction runs with
  | last => exact Nat.succ_le_succ (Nat.zero_le _)
  | more takes _ ih =>
    have shorter := takes.rest_length_lt
    rw [List.length_cons]
    omega

theorem Runs.firstSteps_eq (runs : lexer.Runs all after) : lexer.firstSteps all.length = all := by
  induction runs with
  | last finishes =>
    rw [List.length_singleton, firstSteps, finishes.next_eq]
    rfl
  | more takes _ ih => rw [List.length_cons, firstSteps, takes.next_eq, ih]

end Lexer

namespace Scanner

variable {c : Scanner} {s : Session} {lexer after : Lexer} {all : List Scanned} {scanned : Scanned}

theorem Follows.call_eq (follows : c.Follows lexer) (rooted : s.names.Rooted)
    (granted : ¬s.Refuses lexer.next.1.token) :
    ∃ c', c.call s = .ok ((s.absorb lexer.next.1).1, c', lexer.next.1.token) ∧
      c'.Follows lexer.next.2 ∧ c'.place = .ok lexer.next.1.place := by
  obtain ⟨c', ends, follows', placed⟩ := follows.call rooted granted
  refine ⟨c', ?_, follows', placed⟩
  rw [Scanner.call, ends.next_eq]

section CallAll

variable {State : Type} {visit : State → Scanner → Token → Except Abort State}
  {see : State → Scanned → Except Abort State}

/-- Calls up to the end visit what a run finds, one token before the next call, and leave its
session. -/
theorem callAll_eq
    (sees : ∀ state c scanned, c.place = .ok scanned.place →
      visit state c scanned.token = see state scanned)
    (runs : lexer.Runs all after) (follows : c.Follows lexer) (rooted : s.names.Rooted)
    (granted : s.Grants all) (state : State) {count : Nat} (enough : all.length ≤ count) :
    c.callAll visit s state count =
      (all.foldlM see state).map fun state => (s.absorbAll all.toArray, state) := by
  induction runs generalizing c s state count with
  | @last lexer after scanned finishes =>
    obtain ⟨count, rfl⟩ := Nat.exists_eq_add_of_le' enough
    have first : ¬s.Refuses lexer.next.1.token := finishes.next_eq ▸ granted.1
    obtain ⟨c', called, _, placed⟩ := follows.call_eq rooted first
    rw [finishes.next_eq] at called placed
    have atEnd : scanned.token.kind = .endOfSource := congrArg Token.kind finishes.token_eq
    rw [List.length_singleton, callAll, called, List.foldlM_cons]
    simp only [bind, Except.bind, sees state c' scanned placed, if_pos atEnd]
    cases see state scanned with
    | error => rfl
    | ok => rfl
  | @more lexer middle after scanned all takes _ ih =>
    rw [List.length_cons] at enough
    obtain ⟨count, rfl⟩ := Nat.exists_eq_add_of_le' (Nat.le_trans (Nat.le_add_left 1 _) enough)
    have first : ¬s.Refuses lexer.next.1.token := takes.next_eq ▸ granted.1
    obtain ⟨c', called, follows', placed⟩ := follows.call_eq rooted first
    rw [takes.next_eq] at called follows' placed
    have rooted' := rooted.grows (Session.names_absorb rooted.indexed scanned).1
    rw [callAll, called, List.foldlM_cons]
    simp only [bind, Except.bind, sees state c' scanned placed, if_neg takes.kind_ne]
    cases see state scanned with
    | error => rfl
    | ok state =>
      rw [Session.absorbAll_cons]
      exact ih follows' rooted' granted.2 state (Nat.le_of_succ_le_succ enough)

end CallAll

theorem list_eq (rows : List Row) (placed : c.place = .ok scanned.place) :
    list rows c scanned.token = .ok (rows ++ [Row.ofScanned scanned]) := by
  rw [list, placed]
  rfl

theorem foldlM_list (rows : List Row) (all : List Scanned) :
    (all.foldlM (fun rows s => Except.ok (rows ++ [Row.ofScanned s])) rows : Except Abort _) =
      .ok (rows ++ all.map Row.ofScanned) := by
  induction all generalizing rows with
  | nil => simp [pure, Except.pure]
  | cons scanned all ih =>
    rw [List.foldlM_cons, List.map_cons]
    simp only [bind, Except.bind, ih, List.append_assoc, List.singleton_append]

theorem record_eq (r : Recording) (placed : c.place = .ok scanned.place) :
    record r c scanned.token = (r.push scanned.recorded).mapError .recording := by
  obtain ⟨text, place_eq⟩ : ∃ text, (⟨c.location, c.span, text⟩ : Place) = scanned.place := by
    rw [Scanner.place] at placed
    cases texted : c.text with
    | error =>
      rw [texted] at placed
      cases placed
    | ok text =>
      rw [texted] at placed
      exact ⟨text, Except.ok.inj placed⟩
  rw [Scanned.recorded, ← place_eq]
  rfl

theorem foldlM_record (r : Recording) (all : List Scanned) :
    all.foldlM (fun r s => (r.push s.recorded).mapError Abort.recording) r =
      (r.pushAll (all.map Scanned.recorded)).mapError .recording := by
  induction all generalizing r with
  | nil => rfl
  | cons scanned all ih =>
    rw [List.foldlM_cons, List.map_cons, Recording.pushAll, List.foldlM_cons]
    cases r.push scanned.recorded with
    | error => rfl
    | ok next => exact ih next

end Scanner

/-- Every text that lies in the source can be taken from it. -/
theorem Row.mapM_replayed {source : Array Byte} {tokens : List RecordedToken}
    (inside : ∀ t ∈ tokens, t.start.toNat ≤ source.size) :
    tokens.mapM (replayed source) = .ok (tokens.map (ofRecorded source)) := by
  induction tokens with
  | nil => rfl
  | cons t tokens ih =>
    obtain ⟨first, others⟩ := List.forall_mem_cons.mp inside
    rw [List.mapM_cons, replayed, if_pos first, ih others]
    rfl

namespace Session

variable {source : Bytes}

section InPlace

variable {s : Session} {file : UInt32} {all : List Scanned} {after : Lexer}

theorem callAll_ofSource {State : Type} {visit : State → Scanner → Token → Except Abort State}
    {see : State → Scanned → Except Abort State}
    (sees : ∀ state c scanned, c.place = .ok scanned.place →
      visit state c scanned.token = see state scanned)
    (runs : (Lexer.ofSource file source).Runs all after) (rooted : s.names.Rooted)
    (granted : s.Grants all) (state : State) :
    (Scanner.ofBuffer file ⟨0, source⟩).callAll visit s state (source.length + 1) =
      (all.foldlM see state).map fun state => (s.absorbAll all.toArray, state) :=
  Scanner.callAll_eq sees runs (Scanner.follows_ofBuffer file ⟨0, source⟩) rooted granted state
    runs.length_le

theorem dumpInPlace_direct (runs : (Lexer.ofSource file source).Runs all after)
    (rooted : s.names.Rooted) (granted : s.Grants all) (trace : Bool) (path : Bytes) :
    s.dumpInPlace ⟨trace, false⟩ path source file =
      .ok (s.absorbAll all.toArray, Table.render trace path (all.map Row.ofScanned)) := by
  have listed := callAll_ofSource (fun rows _ _ => Scanner.list_eq rows) runs rooted granted []
  rw [Scanner.foldlM_list, List.nil_append] at listed
  simp only [dumpInPlace, if_neg Bool.false_ne_true, listed, bind, Except.bind, Except.map]
  rfl

/-- A token that the recording refuses breaks the dump off. -/
theorem dumpInPlace_refused (runs : (Lexer.ofSource file source).Runs all after)
    (rooted : s.names.Rooted) (granted : s.Grants all) {error : RecordingError}
    (refused : (Recording.ofOrigin 1 0).pushAll (all.map Scanned.recorded) = .error error)
    (trace : Bool) (path : Bytes) :
    s.dumpInPlace ⟨trace, true⟩ path source file = .error (.recording error) := by
  have recorded := callAll_ofSource (fun r _ _ => Scanner.record_eq r) runs rooted granted
    (.ofOrigin 1 0)
  rw [Scanner.foldlM_record, refused] at recorded
  simp only [dumpInPlace, if_true, recorded, bind, Except.bind, Except.map, Except.mapError]

theorem dumpInPlace_recorded (runs : (Lexer.ofSource file source).Runs all after)
    (rooted : s.names.Rooted) (granted : s.Grants all) {recording : Recording}
    (pushed : (Recording.ofOrigin 1 0).pushAll (all.map Scanned.recorded) = .ok recording)
    (replayed : recording.replay.run = .ok (all.map Scanned.recorded).toArray)
    (inside : ∀ s ∈ all, s.place.Within source) (small : source.length < UInt64.size)
    (trace : Bool) (path : Bytes) :
    s.dumpInPlace ⟨trace, true⟩ path source file =
      .ok (s.absorbAll all.toArray, Table.render trace path (all.map (Row.ofToken true))) := by
  have recorded := callAll_ofSource (fun r _ _ => Scanner.record_eq r) runs rooted granted
    (.ofOrigin 1 0)
  rw [Scanner.foldlM_record, pushed] at recorded
  have starts : ∀ t ∈ all.map Scanned.recorded, t.start.toNat ≤ source.toArray.size := by
    intro t membership
    obtain ⟨s, found, rfl⟩ := List.mem_map.mp membership
    have within := inside s found
    have start_le := Nat.le_trans within.start_le within.stop_le
    rw [Scanned.recorded, toNat_offset small start_le]
    exact start_le
  have rows_eq := Row.mapM_replayed starts
  rw [Dump.map_ofRecorded small inside] at rows_eq
  simp only [dumpInPlace, if_true, recorded, bind, Except.bind, Except.map, Except.mapError, replayed,
    rows_eq]
  rfl

end InPlace

/-- A session that has a number for every name of a source dumps it in place, unless it is recorded and
has too many lines. -/
theorem dumpInPlace_cases {s : Session} (rooted : s.names.Rooted) (options : DumpOptions) (path : Bytes)
    (file : UInt32) (small : source.length < UInt64.size) :
    let all := (Lexer.ofSource file source).run.1
    s.Grants all.toList →
      s.dumpInPlace options path source file = .ok (s.absorbAll all,
        Table.render options.trace path (all.toList.map (Row.ofToken options.memoize))) ∨
      options.memoize = true ∧ Overlong source := by
  intro all granted
  have runs := (Lexer.ofSource file source).run_runs
  obtain ⟨trace, memoize⟩ := options
  cases memoize with
  | false => exact .inl (dumpInPlace_direct runs rooted granted trace path)
  | true =>
    obtain ⟨inside, ⟨recording, pushed, replayed⟩ | ⟨_, overlong⟩⟩ := Lexer.recording_cases file small
    · have tokens_eq : all.map Scanned.recorded = (all.toList.map Scanned.recorded).toArray := by
        rw [← Array.toList_map, Array.toArray_toList]
      rw [tokens_eq] at replayed
      exact .inl (dumpInPlace_recorded runs rooted granted pushed replayed
        (fun s membership => inside s (Array.mem_toList_iff.mp membership)) small trace path)
    · exact .inr ⟨rfl, overlong⟩

end Session

namespace CommandLine

theorem count_predefined : NameTable.predefined.count = predefinedNames.length := by
  decide +kernel

theorem dumpInPlace_eq (c : CommandLine) {source : LoadedSource} (registry : Registry)
    (small : source.contents.length ≤ Registry.sizeLimit) :
    c.dumpInPlace source registry = .ok (c.dump source registry) := by
  have short : source.contents.length < UInt32.size - 1 := Nat.lt_of_le_of_lt small (by decide)
  have runs := (Lexer.ofSource source.id source.contents).run_runs
  rw [dumpInPlace, dump]
  generalize session_eq : { Session.initial with
    registry := registry.setContents source.id source.contents } = session
  have predefined : session.names = .predefined := by
    rw [← session_eq]
    simp only [Session.initial]
  have rooted : session.names.Rooted := by
    rw [predefined]
    exact NameTable.rooted_predefined
  have granted := Lexer.grants_ofSource predefined source.id (Nat.lt_of_lt_pred short)
    (Lexer.ofSource source.id source.contents).run.1.toList.length
  rw [runs.firstSteps_eq] at granted
  have dumped := (session.dumpInPlace_cases rooted c.options c.source source.id
    (lt_size_of_short short) granted).resolve_right fun refused => not_overlong short refused.2
  dsimp only
  rw [dumped, session.dump_eq c.options c.source source.id short]
  rfl

/-- What the source argument leads to: standard input or a file. -/
def reads (source input : Bytes) (find : Bytes → Found) : Found :=
  if source = dash then .file input else find source

/-- The name under which a source is registered. -/
def registeredName (source : Bytes) : Bytes :=
  if source = dash then Utf8.ofString "<stdin>" else source

theorem load_eq (c : CommandLine) (input : Bytes) (find : Bytes → Found) (registry : Registry) :
    c.load input find registry =
      registry.loadFound (registeredName c.source) (reads c.source input find) := by
  rw [load, registeredName, reads]
  split <;> rfl

/-- What is loaded is a file of admissible size. -/
theorem eq_file_of_loadFound {path : Bytes} {found : Found} {registry registry' : Registry}
    {source : LoadedSource} (loaded : registry.loadFound path found = (registry', .ok source)) :
    found = .file source.contents ∧ source.contents.length ≤ Registry.sizeLimit := by
  cases found with
  | nothing => cases loaded
  | directory => cases loaded
  | file contents =>
    rw [Registry.loadFound, Registry.load] at loaded
    by_cases large : Registry.sizeLimit < contents.length
    · rw [if_pos large] at loaded
      cases loaded
    · rw [if_neg large] at loaded
      cases registered : registry.register? path with
      | none =>
        rw [registered] at loaded
        cases loaded
      | some given =>
        rw [registered] at loaded
        by_cases isZero : given.1 = 0
        · dsimp only at loaded
          rw [if_pos isZero] at loaded
          cases loaded
        · dsimp only at loaded
          rw [if_neg isZero] at loaded
          cases loaded
          exact ⟨rfl, Nat.le_of_not_lt large⟩

/-- Nothing breaks the program off. -/
theorem runInPlace_eq (arguments : List Bytes) (input : Bytes) (find : Bytes → Found) :
    runInPlace arguments input find = .ok (run arguments input find) := by
  rw [runInPlace, run]
  cases parse? arguments with
  | none => rfl
  | some c =>
    dsimp only
    rw [executeInPlace, execute, if_neg fun unordered => unordered count_predefined, load_eq]
    cases loaded : Registry.empty.loadFound (registeredName c.source) (reads c.source input find) with
    | mk registry result =>
      cases result with
      | error e => rfl
      | ok source => exact c.dumpInPlace_eq registry (eq_file_of_loadFound loaded).2

end CommandLine

end AssemblyLexer
