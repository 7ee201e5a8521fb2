import AssemblyLexer.Dump
import AssemblyLexer.Proofs.Location
import AssemblyLexer.Proofs.Replay

/-!
Dumps by way of a recording. The tokens of a run come in order, so that none of
them is refused, and the replay gives the rows of the direct dump but for the
values, which a recording does not know.
-/

set_option autoImplicit false

namespace AssemblyLexer

theorem lineAt_mono (source : Bytes) {p q : Nat} (before : p ≤ q) :
    lineAt source p ≤ lineAt source q := by
  induction before with
  | refl => exact Nat.le_refl _
  | step _ ih =>
    rw [lineAt_succ]
    exact Nat.le_trans ih (Nat.le_add_right _ _)

namespace Replay

theorem runFrom_eq {r : Replay} {t : RecordedToken} (answered : answer r.next = .ok t)
    (before : Array RecordedToken) :
    r.runFrom before =
      if t.kind = .endOfSource then .ok (before.push t) else r.next.2.runFrom (before.push t) := by
  rw [runFrom]
  split
  · next error after step =>
    rw [step] at answered
    cases answered
  · next kind after step =>
    rw [step] at answered ⊢
    obtain rfl : ⟨kind, after.line, after.start, after.stop⟩ = t := Except.ok.inj answered
    rfl

/-- A replay that answers with tokens up to the end of the source runs through these. -/
theorem runFrom_of_answers {tokens : List RecordedToken} {last : RecordedToken}
    (inside : ∀ t ∈ tokens, t.kind ≠ .endOfSource) (atEnd : last.kind = .endOfSource) {r : Replay}
    (answers_eq : r.answers (tokens.length + 1) = (tokens ++ [last]).map .ok)
    (before : Array RecordedToken) :
    r.runFrom before = .ok (before ++ (tokens ++ [last]).toArray) := by
  induction tokens generalizing r before with
  | nil =>
    obtain ⟨answered, _⟩ := List.cons.inj answers_eq
    rw [runFrom_eq answered, if_pos atEnd]
    simp
  | cons t tokens ih =>
    obtain ⟨answered, later⟩ := List.cons.inj answers_eq
    rw [runFrom_eq answered, if_neg (inside t List.mem_cons_self),
      ih (fun u membership => inside u (List.mem_cons_of_mem t membership)) later]
    simp

end Replay

variable {file : UInt32} {source passed : Bytes}

/-- The place gives the span of its text in the source, and the line where it starts as far as 32
bits hold it. -/
structure Place.Within (place : Place) (source : Bytes) : Prop where
  start_le : place.span.start ≤ place.span.stop
  stop_le : place.span.stop ≤ source.length
  text_eq : place.text = (source.drop place.span.start).take place.span.length
  line_eq : place.location.line = UInt32.ofNat (lineAt source place.span.start)

theorem Lexer.Stands.within {s : Scanned} {taken : List Piece}
    (stands : Lexer.Stands s file passed taken) (isPrefix : passed ++ s.place.text <+: source) :
    s.place.Within source := by
  have before : passed <+: source := (List.prefix_append _ _).trans isPrefix
  obtain ⟨rest, rfl⟩ := isPrefix
  refine ⟨?_, ?_, ?_, ?_⟩
  · rw [stands.start_eq, stands.stop_eq]
    exact Nat.le_add_right _ _
  · rw [stands.stop_eq, List.length_append, List.length_append]
    exact Nat.le_add_right _ _
  · rw [Span.length, stands.start_eq, stands.stop_eq, Nat.add_sub_cancel_left, List.append_assoc,
      List.drop_left, List.take_left]
  · rw [stands.location_eq, stands.start_eq, List.prefix_iff_eq_take.mp before,
      Position.passAll_take before.length_le, ← List.prefix_iff_eq_take.mp before]
    rfl

/-- The offsets of a source fit 64 bits. -/
theorem toNat_offset (small : source.length < UInt64.size) {p : Nat} (within : p ≤ source.length) :
    (UInt64.ofNat p).toNat = p :=
  UInt64.toNat_ofNat_of_lt' (Nat.lt_of_le_of_lt within small)

theorem lt_size_of_short (short : source.length < UInt32.size - 1) :
    source.length < UInt64.size := by
  simp only [UInt32.size, UInt64.size] at short ⊢
  omega

namespace Place.Within

variable {place : Place}

end Place.Within

/-- The row of a recorded token is that of the token itself but for the value. -/
theorem Row.ofRecorded_recorded (small : source.length < UInt64.size) {s : Scanned}
    (within : s.place.Within source) :
    Row.ofRecorded source.toArray s.recorded =
      { Row.ofScanned s with value := Printable.ofBytes s.place.text } := by
  have text_eq : (source.toArray.extract s.recorded.start.toNat s.recorded.stop.toNat).toList =
      s.place.text := by
    rw [Scanned.recorded, toNat_offset small (Nat.le_trans within.start_le within.stop_le),
      toNat_offset small within.stop_le, Array.toList_extract, List.extract_eq_take_drop,
      within.text_eq]
    rfl
  have length_eq : s.recorded.stop - s.recorded.start = UInt64.ofNat s.place.span.length := by
    rw [Scanned.recorded, Span.length, UInt64.ofNat_sub within.start_le]
  rw [ofRecorded, text_eq, length_eq]
  rfl

/-- What has been recorded ends in the source before an offset. -/
structure Recording.Behind (r : Recording) (source : Bytes) (p : Nat) : Prop where
  line_eq : ∃ q ≤ p, r.line = UInt32.ofNat (lineAt source q)
  offset_le : r.offset.toNat ≤ p

/-- The source has more lines than 32 bits count. -/
def Overlong (source : Bytes) : Prop :=
  UInt32.size ≤ lineAt source source.length

theorem not_overlong (short : source.length < UInt32.size - 1) : ¬Overlong source := by
  have lines := lineAt_le source source.length
  rw [Overlong]
  omega

/-- Lines are not mixed up where 32 bits count them all. -/
theorem overlong_of_lt {p q : Nat} (before : p ≤ q) (within : q ≤ source.length)
    (earlier : UInt32.ofNat (lineAt source q) < UInt32.ofNat (lineAt source p)) :
    Overlong source := by
  apply Classical.byContradiction
  intro counted
  have bound := Nat.lt_of_not_le counted
  have ordered := lineAt_mono source before
  have last := lineAt_mono source within
  rw [UInt32.lt_iff_toNat_lt, UInt32.toNat_ofNat_of_lt' (by omega),
    UInt32.toNat_ofNat_of_lt' (by omega)] at earlier
  omega

/-- A token from the end of the recording on is accepted, and the recording then ends with it. It is
refused only when the count of lines has started over. -/
theorem Recording.Behind.push {r : Recording} (behind : r.Behind source passed.length)
    (small : source.length < UInt64.size) {s : Scanned} {skipped : Bytes} {taken : List Piece}
    (stands : Lexer.Stands s file (passed ++ skipped) taken) (within : s.place.Within source) :
    (∃ next, r.push s.recorded = .ok next ∧
        next.Behind source (passed ++ skipped ++ s.place.text).length) ∨
      r.push s.recorded = .error .earlierLine ∧ Overlong source := by
  have later : passed.length ≤ s.place.span.start := by
    rw [stands.start_eq, List.length_append]
    exact Nat.le_add_right _ _
  have start_le := Nat.le_trans within.start_le within.stop_le
  by_cases earlier : s.recorded.line < r.line
  · right
    constructor
    · rw [Recording.push, if_pos earlier]
    · obtain ⟨q, q_le, line_eq⟩ := behind.line_eq
      rw [Scanned.recorded, within.line_eq, line_eq] at earlier
      exact overlong_of_lt (Nat.le_trans q_le later) start_le earlier
  · left
    have offset_le : r.offset ≤ s.recorded.start := by
      rw [UInt64.le_iff_toNat_le, Scanned.recorded, toNat_offset small start_le]
      exact Nat.le_trans behind.offset_le later
    obtain ⟨next, accepted⟩ :=
      (r.exists_push_eq_ok_iff s.recorded).mpr ⟨UInt32.not_lt.mp earlier, offset_le⟩
    refine ⟨next, accepted, ?_⟩
    obtain ⟨_, bytes, rfl, _⟩ := push_eq_ok accepted
    rw [List.length_append, ← stands.stop_eq]
    exact ⟨⟨_, within.start_le, within.line_eq⟩, Nat.le_of_eq (toNat_offset small within.stop_le)⟩

namespace Lexer.Runs

variable {lexer after : Lexer} {all : List Scanned}

theorem exists_last (runs : lexer.Runs all after) :
    ∃ front last, all = front ++ [last] ∧ (∀ s ∈ front, s.token.kind ≠ .endOfSource) ∧
      last.token.kind = .endOfSource := by
  induction runs with
  | @last _ _ s finishes =>
    exact ⟨[], s, rfl, by simp, congrArg Token.kind finishes.token_eq⟩
  | @more _ _ _ s _ takes _ ih =>
    obtain ⟨front, last, rfl, inside, atEnd⟩ := ih
    refine ⟨s :: front, last, rfl, ?_, atEnd⟩
    intro t membership
    rcases List.mem_cons.mp membership with rfl | membership
    · exact takes.kind_ne
    · exact inside t membership

/-- The tokens of a run lie in the source. -/
theorem within (runs : lexer.Runs all after) (reads : lexer.Reads file source passed) :
    ∀ s ∈ all, s.place.Within source := by
  induction runs generalizing passed with
  | last finishes =>
    obtain ⟨skipped, taken, stands, _, later⟩ := finishes.reads reads
    simpa using stands.within ⟨_, later.source_eq.symm⟩
  | more takes _ ih =>
    obtain ⟨skipped, taken, stands, _, later⟩ := takes.reads reads
    exact List.forall_mem_cons.mpr ⟨stands.within ⟨_, later.source_eq.symm⟩, ih later⟩

/-- A recording that ends where a run starts takes all tokens of the run unless the source is
overlong. -/
theorem pushAll_cases (runs : lexer.Runs all after) (small : source.length < UInt64.size)
    (reads : lexer.Reads file source passed) {r : Recording}
    (behind : r.Behind source passed.length) :
    (∃ final, r.pushAll (all.map Scanned.recorded) = .ok final) ∨
      r.pushAll (all.map Scanned.recorded) = .error .earlierLine ∧ Overlong source := by
  -- A run goes on from where its first token ends, and so does the recording with that token.
  induction runs generalizing passed r with
  | last finishes =>
    obtain ⟨skipped, taken, stands, _, later⟩ := finishes.reads reads
    have within := stands.within ⟨_, later.source_eq.symm⟩
    rw [List.map_cons, List.map_nil, Recording.pushAll, List.foldlM_cons]
    rcases behind.push small stands within with ⟨next, accepted, _⟩ | ⟨refused, overlong⟩
    · rw [accepted]
      exact .inl ⟨next, rfl⟩
    · rw [refused]
      exact .inr ⟨rfl, overlong⟩
  | more takes _ ih =>
    obtain ⟨skipped, taken, stands, _, later⟩ := takes.reads reads
    have within := stands.within ⟨_, later.source_eq.symm⟩
    rw [List.map_cons, Recording.pushAll, List.foldlM_cons]
    rcases behind.push small stands within with ⟨next, accepted, behind'⟩ | ⟨refused, overlong⟩
    · rw [accepted]
      exact ih later behind'
    · rw [refused]
      exact .inr ⟨rfl, overlong⟩

end Lexer.Runs

/-- Replaying a recording of tokens that end with the end of the source gives them back. -/
theorem Recording.run_replay {line : UInt32} {offset : UInt64} {final : Recording}
    {front : List RecordedToken} {last : RecordedToken}
    (pushed : (ofOrigin line offset).pushAll (front ++ [last]) = .ok final)
    (inside : ∀ t ∈ front, t.kind ≠ .endOfSource) (atEnd : last.kind = .endOfSource) :
    final.replay.run = .ok (front ++ [last]).toArray := by
  obtain ⟨bytes, extended⟩ := exists_extends pushed
  have replay_eq : final.replay = ⟨bytes, line, offset, offset⟩ := by
    rw [replay, Replay.ofItems, extended.originLine_eq, extended.originOffset_eq, extended.items_eq]
    rfl
  have answers_eq : (⟨bytes, line, offset, offset⟩ : Replay).answers (front.length + 1) =
      (front ++ [last]).map .ok := by
    have answered := extended.answers_eq offset 0
    rw [List.length_append, List.length_singleton, List.replicate_zero, List.append_nil] at answered
    exact answered
  rw [Replay.run, replay_eq, Replay.runFrom_of_answers inside atEnd answers_eq, Array.empty_append]

/-- A source can be recorded unless it is overlong. -/
theorem Lexer.recording_cases (file : UInt32) (small : source.length < UInt64.size) :
    let all := (ofSource file source).run.1
    (∀ s ∈ all, s.place.Within source) ∧
      ((∃ recording, (Recording.ofOrigin 1 0).pushAll (all.toList.map Scanned.recorded) =
            .ok recording ∧
          recording.replay.run = .ok (all.map Scanned.recorded)) ∨
        (Recording.ofOrigin 1 0).pushAll (all.toList.map Scanned.recorded) = .error .earlierLine ∧
          Overlong source) := by
  intro all
  have runs := (ofSource file source).run_runs
  have behind : (Recording.ofOrigin 1 0).Behind source ([] : Bytes).length :=
    ⟨⟨0, Nat.le_refl 0, rfl⟩, Nat.le_refl 0⟩
  have reads := reads_ofSource file source
  refine ⟨fun s membership => runs.within reads s membership.val,
    (runs.pushAll_cases small reads behind).imp_left ?_⟩
  rintro ⟨recording, pushed⟩
  obtain ⟨front, last, all_eq, notEnd, atEnd⟩ := runs.exists_last
  refine ⟨recording, pushed, ?_⟩
  rw [all_eq, List.map_append, List.map_singleton] at pushed
  rw [Recording.run_replay pushed (by simpa [Scanned.recorded] using notEnd) atEnd,
    ← List.map_singleton, ← List.map_append, ← all_eq, ← List.map_toArray]

/-- A short source can always be recorded. -/
theorem Lexer.exists_recording (file : UInt32) (short : source.length < UInt32.size - 1) :
    let all := (ofSource file source).run.1
    (∀ s ∈ all, s.place.Within source) ∧
      ∃ recording, (Recording.ofOrigin 1 0).pushAll (all.toList.map Scanned.recorded) =
          .ok recording ∧
        recording.replay.run = .ok (all.map Scanned.recorded) := by
  intro all
  obtain ⟨inside, recorded⟩ := recording_cases file (lt_size_of_short short)
  exact ⟨inside, recorded.resolve_right fun refused => not_overlong short refused.2⟩

theorem Session.absorbAll_cons (session : Session) (s : Scanned) (all : List Scanned) :
    session.absorbAll (s :: all).toArray = (session.absorb s).1.absorbAll all.toArray := by
  simp [absorbAll]

namespace Lexer.Runs

variable {lexer after : Lexer} {all : List Scanned} {r : Recording}

/-- Tokens that are recorded one after another between steps are recorded as they are all at once, and
if none is refused the session is left as it is left without a recording. -/
theorem recordFrom_spec (runs : lexer.Runs all after) (session : Session) :
    (session.recordFrom lexer r).2 = r.pushAll (all.map Scanned.recorded) ∧
      ∀ final, r.pushAll (all.map Scanned.recorded) = .ok final →
        (session.recordFrom lexer r).1 = session.absorbAll all.toArray := by
  induction runs generalizing r session with
  | @last lexer after s finishes =>
    rw [Session.recordFrom, finishes.next_eq, List.map_singleton, Recording.pushAll, List.foldlM_cons]
    dsimp only
    cases r.push s.recorded with
    | error => exact ⟨rfl, fun _ pushed => by cases pushed⟩
    | ok next =>
      dsimp only
      rw [dif_pos finishes.token_eq]
      exact ⟨rfl, fun _ _ => rfl⟩
  | @more lexer middle after s all takes _ ih =>
    have goesOn : s.token ≠ .symbol .endOfSource :=
      fun atEnd => takes.kind_ne (congrArg Token.kind atEnd)
    rw [Session.recordFrom, takes.next_eq, List.map_cons, Recording.pushAll, List.foldlM_cons]
    dsimp only
    cases r.push s.recorded with
    | error => exact ⟨rfl, fun _ pushed => by cases pushed⟩
    | ok next =>
      dsimp only
      rw [dif_neg goesOn, Session.absorbAll_cons]
      exact ih (r := next) (session.absorb s).1

theorem recordFrom_eq (runs : lexer.Runs all after) {final : Recording}
    (pushed : r.pushAll (all.map Scanned.recorded) = .ok final) (session : Session) :
    session.recordFrom lexer r = (session.absorbAll all.toArray, .ok final) := by
  obtain ⟨recorded, absorbed⟩ := runs.recordFrom_spec (r := r) session
  exact Prod.ext (absorbed final pushed) (recorded.trans pushed)

end Lexer.Runs

/-- The row that a dump gives a token. Behind a recording the text stands for the value. -/
def Row.ofToken (memoize : Bool) (s : Scanned) : Row :=
  if memoize then { ofScanned s with value := Printable.ofBytes s.place.text } else ofScanned s

/-- The rows of the recorded tokens of a source are those of the tokens but for the values. -/
theorem Dump.map_ofRecorded (small : source.length < UInt64.size) {all : List Scanned}
    (inside : ∀ s ∈ all, s.place.Within source) :
    (all.map Scanned.recorded).map (Row.ofRecorded source.toArray) = all.map (Row.ofToken true) := by
  rw [List.map_map]
  apply List.map_congr_left
  intro s membership
  exact Row.ofRecorded_recorded small (inside s membership)

/-- A dump leaves the session that has absorbed the whole run, with or without a recording. -/
theorem Session.dump_eq (session : Session) (options : DumpOptions) (path : Bytes) (file : UInt32)
    (short : source.length < UInt32.size - 1) :
    let all := (Lexer.ofSource file source).run.1
    session.dump options path source file = (session.absorbAll all,
      .ok (Table.render options.trace path (all.toList.map (Row.ofToken options.memoize)))) := by
  intro all
  rw [dump]
  cases options.memoize with
  | false => rfl
  | true =>
    obtain ⟨inside, recording, pushed, replayed⟩ := Lexer.exists_recording file short
    have recorded := (Lexer.ofSource file source).run_runs.recordFrom_eq pushed session
    have rows_eq := Dump.map_ofRecorded (lt_size_of_short short)
      (show ∀ s ∈ all.toList, s.place.Within source from
        fun s membership => inside s (Array.mem_toList_iff.mp membership))
    rw [if_pos rfl, recorded]
    simp only [Except.bind, Dump.replayedRows, bind, replayed, pure, Except.pure, Except.map,
      Array.toList_map, Array.toArray_toList]
    rw [rows_eq]

end AssemblyLexer
