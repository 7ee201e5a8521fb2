import AssemblyLexer.Input.Stepwise
import AssemblyLexer.Proofs.DigitRun

/-!
Histories of readers and cursors. The choice of taking a byte back is there just behind a step
that has read one, and scans use it up for the byte that they stop at. So no reader gets behind
its start, and a cursor can always move to where a reader of its own has come.
-/

set_option autoImplicit false

namespace AssemblyLexer

theorem ByteTable.classify_number (b : Byte) :
    ByteTable.number.classify b = some (NumberSymbol.ofByte 16 b) := by
  revert b
  exact Byte.forall_of_fin (by decide +kernel)

theorem NumberSymbol.ofByte_within {base : Nat} (b : Byte) :
    (NumberSymbol.ofByte 16 b).within base = NumberSymbol.ofByte base b := by
  cases digit : b.digitValue? with
  | some value =>
    have small := Byte.digitValue?_lt digit
    simp [NumberSymbol.ofByte, digit, small, NumberSymbol.within]
  | none =>
    simp only [NumberSymbol.ofByte, digit]
    split_ifs <;> rfl

theorem DigitProgress.take?_ofByte (radix : Radix) (p : DigitProgress) (b : Byte) :
    p.take? radix (.ofByte 16 b) = p.step? radix b := by
  cases digit : b.digitValue? with
  | some value =>
    have small := Byte.digitValue?_lt digit
    have other : b ≠ Byte.underscore := by
      rintro rfl
      cases digit
    by_cases inBase : value < radix.value
    · simp [step?, Radix.digit?, Option.filter, take?, NumberSymbol.ofByte, digit, small, inBase]
    · simp [step?, Radix.digit?, Option.filter, take?, NumberSymbol.ofByte, digit, small, inBase, other]
  | none =>
    have noDigit : radix.digit? b = none := by rw [Radix.digit?, digit, Option.filter_none]
    by_cases isUnderscore : b = Byte.underscore
    · subst isUnderscore
      rfl
    · rw [step?, noDigit]
      simp only [NumberSymbol.ofByte, digit, beq_iff_eq, isUnderscore, if_false]
      split_ifs <;> rfl

namespace Reader

variable {State : Type} {step? : State → NumberSymbol → Option State} {s further : State}
  {r later : Reader} {b : Byte} {rest : Bytes}

theorem eq_of_fields {r r' : Reader} (buffer_eq : r.buffer = r'.buffer)
    (position_eq : r.position = r'.position) (canUnread_eq : r.canUnread = r'.canUnread) :
    r = r' := by
  cases r
  cases r'
  simp_all

theorem next_of_remaining_eq_nil {Class : Type} (table : ByteTable Class)
    (atEnd : r.remaining = []) :
    r.next table = (⟨table.endOfInput, 0⟩, { r with canUnread := false }) := by
  rcases r.next_cases table with ⟨b, -, reads⟩ | ⟨-, next_eq⟩
  · rw [reads.remaining_eq] at atEnd
    cases atEnd
  · exact next_eq

theorem next_of_remaining_eq_cons {Class : Type} (table : ByteTable Class)
    (inside : r.remaining = b :: rest) :
    (r.next table).1 = ⟨table.classify b, b⟩ ∧ r.Reads b (r.next table).2 ∧
      (r.next table).2.remaining = rest := by
  rcases r.next_cases table with ⟨b', read, reads⟩ | ⟨atEnd, -⟩
  · obtain ⟨rfl, rest_eq⟩ := List.cons.inj (inside.symm.trans reads.remaining_eq)
    exact ⟨read, reads, rest_eq.symm⟩
  · rw [inside] at atEnd
    cases atEnd

theorem Reads.unread_eq (reads : r.Reads b later) :
    later.unread = { r with canUnread := false } := by
  rw [unread, if_pos reads.canUnread_eq]
  apply eq_of_fields
  · exact reads.buffer_eq
  · dsimp only
    rw [reads.position_eq, Nat.add_sub_cancel]
  · rfl

theorem scanWhile_of_atEnd (atEnd : r.remaining = []) :
    r.scanWhile step? s = ⟨s, ⟨none, 0⟩, { r with canUnread := false }⟩ := by
  rw [scanWhile]
  split
  · rw [next_of_remaining_eq_nil _ atEnd]
    rfl
  · next read =>
    rw [next_of_remaining_eq_nil _ atEnd] at read
    cases read

theorem scanWhile_of_step (inside : r.remaining = b :: rest)
    (step : step? s (.ofByte 16 b) = some further) :
    r.scanWhile step? s = (r.next ByteTable.number).2.scanWhile step? further := by
  obtain ⟨read, -⟩ := next_of_remaining_eq_cons ByteTable.number inside
  rw [ByteTable.classify_number] at read
  rw [scanWhile]
  split
  · next atEnd =>
    rw [read] at atEnd
    cases atEnd
  · next symbol isSymbol =>
    rw [read] at isSymbol
    cases isSymbol
    simp only [step]

theorem scanWhile_of_refused (inside : r.remaining = b :: rest)
    (refused : step? s (.ofByte 16 b) = none) :
    r.scanWhile step? s = ⟨s, ⟨some (.ofByte 16 b), b⟩, { r with canUnread := false }⟩ := by
  obtain ⟨read, reads, -⟩ := next_of_remaining_eq_cons ByteTable.number inside
  rw [ByteTable.classify_number] at read
  rw [scanWhile]
  split
  · next atEnd =>
    rw [read] at atEnd
    cases atEnd
  · next symbol isSymbol =>
    rw [read] at isSymbol
    cases isSymbol
    simp only [refused, reads.unread_eq, read]

/-- A scan has gone on from a reader, and what it read last is what comes next. -/
structure StopsAt (r : Reader) (step? : State → NumberSymbol → Option State)
    (stop : ScanStop State) : Prop where
  buffer_eq : stop.reader.buffer = r.buffer
  position_le : r.position ≤ stop.reader.position
  canUnread_eq : stop.reader.canUnread = false
  last_cases : stop.last = ⟨none, 0⟩ ∧ stop.reader.remaining = [] ∨
    ∃ b rest, stop.last = ⟨some (.ofByte 16 b), b⟩ ∧ stop.reader.remaining = b :: rest ∧
      step? stop.state (.ofByte 16 b) = none

theorem StopsAt.reader_eq {stop : ScanStop State} (stops : r.StopsAt step? stop) :
    stop.reader = r.pass (stop.reader.position - r.position) := by
  have position_le := stops.position_le
  have within := stop.reader.position_le
  rw [stops.buffer_eq] at within
  apply eq_of_fields
  · exact stops.buffer_eq
  · dsimp only [pass]
    omega
  · exact stops.canUnread_eq

theorem stopsAt_scanWhile (step? : State → NumberSymbol → Option State) (s : State) (r : Reader) :
    r.StopsAt step? (r.scanWhile step? s) := by
  generalize isRemaining : r.remaining = bytes
  induction bytes generalizing r s with
  | nil =>
    rw [scanWhile_of_atEnd isRemaining]
    exact ⟨rfl, Nat.le_refl _, rfl, .inl ⟨rfl, isRemaining⟩⟩
  | cons b rest ih =>
    cases step : step? s (.ofByte 16 b) with
    | none =>
      rw [scanWhile_of_refused isRemaining step]
      exact ⟨rfl, Nat.le_refl _, rfl, .inr ⟨b, rest, rfl, isRemaining, step⟩⟩
    | some further =>
      obtain ⟨-, reads, rest_eq⟩ := next_of_remaining_eq_cons ByteTable.number isRemaining
      obtain ⟨buffer_eq, position_le, canUnread_eq, last_cases⟩ := ih further _ rest_eq
      rw [scanWhile_of_step isRemaining step]
      refine ⟨buffer_eq.trans reads.buffer_eq, ?_, canUnread_eq, last_cases⟩
      have position_eq := reads.position_eq
      omega

/-- A run over bytes takes the same steps as a scan. -/
structure RunsBy (step? : State → NumberSymbol → Option State)
    (run : State → Nat → Bytes → State × Nat) : Prop where
  run_nil : ∀ s taken, run s taken [] = (s, taken)
  run_cons : ∀ s taken b rest, run s taken (b :: rest) =
    match step? s (.ofByte 16 b) with
    | some further => run further (taken + 1) rest
    | none => (s, taken)

theorem RunsBy.run_eq {run : State → Nat → Bytes → State × Nat} (runs : RunsBy step? run)
    (s : State) (taken : Nat) (r : Reader) :
    run s taken r.remaining = ((r.scanWhile step? s).state,
      taken + ((r.scanWhile step? s).reader.position - r.position)) := by
  generalize isRemaining : r.remaining = bytes
  induction bytes generalizing r s taken with
  | nil =>
    rw [scanWhile_of_atEnd isRemaining, runs.run_nil]
    simp
  | cons b rest ih =>
    rw [runs.run_cons]
    cases step : step? s (.ofByte 16 b) with
    | none =>
      rw [scanWhile_of_refused isRemaining step]
      simp
    | some further =>
      obtain ⟨-, reads, rest_eq⟩ := next_of_remaining_eq_cons ByteTable.number isRemaining
      have stops := stopsAt_scanWhile step? further (r.next ByteTable.number).2
      have position_eq := reads.position_eq
      have position_le := stops.position_le
      rw [scanWhile_of_step isRemaining step]
      dsimp only
      rw [ih further (taken + 1) _ rest_eq]
      congr 1
      omega

theorem runsBy_digits (radix : Radix) :
    RunsBy (DigitProgress.take? radix) (DigitProgress.run radix) where
  run_nil _ _ := rfl
  run_cons p taken b rest := by
    rw [DigitProgress.take?_ofByte, DigitProgress.run]
    cases p.step? radix b <;> rfl

theorem runsBy_number (radix : Radix) :
    RunsBy (NumberProgress.takeWithin? radix) (NumberProgress.run radix) where
  run_nil _ _ := rfl
  run_cons p taken b rest := by
    have step_eq : p.step? radix b = p.takeWithin? radix (.ofByte 16 b) := by
      rw [NumberProgress.takeWithin?, NumberSymbol.ofByte_within]
      rfl
    rw [← step_eq, NumberProgress.run]
    cases p.step? radix b <;> rfl

/-- Reading digits byte by byte gives the run that stands there and leaves the reader behind it. -/
theorem readDigits_eq (r : Reader) (radix : Radix) :
    let stop := r.readDigits radix
    r.scanDigits radix = (stop.state.result (stop.reader.position - r.position), stop.reader) := by
  intro stop
  have run_eq := (runsBy_digits radix).run_eq .initial 0 r
  rw [Nat.zero_add] at run_eq
  have reader_eq := (stopsAt_scanWhile (DigitProgress.take? radix) .initial r).reader_eq
  rw [scanDigits, DigitRun.scan_eq_result, run_eq]
  exact congrArg (Prod.mk _) reader_eq.symm

theorem readNumber_eq (r : Reader) (radix : Radix) :
    let stop := r.readNumber radix
    r.scanNumber radix =
      (⟨stop.state.status, stop.state.literal radix, stop.reader.position - r.position⟩,
        stop.reader) := by
  intro stop
  have run_eq := (runsBy_number radix).run_eq .initial 0 r
  rw [Nat.zero_add] at run_eq
  have reader_eq := (stopsAt_scanWhile (NumberProgress.takeWithin? radix) .initial r).reader_eq
  rw [scanNumber, NumberScan.scan, run_eq]
  exact congrArg (Prod.mk _) reader_eq.symm

/-- The last step of a history has read a byte. -/
def EndsInByte (start : Reader) (history : List ReaderOperation) : Prop :=
  ∃ (before : List ReaderOperation) (Class : Type) (table : ByteTable Class),
    history = before ++ [.next table] ∧ (start.after before).remaining ≠ []

@[simp]
theorem after_append_singleton (r : Reader) (history : List ReaderOperation)
    (operation : ReaderOperation) :
    r.after (history ++ [operation]) = (r.after history).apply operation := by
  simp [Reader.after]

theorem canUnread_unread (r : Reader) : r.unread.canUnread = false := by
  rw [unread]
  split
  · rfl
  · next idle => simpa using idle

theorem canUnread_apply_iff (r : Reader) (operation : ReaderOperation) :
    (r.apply operation).canUnread ↔
      ∃ (Class : Type) (table : ByteTable Class), operation = .next table ∧ r.remaining ≠ [] := by
  cases operation with
  | next table =>
    rcases r.next_cases table with ⟨b, -, reads⟩ | ⟨atEnd, next_eq⟩
    · refine iff_of_true reads.canUnread_eq ⟨_, table, rfl, ?_⟩
      rw [reads.remaining_eq]
      exact List.cons_ne_nil _ _
    · refine iff_of_false ?_ fun ⟨_, _, _, inside⟩ => inside atEnd
      rw [apply, next_eq]
      exact Bool.false_ne_true
  | unread =>
    refine iff_of_false ?_ nofun
    rw [apply, canUnread_unread]
    exact Bool.false_ne_true
  | scanDigits radix =>
    refine iff_of_false ?_ nofun
    rw [apply, readDigits, (stopsAt_scanWhile _ _ r).canUnread_eq]
    exact Bool.false_ne_true
  | scanNumber radix =>
    refine iff_of_false ?_ nofun
    rw [apply, readNumber, (stopsAt_scanWhile _ _ r).canUnread_eq]
    exact Bool.false_ne_true

theorem canUnread_after_iff {start : Reader} (fresh : start.canUnread = false)
    (history : List ReaderOperation) :
    (start.after history).canUnread ↔ start.EndsInByte history := by
  rcases List.eq_nil_or_concat history with rfl | ⟨before, operation, rfl⟩
  · refine iff_of_false (by simp [Reader.after, fresh]) ?_
    rintro ⟨before, _, table, nothing, -⟩
    simp at nothing
  · rw [List.concat_eq_append, after_append_singleton, canUnread_apply_iff]
    constructor
    · rintro ⟨_, table, rfl, inside⟩
      exact ⟨before, _, table, rfl, inside⟩
    · rintro ⟨before', _, table, split, inside⟩
      obtain ⟨rfl, last_eq⟩ := List.append_inj' split rfl
      exact ⟨_, table, List.singleton_inj.mp last_eq, inside⟩

/-- One reader has come from another, and stands behind it when it can take a byte back. -/
structure Onward (start r : Reader) : Prop where
  buffer_eq : r.buffer = start.buffer
  position_le : start.position ≤ r.position
  position_lt : r.canUnread → start.position < r.position

variable {start : Reader}

theorem onward_refl (fresh : start.canUnread = false) : start.Onward start :=
  ⟨rfl, Nat.le_refl _, by simp [fresh]⟩

theorem Onward.position_le_unread (onward : start.Onward r) :
    start.position ≤ r.unread.position := by
  rw [unread]
  split
  · next canUnread => exact Nat.le_sub_one_of_lt (onward.position_lt canUnread)
  · exact onward.position_le

theorem Onward.stop (onward : start.Onward r) {stop : ScanStop State}
    (stops : r.StopsAt step? stop) : start.Onward stop.reader :=
  ⟨stops.buffer_eq.trans onward.buffer_eq, Nat.le_trans onward.position_le stops.position_le,
    by simp [stops.canUnread_eq]⟩

theorem Onward.apply (onward : start.Onward r) (operation : ReaderOperation) :
    start.Onward (r.apply operation) := by
  cases operation with
  | next table =>
    rcases r.next_cases table with ⟨b, -, reads⟩ | ⟨-, next_eq⟩
    · have position_le := onward.position_le
      have position_eq := reads.position_eq
      refine ⟨reads.buffer_eq.trans onward.buffer_eq, ?_, fun _ => ?_⟩
      · exact Nat.le_trans position_le (Nat.le_of_lt (Nat.lt_of_succ_le (Nat.le_of_eq position_eq.symm)))
      · exact Nat.lt_of_le_of_lt position_le (Nat.lt_of_succ_le (Nat.le_of_eq position_eq.symm))
    · rw [Reader.apply, next_eq]
      refine ⟨onward.buffer_eq, onward.position_le, ?_⟩
      intro canUnread
      cases canUnread
  | unread =>
    refine ⟨?_, onward.position_le_unread, ?_⟩
    · rw [← onward.buffer_eq, Reader.apply, unread]
      split <;> rfl
    · rw [Reader.apply, canUnread_unread]
      intro canUnread
      cases canUnread
  | scanDigits radix => exact onward.stop (stopsAt_scanWhile _ _ r)
  | scanNumber radix => exact onward.stop (stopsAt_scanWhile _ _ r)

theorem Onward.after (onward : start.Onward r) (history : List ReaderOperation) :
    start.Onward (r.after history) := by
  induction history generalizing r with
  | nil => exact onward
  | cons operation later ih => exact ih (onward.apply operation)

/-- What comes behind a scan is the byte that it stopped at, unless it came to the end. -/
structure ReturnsLast (step? : State → NumberSymbol → Option State) (stop : ScanStop State) :
    Prop where
  atEnd_iff : stop.last.byteClass = none ↔ stop.reader.remaining = []
  refused : ∀ symbol ∈ stop.last.byteClass, step? stop.state symbol = none
  next_eq : stop.last.byteClass ≠ none → ∀ {Class : Type} (table : ByteTable Class),
    (stop.reader.next table).1 = ⟨table.classify stop.last.byte, stop.last.byte⟩

theorem StopsAt.returnsLast {stop : ScanStop State} (stops : r.StopsAt step? stop) :
    ReturnsLast step? stop := by
  rcases stops.last_cases with ⟨last_eq, atEnd⟩ | ⟨b, rest, last_eq, inside, refused⟩
  · exact ⟨by simp [last_eq, atEnd], by simp [last_eq], by simp [last_eq]⟩
  · refine ⟨by simp [last_eq, inside], by simpa [last_eq] using refused, ?_⟩
    intro _ _ table
    rw [last_eq]
    exact (next_of_remaining_eq_cons table inside).1

/-- What holds of a reader behind a history. -/
structure Disciplined (start : Reader) (history : List ReaderOperation) (r : Reader) : Prop where
  buffer_eq : r.buffer = start.buffer
  position_le : start.position ≤ r.position ∧ r.position ≤ start.buffer.size
  split : ∃ before, r.preceding r.position = .ok before ∧
    before ++ r.remaining = start.buffer.bytes
  /-- A byte is taken back just behind the step that has read it. -/
  unread_iff : r.unread.position + 1 = r.position ↔ start.EndsInByte history
  unread_eq : ¬start.EndsInByte history → r.unread = r
  position_le_unread : start.position ≤ r.unread.position
  readDigits : ∀ radix, ReturnsLast (DigitProgress.take? radix) (r.readDigits radix) ∧
    (r.scanDigits radix).2 = (r.readDigits radix).reader
  readNumber : ∀ radix, ReturnsLast (NumberProgress.takeWithin? radix) (r.readNumber radix) ∧
    (r.scanNumber radix).2 = (r.readNumber radix).reader

theorem disciplined_after (fresh : start.canUnread = false) (history : List ReaderOperation) :
    start.Disciplined history (start.after history) := by
  have onward := (onward_refl fresh).after history
  have canUnread_iff := canUnread_after_iff fresh history
  generalize start.after history = r at onward canUnread_iff
  have unread_of_idle : ¬start.EndsInByte history → r.unread = r := by
    intro idle
    rw [unread, if_neg (canUnread_iff.not.mpr idle)]
  refine ⟨onward.buffer_eq, ⟨onward.position_le, onward.buffer_eq ▸ r.position_le⟩,
    ⟨r.buffer.bytes.take r.position, ?_, ?_⟩, ⟨?_, ?_⟩, unread_of_idle, onward.position_le_unread,
    fun radix => ⟨(stopsAt_scanWhile _ _ r).returnsLast, congrArg Prod.snd (r.readDigits_eq radix)⟩,
    fun radix => ⟨(stopsAt_scanWhile _ _ r).returnsLast, congrArg Prod.snd (r.readNumber_eq radix)⟩⟩
  · simp [preceding]
  · rw [remaining, List.take_append_drop, onward.buffer_eq]
  · intro back
    by_contra idle
    rw [unread_of_idle idle] at back
    omega
  · intro endsInByte
    have position_lt := onward.position_lt (canUnread_iff.mpr endsInByte)
    rw [unread, if_pos (canUnread_iff.mpr endsInByte)]
    exact Nat.sub_add_cancel (Nat.one_le_of_lt position_lt)

end Reader

namespace Cursor

variable {c : Cursor} {r : Reader}

theorem adopt_eq_error_iff :
    (∃ error, c.adopt r = .error error) ↔ r.buffer ≠ c.buffer ∨ r.position < c.position := by
  rw [adopt]
  split
  · next same =>
    split
    · next behind => simp [behind]
    · next ahead => simp [same, ahead]
  · next differs => simp [differs]

theorem adopt_eq_ok (same : r.buffer = c.buffer) (ahead : c.position ≤ r.position) :
    ∃ moved, c.adopt r = .ok moved ∧ moved.buffer = c.buffer ∧ moved.position = r.position := by
  rw [adopt, dif_pos same, if_neg (Nat.not_lt.mpr ahead)]
  exact ⟨_, rfl, rfl, rfl⟩

theorem apply_adopt_of_error {error : CursorError} (isError : c.adopt r = .error error) :
    c.apply (.adopt r) = c := by
  simp only [apply, isError]

theorem apply_onward (c : Cursor) (operation : CursorOperation) :
    (c.apply operation).buffer = c.buffer ∧ c.position ≤ (c.apply operation).position := by
  have advance_onward : c.advance.buffer = c.buffer ∧ c.position ≤ c.advance.position := by
    rw [advance]
    split
    · exact ⟨rfl, Nat.le_succ _⟩
    · exact ⟨rfl, Nat.le_refl _⟩
  cases operation with
  | advance => exact advance_onward
  | advanceIf b =>
    rw [apply, advanceIf]
    split
    · exact advance_onward
    · exact ⟨rfl, Nat.le_refl _⟩
  | adopt r =>
    by_cases refused : r.buffer ≠ c.buffer ∨ r.position < c.position
    · obtain ⟨error, isError⟩ := adopt_eq_error_iff.mpr refused
      rw [apply_adopt_of_error isError]
      exact ⟨rfl, Nat.le_refl _⟩
    · rw [not_or, not_not, Nat.not_lt] at refused
      obtain ⟨moved, isMoved, buffer_eq, position_eq⟩ := adopt_eq_ok refused.1 refused.2
      simp only [apply, isMoved]
      exact ⟨buffer_eq, position_eq ▸ refused.2⟩

theorem after_onward (c : Cursor) (history : List CursorOperation) :
    (c.after history).buffer = c.buffer ∧ c.position ≤ (c.after history).position := by
  induction history generalizing c with
  | nil => exact ⟨rfl, Nat.le_refl _⟩
  | cons operation later ih =>
    obtain ⟨buffer_eq, position_le⟩ := c.apply_onward operation
    obtain ⟨buffer_eq', position_le'⟩ := ih (c.apply operation)
    exact ⟨buffer_eq'.trans buffer_eq, Nat.le_trans position_le position_le'⟩

theorem onward_reader (c : Cursor) (operations : List ReaderOperation) :
    (c.reader.after operations).buffer = c.buffer ∧
      c.position ≤ (c.reader.after operations).position := by
  have fresh : c.reader.canUnread = false := rfl
  have onward := (Reader.onward_refl fresh).after operations
  have position_eq : c.reader.position = c.position := Nat.min_eq_left c.position_le
  exact ⟨onward.buffer_eq, position_eq ▸ onward.position_le⟩

/-- However a reader is used it stays between its start and the end of the buffer, and takes a byte
back just behind the step that read it. However a cursor is moved it never goes back; it refuses
a reader of another buffer or from behind it, and no reader of its own as long as it has not
moved. -/
theorem histories_disciplined :
    (∀ (buffer : Buffer) (position : Nat) (history : List ReaderOperation),
      let start := Reader.ofBuffer buffer position
      start.buffer = buffer ∧ start.position = min position buffer.size ∧
        start.Disciplined history (start.after history)) ∧
      ∀ (buffer : Buffer) (history : List CursorOperation),
        let c := (Cursor.ofBuffer buffer).after history
        c.buffer = buffer ∧ c.position ≤ buffer.size ∧
          (∀ r : Reader,
            ((∃ error, c.adopt r = .error error) ↔ r.buffer ≠ buffer ∨ r.position < c.position) ∧
              (∀ error, c.adopt r = .error error → c.apply (.adopt r) = c) ∧
              ∀ moved, c.adopt r = .ok moved →
                moved.buffer = buffer ∧ moved.position = r.position) ∧
          ∀ further : List CursorOperation, c.position ≤ (c.after further).position ∧
            ((c.after further).position = c.position → ∀ operations : List ReaderOperation,
              ∃ moved, (c.after further).adopt (c.reader.after operations) = .ok moved ∧
                moved.position = (c.reader.after operations).position) := by
  refine ⟨fun buffer position history => ⟨rfl, rfl, Reader.disciplined_after rfl history⟩, ?_⟩
  intro buffer history c
  obtain ⟨buffer_eq, -⟩ := (Cursor.ofBuffer buffer).after_onward history
  replace buffer_eq : c.buffer = buffer := buffer_eq
  refine ⟨buffer_eq, buffer_eq ▸ c.position_le, ?_, ?_⟩
  · intro r
    refine ⟨buffer_eq ▸ adopt_eq_error_iff, fun error => apply_adopt_of_error, ?_⟩
    intro moved isMoved
    have allowed : ¬(r.buffer ≠ c.buffer ∨ r.position < c.position) := by
      rw [← adopt_eq_error_iff, isMoved]
      nofun
    rw [not_or, not_not, Nat.not_lt] at allowed
    obtain ⟨moved', isMoved', buffer_eq', position_eq⟩ := adopt_eq_ok allowed.1 allowed.2
    obtain rfl := Except.ok.inj (isMoved.symm.trans isMoved')
    exact ⟨buffer_eq'.trans buffer_eq, position_eq⟩
  · intro further
    obtain ⟨same, position_le⟩ := c.after_onward further
    refine ⟨position_le, ?_⟩
    intro unmoved operations
    obtain ⟨buffer_eq', ahead⟩ := c.onward_reader operations
    obtain ⟨moved, isMoved, -, position_eq⟩ :=
      adopt_eq_ok (buffer_eq'.trans same.symm) (unmoved ▸ ahead)
    exact ⟨moved, isMoved, position_eq⟩

/-- A number is read behind the cursor up to the sign, while the cursor is asked for what it does not
have under it and for a reader of another buffer. -/
theorem histories_disciplined_up_to_sign :
    let buffer : Buffer := ⟨0, Utf8.ofString "x12+3"⟩
    let c := (Cursor.ofBuffer buffer).after [.advance]
    let further : List CursorOperation :=
      [.advanceIf Byte.plus, .adopt (Reader.ofBuffer ⟨1, buffer.bytes⟩ 4)]
    let operations : List ReaderOperation :=
      [.next ByteTable.number, .unread, .scanNumber .decimal, .unread]
    let stop := (Reader.ofBuffer buffer 1).readNumber .decimal
    (c.after further).position = c.position ∧
      (∃ moved, (c.after further).adopt (c.reader.after operations) = .ok moved ∧
        moved.position = 3) ∧
      stop.last.byteClass ≠ none ∧
      (stop.reader.next ByteTable.number).1.byte = Byte.plus := by
  intro buffer c further operations stop
  obtain ⟨readers, cursors⟩ := histories_disciplined
  obtain ⟨-, -, -, moves⟩ := cursors buffer [.advance]
  have unmoved : (c.after further).position = c.position := by decide +kernel
  obtain ⟨moved, isMoved, position_eq⟩ := (moves further).2 unmoved operations
  have position_eq' : (c.reader.after operations).position = 3 := by decide +kernel
  have inside : stop.last.byteClass ≠ none := by decide +kernel
  have next_eq := (((readers buffer 1 []).2.2.readNumber .decimal).1.next_eq inside) ByteTable.number
  have last_eq : stop.last.byte = Byte.plus := by decide +kernel
  exact ⟨unmoved, ⟨moved, isMoved, position_eq.trans position_eq'⟩, inside,
    (congrArg ClassifiedByte.byte next_eq).trans last_eq⟩

end Cursor

end AssemblyLexer
