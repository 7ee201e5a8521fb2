import AssemblyLexer.Input.Cursor

/-!
Scans byte by byte, and histories of readers and cursors. A number is read through one table
for all bases. The byte that does not go on with the number has been read by then and is given
back.
-/

set_option autoImplicit false

namespace AssemblyLexer

/-- A digit of another base than that of the table counts as a letter. -/
def NumberSymbol.within (base : Nat) : NumberSymbol → NumberSymbol
  | digit value => if value < base then digit value else letter
  | symbol => symbol

namespace ByteTable

/-- The digit at each place of a list of bytes. -/
def assignDigits (t : ByteTable (Option NumberSymbol)) (first : Nat) (bytes : Bytes) :
    ByteTable (Option NumberSymbol) :=
  (bytes.zipIdx first).foldl (fun t (b, value) => t.assignEach [b] (some (.digit value))) t

/-- What bytes mean in a number, with digits up to those of base sixteen. The end of the input has no
meaning. -/
def number : ByteTable (Option NumberSymbol) :=
  let letters := ((uniform (some .outside) (some .letter) none).assignRange 0x47 0x5A
    (some .letter)).assignRange 0x67 0x7A (some .letter)
  let digits := ((letters.assignDigits 0
    [0x30, 0x31, 0x32, 0x33, 0x34, 0x35, 0x36, 0x37, 0x38, 0x39]).assignDigits 10
    [0x41, 0x42, 0x43, 0x44, 0x45, 0x46]).assignDigits 10 [0x61, 0x62, 0x63, 0x64, 0x65, 0x66]
  ((((digits.assignEach [0x50, 0x70] (some .exponent)).assignEach [Byte.underscore]
    (some .separator)).assignEach [Byte.dot] (some .point)).assignEach [Byte.plus]
    (some .plus)).assignEach [Byte.minus] (some .minus)

end ByteTable

namespace Reader

/-- From one reader to another by reading the byte that comes next. -/
structure Reads (r : Reader) (b : Byte) (after : Reader) : Prop where
  remaining_eq : r.remaining = b :: after.remaining
  buffer_eq : after.buffer = r.buffer
  position_eq : after.position = r.position + 1
  canUnread_eq : after.canUnread = true

/-- A byte is read as long as there is one, and with it the choice of taking it back. -/
theorem next_cases {Class : Type} (table : ByteTable Class) (r : Reader) :
    (∃ b, (r.next table).1 = ⟨table.classify b, b⟩ ∧ r.Reads b (r.next table).2) ∨
      r.remaining = [] ∧
        r.next table = (⟨table.endOfInput, 0⟩, { r with canUnread := false }) := by
  rw [next]
  split
  · next atEnd => exact .inr ⟨atEnd, rfl⟩
  · next b rest inside =>
    have rest_eq : rest = r.buffer.bytes.drop (r.position + 1) := by
      rw [← List.tail_drop]
      exact (congrArg List.tail inside).symm
    exact .inl ⟨b, rfl, inside.trans (congrArg (b :: ·) rest_eq), rfl, rfl, rfl⟩

theorem length_remaining_next_lt {r : Reader} {symbol : NumberSymbol}
    (read : (r.next ByteTable.number).1.byteClass = some symbol) :
    (r.next ByteTable.number).2.remaining.length < r.remaining.length := by
  rcases r.next_cases ByteTable.number with ⟨b, -, reads⟩ | ⟨-, next_eq⟩
  · rw [reads.remaining_eq]
    exact Nat.lt_succ_self _
  · rw [next_eq] at read
    cases read

end Reader

/-- Where a scan has stopped. -/
structure ScanStop (State : Type) where
  state : State
  /-- What was read last. -/
  last : ClassifiedByte (Option NumberSymbol)
  reader : Reader

/-- Read on for as long as symbols take the state further. -/
def Reader.scanWhile {State : Type} (step? : State → NumberSymbol → Option State) (s : State)
    (r : Reader) : ScanStop State :=
  match _ : (r.next ByteTable.number).1.byteClass with
  | none => ⟨s, (r.next ByteTable.number).1, (r.next ByteTable.number).2⟩
  | some symbol =>
    match step? s symbol with
    | some further => scanWhile step? further (r.next ByteTable.number).2
    | none => ⟨s, (r.next ByteTable.number).1, (r.next ByteTable.number).2.unread⟩
termination_by r.remaining.length
decreasing_by exact length_remaining_next_lt ‹_›

/-- What a symbol is to a run of digits. -/
def DigitProgress.take? (radix : Radix) (p : DigitProgress) : NumberSymbol → Option DigitProgress
  | .digit value =>
    if value < radix.value then some ⟨p.total.push radix.value value, p.count + 1⟩ else none
  | .separator => some p
  | _ => none

/-- What a symbol is to a literal, whose exponent has decimal digits. -/
def NumberProgress.takeWithin? (radix : Radix) (p : NumberProgress) (symbol : NumberSymbol) :
    Option NumberProgress :=
  let base := if p.phase.inExponent then 10 else radix.value
  p.take? base (symbol.within base)

namespace Reader

def readDigits (r : Reader) (radix : Radix) : ScanStop DigitProgress :=
  r.scanWhile (DigitProgress.take? radix) .initial

def readNumber (r : Reader) (radix : Radix) : ScanStop NumberProgress :=
  r.scanWhile (NumberProgress.takeWithin? radix) .initial

end Reader

/-- What can be done with a reader. -/
inductive ReaderOperation : Type 1
  | next {Class : Type} (table : ByteTable Class)
  | unread
  | scanDigits (radix : Radix)
  | scanNumber (radix : Radix)

namespace Reader

def apply (r : Reader) : ReaderOperation → Reader
  | .next table => (r.next table).2
  | .unread => r.unread
  | .scanDigits radix => (r.readDigits radix).reader
  | .scanNumber radix => (r.readNumber radix).reader

def after (r : Reader) (history : List ReaderOperation) : Reader :=
  history.foldl apply r

end Reader

/-- What moves a cursor. -/
inductive CursorOperation
  | advance
  | advanceIf (b : Byte)
  | adopt (r : Reader)

namespace Cursor

/-- A cursor that cannot adopt a reader stays where it is. -/
def apply (c : Cursor) : CursorOperation → Cursor
  | .advance => c.advance
  | .advanceIf b => (c.advanceIf b).2
  | .adopt r =>
    match c.adopt r with
    | .ok moved => moved
    | .error _ => c

def after (c : Cursor) (history : List CursorOperation) : Cursor :=
  history.foldl apply c

end Cursor

end AssemblyLexer
