import AssemblyLexer.Recording.Item

/-!
Recordings of token streams. A recording keeps the kind, line and span of each
token as the distance from the token before it, in as many one-byte items as the
distance needs.
-/

set_option autoImplicit false

namespace AssemblyLexer

/-- A token as a recording knows it. -/
structure RecordedToken where
  kind : TokenKind
  line : UInt32
  start : UInt64
  stop : UInt64
  deriving DecidableEq, Repr

structure Recording where
  originLine : UInt32
  originOffset : UInt64
  /-- The line of the last token. -/
  line : UInt32
  /-- The offset where the last token ends. -/
  offset : UInt64
  items : Array Byte

namespace Recording

def ofOrigin (line : UInt32) (offset : UInt64) : Recording :=
  ⟨line, offset, line, offset, #[]⟩

/-- The first pieces of a distance that is cut into pieces of the greatest length. -/
def pieces (count distance : Nat) : List Nat :=
  (List.range count).map fun i =>
    min RecordingItem.maxLength (distance - i * RecordingItem.maxLength)

/-- The number of pieces that leave at most one byte of a gap. -/
def gapPieces (gap : Nat) : Nat :=
  (gap + 29) / RecordingItem.maxLength

/-- The number of pieces that a length needs. -/
def lengthPieces (length : Nat) : Nat :=
  (length + 30) / RecordingItem.maxLength

/-- The items of a token that is some lines and a gap of bytes away from the token before it. A
skip for each line takes bytes of the gap with it, further skips leave at most one byte for the
start, and the length goes on in skips behind the start. -/
def block (lines gap length : Nat) (kind : TokenKind) : List RecordingItem :=
  let afterLines := gap - lines * RecordingItem.maxLength
  let skips := gapPieces afterLines
  let afterSkips := afterLines - skips * RecordingItem.maxLength
  let firstLength := min RecordingItem.maxLength length
  let afterFirst := length - firstLength
  (pieces lines gap).map (.skip 1) ++
    (pieces skips afterLines).map (.skip 0) ++
    [.start afterSkips firstLength] ++
    (pieces (lengthPieces afterFirst) afterFirst).map (.skip 0) ++
    [.finish kind]

/-- Append a token, which must not lie before the end of the last one. -/
def push (r : Recording) (t : RecordedToken) : Except RecordingError Recording :=
  if t.line < r.line then .error .earlierLine
  else if t.start < r.offset then .error .earlierOffset
  else do
    let lines := (t.line - r.line).toNat
    let gap := (t.start - r.offset).toNat
    let length := (t.stop - t.start).toNat
    let bytes ← (block lines gap length t.kind).mapM RecordingItem.encode
    .ok { r with line := t.line, offset := t.stop, items := r.items ++ bytes }

/-- Append tokens until one of them is refused. -/
def pushAll (r : Recording) (tokens : List RecordedToken) : Except RecordingError Recording :=
  tokens.foldlM push r

end Recording

end AssemblyLexer
