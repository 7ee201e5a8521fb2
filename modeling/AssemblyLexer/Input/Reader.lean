import AssemblyLexer.Input.ByteTable
import AssemblyLexer.Number.Digits
import AssemblyLexer.Number.Scan
import AssemblyLexer.Text.Numeral
import AssemblyLexer.Text.Utf8

/-!
Readers walk a buffer byte by byte and can take back the last byte that they
read, once.
-/

set_option autoImplicit false

namespace AssemblyLexer

/-- Bytes with an identity. Two buffers can hold the same bytes and still differ. -/
structure Buffer where
  identity : Nat
  bytes : Bytes
  deriving DecidableEq

def Buffer.size (b : Buffer) : Nat :=
  b.bytes.length

inductive ReaderError
  | beforeStart
  deriving DecidableEq, Repr

def ReaderError.message : ReaderError → String
  | beforeStart => "Reader::preceding: length exceeds bytes read"

structure Reader where
  buffer : Buffer
  position : Nat
  position_le : position ≤ buffer.size
  /-- The last step read a byte. -/
  canUnread : Bool

namespace Reader

/-- A reader at the given position, or at the end when that lies beyond it. -/
def ofBuffer (buffer : Buffer) (position : Nat) : Reader where
  buffer := buffer
  position := min position buffer.size
  position_le := Nat.min_le_right _ _
  canUnread := false

def remaining (r : Reader) : Bytes :=
  r.buffer.bytes.drop r.position

theorem length_remaining (r : Reader) : r.remaining.length = r.buffer.size - r.position := by
  simp [remaining, Buffer.size]

/-- The bytes directly before the position. -/
def preceding (r : Reader) (length : Nat) : Except ReaderError Bytes :=
  if r.position < length then .error .beforeStart
  else .ok ((r.buffer.bytes.drop (r.position - length)).take length)

/-- Read a byte and classify it. -/
def next {Class : Type} (r : Reader) (table : ByteTable Class) :
    ClassifiedByte Class × Reader :=
  match h : r.remaining with
  | [] => (⟨table.endOfInput, 0⟩, { r with canUnread := false })
  | b :: rest =>
    (⟨table.classify b, b⟩,
      { r with
        position := r.position + 1
        position_le := by
          have length := r.length_remaining
          rw [h, List.length_cons] at length
          omega
        canUnread := true })

/-- Take back the byte of the last step, if it read one. -/
def unread (r : Reader) : Reader :=
  if r.canUnread then
    { r with
      position := r.position - 1
      position_le := Nat.le_trans (Nat.sub_le _ _) r.position_le
      canUnread := false }
  else r

/-- Pass over bytes without the choice of taking the last one back. -/
def pass (r : Reader) (count : Nat) : Reader where
  buffer := r.buffer
  position := min (r.position + count) r.buffer.size
  position_le := Nat.min_le_right _ _
  canUnread := false

def scanDigits (r : Reader) (radix : Radix) : DigitRun × Reader :=
  let run := DigitRun.scan radix r.remaining
  (run, r.pass run.length)

def scanNumber (r : Reader) (radix : Radix) : NumberScan × Reader :=
  let scan := NumberScan.scan radix r.remaining
  (scan, r.pass scan.length)

/-- The remaining bytes in hexadecimal. -/
def debugText (r : Reader) : Bytes :=
  let numerals := r.remaining.map fun b => Numeral.hexadecimal b.toNat
  Utf8.ofString "Reader [" ++ List.intercalate [0x2C, Byte.space] numerals ++ [0x5D]

end Reader

end AssemblyLexer
