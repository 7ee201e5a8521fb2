import AssemblyLexer.Input.Reader

/-!
Cursors look at the byte under them before they move past it. A cursor can hand
out a reader at its position and later move to where that reader has come.
-/

set_option autoImplicit false

namespace AssemblyLexer

inductive CursorError
  | differentBuffer
  | behindCursor
  deriving DecidableEq, Repr

def CursorError.message : CursorError → String
  | differentBuffer => "Cursor::adopt: reader walks a different buffer"
  | behindCursor => "Cursor::adopt: reader is behind the cursor"

structure Cursor where
  buffer : Buffer
  position : Nat
  position_le : position ≤ buffer.size

namespace Cursor

def ofBuffer (buffer : Buffer) : Cursor :=
  ⟨buffer, 0, Nat.zero_le _⟩

def atEnd (c : Cursor) : Bool :=
  c.buffer.size ≤ c.position

/-- The byte under the cursor. -/
def peek? (c : Cursor) : Option Byte :=
  c.buffer.bytes[c.position]?

/-- Classify the byte under the cursor without moving. -/
def classify {Class : Type} (c : Cursor) (table : ByteTable Class) : ClassifiedByte Class :=
  match c.peek? with
  | some b => ⟨table.classify b, b⟩
  | none => ⟨table.endOfInput, 0⟩

/-- Move past the byte under the cursor, if there is one. -/
def advance (c : Cursor) : Cursor :=
  if h : c.position < c.buffer.size then { c with position := c.position + 1, position_le := h }
  else c

/-- Move past the byte under the cursor if it is the given one, and tell whether it was. -/
def advanceIf (c : Cursor) (b : Byte) : Bool × Cursor :=
  if c.peek? = some b then (true, c.advance) else (false, c)

/-- A reader at the position of the cursor. -/
def reader (c : Cursor) : Reader :=
  Reader.ofBuffer c.buffer c.position

/-- Move to the position of a reader of the same buffer, which must not be behind the cursor. -/
def adopt (c : Cursor) (r : Reader) : Except CursorError Cursor :=
  if same : r.buffer = c.buffer then
    if r.position < c.position then .error .behindCursor
    else .ok { c with position := r.position, position_le := same ▸ r.position_le }
  else .error .differentBuffer

end Cursor

end AssemblyLexer
