import AssemblyLexer.Text.Byte

/-!
Positions in a source text. A position is what passing over the bytes before it
leaves behind, so it never has to be found again by searching backwards.
-/

set_option autoImplicit false

namespace AssemblyLexer

/-- The bytes from one offset up to another. -/
structure Span where
  start : Nat
  stop : Nat
  deriving DecidableEq, Repr

def Span.length (s : Span) : Nat :=
  s.stop - s.start

/-- Where something stands in a file, with zero for each part that is not known. -/
structure Location where
  file : UInt32
  line : UInt32
  column : UInt32
  deriving DecidableEq, Repr

def Location.unknown : Location := ⟨0, 0, 0⟩

structure Position where
  offset : Nat
  /-- The number of the line, from one. -/
  line : Nat
  /-- The offset where the line starts. -/
  lineStart : Nat
  /-- The byte before is a carriage return, so a line feed belongs to the same break. -/
  afterReturn : Bool
  deriving DecidableEq, Repr

namespace Position

def initial : Position where
  offset := 0
  line := 1
  lineStart := 0
  afterReturn := false

def pass (p : Position) (b : Byte) : Position :=
  let offset := p.offset + 1
  if b = Byte.carriageReturn then
    ⟨offset, p.line + 1, offset, true⟩
  else if b = Byte.lineFeed then
    ⟨offset, if p.afterReturn then p.line else p.line + 1, offset, false⟩
  else
    ⟨offset, p.line, p.lineStart, false⟩

def passAll (p : Position) (bytes : Bytes) : Position :=
  bytes.foldl pass p

/-- The number of the byte in its line, from one. -/
def column (p : Position) : Nat :=
  p.offset - p.lineStart + 1

def location (p : Position) (file : UInt32) : Location :=
  ⟨file, UInt32.ofNat p.line, UInt32.ofNat p.column⟩

@[simp]
theorem passAll_nil (p : Position) : p.passAll [] = p := rfl

@[simp]
theorem passAll_append (p : Position) (left right : Bytes) :
    p.passAll (left ++ right) = (p.passAll left).passAll right := by
  simp [passAll]

@[simp]
theorem offset_pass (p : Position) (b : Byte) : (p.pass b).offset = p.offset + 1 := by
  unfold pass
  split
  · rfl
  · split <;> rfl

@[simp]
theorem offset_passAll (p : Position) (bytes : Bytes) :
    (p.passAll bytes).offset = p.offset + bytes.length := by
  induction bytes generalizing p with
  | nil => rfl
  | cons b rest ih =>
    rw [passAll, List.foldl_cons, ← passAll, ih, offset_pass, List.length_cons]
    omega

theorem offset_passAll_initial (bytes : Bytes) : (initial.passAll bytes).offset = bytes.length :=
  (offset_passAll initial bytes).trans (Nat.zero_add _)

end Position

end AssemblyLexer
