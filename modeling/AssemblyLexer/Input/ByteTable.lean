import AssemblyLexer.Text.Byte

/-!
Tables that classify bytes. Each ASCII byte has a class of its own, all others
share one, and the end of the input has a class too.
-/

set_option autoImplicit false

namespace AssemblyLexer

structure ByteTable (Class : Type) where
  ascii : Byte → Class
  high : Class
  endOfInput : Class

namespace ByteTable

variable {Class : Type}

/-- The table in which every ASCII byte has the same class. -/
def uniform (fill high endOfInput : Class) : ByteTable Class :=
  ⟨fun _ => fill, high, endOfInput⟩

def classify (t : ByteTable Class) (b : Byte) : Class :=
  if b.isHigh then t.high else t.ascii b

/-- Give a class to every byte from the first to the last, if there is any. -/
def assignRange (t : ByteTable Class) (first last : Byte) (c : Class) : ByteTable Class :=
  { t with ascii := fun b => if first ≤ b ∧ b ≤ last then c else t.ascii b }

/-- Give a class to each of the given bytes. -/
def assignEach (t : ByteTable Class) (bytes : Bytes) (c : Class) : ByteTable Class :=
  { t with ascii := fun b => if bytes.contains b then c else t.ascii b }

end ByteTable

/-- A byte with its class. At the end of the input the byte is zero. -/
structure ClassifiedByte (Class : Type) where
  byteClass : Class
  byte : Byte
  deriving DecidableEq

end AssemblyLexer
