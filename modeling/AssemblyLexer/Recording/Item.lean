import AssemblyLexer.Token.Kind

/-!
The items of a recording, each of which is one byte. A byte below 0x80 is the
number of a token kind. Otherwise the second bit tells a skip from a start, the
third is a flag and the last five are a length.
-/

set_option autoImplicit false

namespace AssemblyLexer

inductive RecordingError
  | earlierLine
  | earlierOffset
  | unknownKind
  | startOutOfRange
  | skipOutOfRange
  deriving DecidableEq, Repr

def RecordingError.message : RecordingError → String
  | earlierLine => "attempted to memoize token from earlier line"
  | earlierOffset => "attempted to memoize token from earlier byte offset"
  | unknownKind => "memo item names no token"
  | startOutOfRange => "memo start item out of range"
  | skipOutOfRange => "memo skip item out of range"

inductive RecordingItem
  /-- The token is complete. -/
  | finish (kind : TokenKind)
  /-- The token starts after a gap of at most one byte, and some bytes of it are passed. -/
  | start (gap length : Nat)
  /-- At most one line break and some bytes are passed. -/
  | skip (lines length : Nat)
  deriving DecidableEq, Repr

namespace RecordingItem

/-- The greatest length that an item can hold. -/
def maxLength : Nat := 31

def encode : RecordingItem → Except RecordingError Byte
  | finish kind => .ok kind.ordinal
  | start gap length =>
    if gap ≤ 1 ∧ length ≤ maxLength then .ok (UInt8.ofNat (0x80 + gap * 0x20 + length))
    else .error .startOutOfRange
  | skip lines length =>
    if lines ≤ 1 ∧ length ≤ maxLength then .ok (UInt8.ofNat (0xC0 + lines * 0x20 + length))
    else .error .skipOutOfRange

def decode (b : Byte) : Except RecordingError RecordingItem :=
  if b < 0x80 then
    match TokenKind.ofOrdinal? b with
    | some kind => .ok (finish kind)
    | none => .error .unknownKind
  else
    let flag := b.toNat / 0x20 % 2
    let length := b.toNat % 0x20
    if b < 0xC0 then .ok (start flag length) else .ok (skip flag length)

end RecordingItem

end AssemblyLexer
