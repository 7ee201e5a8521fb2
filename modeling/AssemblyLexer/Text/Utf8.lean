import AssemblyLexer.Text.Byte

/-!
UTF-8 on byte strings. A character is a Unicode scalar value, written in one to
four bytes; the decoder takes the shortest form only and refuses surrogates.
-/

set_option autoImplicit false

namespace AssemblyLexer.Utf8

/-- A code that is neither a surrogate nor beyond the last plane. -/
def isScalar (code : Nat) : Bool :=
  code < 0xD800 || (0xDFFF < code && code < 0x110000)

/-- The character with the given code, for scalar values only. -/
def scalar? (code : Nat) : Option Char :=
  if isScalar code then some (Char.ofNat code) else none

def continuation (code : Nat) : Byte :=
  UInt8.ofNat (0x80 + code % 0x40)

def encodeCode (code : Nat) : Bytes :=
  if code < 0x80 then
    [UInt8.ofNat code]
  else if code < 0x800 then
    [UInt8.ofNat (0xC0 + code / 0x40), continuation code]
  else if code < 0x10000 then
    [UInt8.ofNat (0xE0 + code / 0x1000), continuation (code / 0x40), continuation code]
  else
    [UInt8.ofNat (0xF0 + code / 0x40000), continuation (code / 0x1000),
      continuation (code / 0x40), continuation code]

def encode (c : Char) : Bytes :=
  encodeCode c.toNat

/-- The bytes of a text. -/
def ofString (text : String) : Bytes :=
  text.toList.flatMap encode

/-- The six payload bits of a continuation byte. -/
def payload? (b : Byte) : Option Nat :=
  if 0x80 ≤ b && b < 0xC0 then some (b.toNat - 0x80) else none

/-- A code read in a form of the given length must be a scalar value that needs that length. -/
def accept? (least code length : Nat) : Option (Char × Nat) :=
  if least ≤ code then (scalar? code).map (·, length) else none

/-- The first character of a byte string and the number of bytes that hold it. -/
def decode? : Bytes → Option (Char × Nat)
  | [] => none
  | lead :: rest =>
    if lead < 0x80 then
      accept? 0 lead.toNat 1
    else if 0xC0 ≤ lead && lead < 0xE0 then
      match rest with
      | b₁ :: _ => do
        let p₁ ← payload? b₁
        accept? 0x80 ((lead.toNat - 0xC0) * 0x40 + p₁) 2
      | _ => none
    else if 0xE0 ≤ lead && lead < 0xF0 then
      match rest with
      | b₁ :: b₂ :: _ => do
        let p₁ ← payload? b₁
        let p₂ ← payload? b₂
        accept? 0x800 ((lead.toNat - 0xE0) * 0x1000 + p₁ * 0x40 + p₂) 3
      | _ => none
    else if 0xF0 ≤ lead && lead < 0xF8 then
      match rest with
      | b₁ :: b₂ :: b₃ :: _ => do
        let p₁ ← payload? b₁
        let p₂ ← payload? b₂
        let p₃ ← payload? b₃
        accept? 0x10000 ((lead.toNat - 0xF0) * 0x40000 + p₁ * 0x1000 + p₂ * 0x40 + p₃) 4
      | _ => none
    else none

/-! The codec of buffers works on the bits of codes. -/

def isScalarCode (code : UInt32) : Bool :=
  code ≤ 0x10FFFF && (code < 0xD800 || 0xDFFF < code)

/-- The first of several bytes, with the bits of a code that are left above the given one. -/
def leadByte (mark code shift : UInt32) : Byte :=
  (mark ||| (code >>> shift)).toUInt8

/-- A byte behind the first, with six bits of a code. -/
def trailByte (code shift : UInt32) : Byte :=
  (0x80 ||| ((code >>> shift) &&& 0x3F)).toUInt8

/-- Write a code behind the bytes of a buffer, and tell whether it is the code of a character. The
buffer stays as it is if not. -/
def append (out : Bytes) (code : UInt32) : Bool × Bytes :=
  if !isScalarCode code then (false, out)
  else if code ≤ 0x7F then (true, out ++ [code.toUInt8])
  else if code ≤ 0x7FF then (true, out ++ [leadByte 0xC0 code 6, trailByte code 0])
  else if code ≤ 0xFFFF then
    (true, out ++ [leadByte 0xE0 code 12, trailByte code 6, trailByte code 0])
  else
    (true, out ++ [leadByte 0xF0 code 18, trailByte code 12, trailByte code 6, trailByte code 0])

/-- What the first of several bytes says. -/
structure Lead where
  length : Nat
  bits : UInt32
  /-- The least code that needs so many bytes. -/
  least : UInt32
  deriving DecidableEq

def lead? (b : Byte) : Option Lead :=
  if b &&& 0xE0 = 0xC0 then some ⟨2, (b &&& 0x1F).toUInt32, 0x80⟩
  else if b &&& 0xF0 = 0xE0 then some ⟨3, (b &&& 0x0F).toUInt32, 0x800⟩
  else if b &&& 0xF8 = 0xF0 then some ⟨4, (b &&& 0x07).toUInt32, 0x10000⟩
  else none

/-- Put the bits of the bytes behind those of a code. -/
def gather? (code : UInt32) : Bytes → Option UInt32
  | [] => some code
  | b :: rest =>
    if b &&& 0xC0 = 0x80 then gather? ((code <<< 6) ||| (b &&& 0x3F).toUInt32) rest else none

/-- The first code of a byte string and the number of bytes that hold it. -/
def decodeBits? : Bytes → Option (UInt32 × Nat)
  | [] => none
  | b :: rest =>
    if b < 0x80 then some (b.toUInt32, 1)
    else do
      let lead ← lead? b
      if rest.length + 1 < lead.length then none
      else
        let code ← gather? lead.bits (rest.take (lead.length - 1))
        if code < lead.least || !isScalarCode code then none else some (code, lead.length)

/-- The code at an offset and the offset behind it, which is the same one if there is no
character. -/
def decodeAt (text : Bytes) (offset : Nat) : Option UInt32 × Nat :=
  match decodeBits? (text.drop offset) with
  | some (code, length) => (some code, offset + length)
  | none => (none, offset)

end AssemblyLexer.Utf8
