import AssemblyLexer.Proofs.CodecBits

/-!
Writing codes behind a buffer and reading characters at an offset. Each is the
inverse of the other: what has been written is read back whatever follows, and
what is read is what writing the character gives.
-/

set_option autoImplicit false

namespace AssemblyLexer.Utf8

/-- The code of a character is not beyond the last plane and no surrogate. -/
def IsScalar (code : Nat) : Prop :=
  code ≤ 0x10FFFF ∧ ¬(0xD800 ≤ code ∧ code ≤ 0xDFFF)

theorem isScalar_iff {code : Nat} : isScalar code ↔ IsScalar code := by
  simp only [isScalar, IsScalar, Bool.or_eq_true, Bool.and_eq_true, decide_eq_true_eq]
  omega

theorem isScalar_val (c : Char) : IsScalar c.val.toNat :=
  isScalar_iff.mp (isScalar_toNat c)

theorem exists_val_eq {code : UInt32} (scalar : IsScalar code.toNat) : ∃ c : Char, c.val = code := by
  have valid : code.isValidChar := by
    change code.toNat < 0xD800 ∨ 0xDFFF < code.toNat ∧ code.toNat < 0x110000
    have scalar' := scalar
    simp only [IsScalar] at scalar'
    omega
  exact ⟨⟨code, valid⟩, rfl⟩

theorem append_val (out : Bytes) (c : Char) : append out c.val = (true, out ++ encode c) :=
  append_of_isScalar out (isScalar_toNat c)

theorem append_refused (out : Bytes) {code : UInt32} (refused : ¬IsScalar code.toNat) :
    append out code = (false, out) :=
  append_of_not_isScalar out (Bool.eq_false_iff.mpr (refused ∘ isScalar_iff.mp))

theorem decodeAt_eq_some_iff {text : Bytes} {offset next : Nat} {code : UInt32} :
    decodeAt text offset = (some code, next) ↔
      ∃ c : Char, c.val = code ∧ encode c <+: text.drop offset ∧
        next = offset + (encode c).length := by
  rw [decodeAt, decodeBits?_eq]
  cases decoded : decode? (text.drop offset) with
  | none =>
    simp only [Option.map_none, Prod.mk.injEq, reduceCtorEq, false_and, false_iff]
    rintro ⟨c, _, present, _⟩
    cases decoded.symm.trans (decode?_eq_some_iff.mpr ⟨present, rfl⟩)
  | some result =>
    obtain ⟨d, length⟩ := result
    obtain ⟨present, rfl⟩ := decode?_eq_some_iff.mp decoded
    constructor
    · intro same
      cases same
      exact ⟨d, rfl, present, rfl⟩
    · rintro ⟨c, rfl, present', rfl⟩
      cases decoded.symm.trans (decode?_eq_some_iff.mpr ⟨present', rfl⟩)
      rfl

theorem decodeAt_of_none {text : Bytes} {offset next : Nat}
    (failed : decodeAt text offset = (none, next)) :
    next = offset ∧ ∀ c, ¬encode c <+: text.drop offset := by
  rw [decodeAt, decodeBits?_eq] at failed
  cases decoded : decode? (text.drop offset) with
  | some result =>
    rw [decoded] at failed
    cases failed
  | none =>
    rw [decoded] at failed
    cases failed
    refine ⟨rfl, fun c present => ?_⟩
    cases decoded.symm.trans (decode?_eq_some_iff.mpr ⟨present, rfl⟩)

/-- The encoding is the one of the standard library. -/
theorem encode_eq_utf8EncodeChar (c : Char) : encode c = String.utf8EncodeChar c := by
  have bound : c.toNat ≤ 0x10FFFF := (isScalar_val c).1
  have standard : String.utf8EncodeChar c =
      if c.toNat ≤ 0x7F then [UInt8.ofNat c.toNat]
      else if c.toNat ≤ 0x7FF then
        [UInt8.ofNat (c.toNat / 0x40 % 0x20 + 0xC0), UInt8.ofNat (c.toNat % 0x40 + 0x80)]
      else if c.toNat ≤ 0xFFFF then
        [UInt8.ofNat (c.toNat / 0x1000 % 0x10 + 0xE0), UInt8.ofNat (c.toNat / 0x40 % 0x40 + 0x80),
          UInt8.ofNat (c.toNat % 0x40 + 0x80)]
      else
        [UInt8.ofNat (c.toNat / 0x40000 % 0x08 + 0xF0),
          UInt8.ofNat (c.toNat / 0x1000 % 0x40 + 0x80), UInt8.ofNat (c.toNat / 0x40 % 0x40 + 0x80),
          UInt8.ofNat (c.toNat % 0x40 + 0x80)] := rfl
  rw [standard, encode]
  generalize c.toNat = code at bound
  simp only [encodeCode, continuation, Nat.add_comm (_ % 0x40) 0x80]
  by_cases one : code < 0x80
  · rw [if_pos one, if_pos (by omega)]
  by_cases two : code < 0x800
  · have lead : code / 0x40 % 0x20 + 0xC0 = 0xC0 + code / 0x40 := by omega
    rw [if_neg one, if_pos two, if_neg (by omega), if_pos (by omega), lead]
  by_cases three : code < 0x10000
  · have lead : code / 0x1000 % 0x10 + 0xE0 = 0xE0 + code / 0x1000 := by omega
    rw [if_neg one, if_neg two, if_pos three, if_neg (by omega), if_neg (by omega),
      if_pos (by omega), lead]
  · have lead : code / 0x40000 % 0x08 + 0xF0 = 0xF0 + code / 0x40000 := by omega
    rw [if_neg one, if_neg two, if_neg three, if_neg (by omega), if_neg (by omega),
      if_neg (by omega), lead]

theorem length_encode_pos (c : Char) : 0 < (encode c).length := by
  rw [encode_eq_utf8EncodeChar, String.length_utf8EncodeChar]
  exact c.utf8Size_pos

/-- Writing a code behind a buffer. -/
structure Written (out : Bytes) (code : UInt32) : Prop where
  succeeds_iff : (append out code).1 = true ↔ IsScalar code.toNat
  unchanged : ¬IsScalar code.toNat → (append out code).2 = out
  /-- The character is read back from where it has been written, whatever follows it. -/
  readBack : IsScalar code.toNat → ∃ c : Char, c.val = code ∧
    (append out code).2 = out ++ String.utf8EncodeChar c ∧
      ∀ more, decodeAt ((append out code).2 ++ more) out.length =
        (some code, (append out code).2.length)

/-- Reading a character at an offset. -/
structure Found (text : Bytes) (offset : Nat) : Prop where
  /-- What stands there is what would have been written behind any buffer. -/
  written : ∀ code next, decodeAt text offset = (some code, next) →
    IsScalar code.toNat ∧ offset < next ∧ next ≤ text.length ∧
      ∀ out, append out code = (true, out ++ (text.take next).drop offset)
  absent : ∀ next, decodeAt text offset = (none, next) →
    next = offset ∧ ∀ code : UInt32, IsScalar code.toNat →
      ¬(append [] code).2 <+: text.drop offset

theorem written (out : Bytes) (code : UInt32) : Written out code where
  succeeds_iff := by
    constructor
    · intro succeeds
      by_cases scalar : IsScalar code.toNat
      · exact scalar
      · rw [append_refused out scalar] at succeeds
        cases succeeds
    · intro scalar
      obtain ⟨c, rfl⟩ := exists_val_eq scalar
      rw [append_val]
  unchanged refused := by rw [append_refused out refused]
  readBack scalar := by
    obtain ⟨c, rfl⟩ := exists_val_eq scalar
    refine ⟨c, rfl, ?_, ?_⟩
    · rw [append_val, encode_eq_utf8EncodeChar]
    · intro more
      rw [append_val]
      apply decodeAt_eq_some_iff.mpr
      rw [List.append_assoc, List.drop_left, List.length_append]
      exact ⟨c, rfl, List.prefix_append _ _, rfl⟩

theorem found (text : Bytes) (offset : Nat) : Found text offset where
  written := by
    intro code next decoded
    obtain ⟨c, rfl, present, rfl⟩ := decodeAt_eq_some_iff.mp decoded
    have taken := List.prefix_iff_eq_take.mp present
    have length_le := present.length_le
    rw [List.length_drop] at length_le
    have positive := length_encode_pos c
    refine ⟨isScalar_val c, by omega, by omega, fun out => ?_⟩
    have inside_eq : (text.take (offset + (encode c).length)).drop offset = encode c := by
      rw [List.drop_take, Nat.add_sub_cancel_left, ← taken]
    rw [append_val, inside_eq]
  absent := by
    intro next failed
    obtain ⟨next_eq, absent⟩ := decodeAt_of_none failed
    refine ⟨next_eq, fun code scalar present => ?_⟩
    obtain ⟨c, rfl⟩ := exists_val_eq scalar
    rw [append_val] at present
    exact absent c present

/-- Writing and reading are inverse to each other. -/
theorem append_decodeAt (out : Bytes) (code : UInt32) (text : Bytes) (offset : Nat) :
    Written out code ∧ Found text offset :=
  ⟨written out code, found text offset⟩

end AssemblyLexer.Utf8
