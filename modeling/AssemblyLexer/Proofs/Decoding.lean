import AssemblyLexer.Text.Utf8

/-!
Decoding undoes encoding: the decoder finds a character at the start of a byte
string exactly when the string starts with the encoding of that character.
-/

set_option autoImplicit false

namespace AssemblyLexer.Utf8

theorem isScalar_toNat (c : Char) : isScalar c.toNat := by
  have valid : c.toNat < 0xD800 ∨ 0xDFFF < c.toNat ∧ c.toNat < 0x110000 := c.valid
  simpa [isScalar] using valid

theorem toNat_ofNat_of_isScalar {code : Nat} (scalar : isScalar code) :
    (Char.ofNat code).toNat = code := by
  have valid : code.isValidChar := by simpa [isScalar] using scalar
  rw [Char.ofNat, dif_pos valid]
  rfl

theorem accept?_eq_some_iff {least code length n : Nat} {c : Char} :
    accept? least code length = some (c, n) ↔ least ≤ code ∧ code = c.toNat ∧ n = length := by
  unfold accept? scalar?
  constructor
  · intro accepted
    split at accepted
    · next enough =>
      split at accepted
      · next scalar =>
        cases accepted
        exact ⟨enough, (toNat_ofNat_of_isScalar scalar).symm, rfl⟩
      · cases accepted
    · cases accepted
  · rintro ⟨enough, rfl, rfl⟩
    simp [enough, isScalar_toNat, Char.ofNat_toNat]

/-- A byte with some bits below a mark. -/
def marked (mark bits : Nat) : Byte :=
  UInt8.ofNat (mark + bits)

theorem toNat_marked (mark bits : Nat) (small : mark + bits < 256) :
    (marked mark bits).toNat = mark + bits :=
  UInt8.toNat_ofNat_of_lt' small

theorem exists_marked (mark stop : Nat) {b : Byte} (within : mark ≤ b.toNat ∧ b.toNat < stop) :
    ∃ bits, bits < stop - mark ∧ b = marked mark bits := by
  refine ⟨b.toNat - mark, by omega, ?_⟩
  rw [marked, Nat.add_sub_cancel' within.1, UInt8.ofNat_toNat]

theorem payload?_eq_some_iff {b : Byte} {bits : Nat} :
    payload? b = some bits ↔ bits < 0x40 ∧ b = marked 0x80 bits := by
  simp only [payload?, Bool.and_eq_true, decide_eq_true_eq, UInt8.le_iff_toNat_le,
    UInt8.lt_iff_toNat_lt]
  constructor
  · intro read
    split at read
    · next within =>
      obtain ⟨bits', small, rfl⟩ := exists_marked 0x80 0xC0 within
      have value := toNat_marked 0x80 bits' (by omega)
      obtain rfl : bits' = bits := by
        have read := Option.some.inj read
        omega
      exact ⟨small, rfl⟩
    · cases read
  · rintro ⟨small, rfl⟩
    have value := toNat_marked 0x80 bits (by omega)
    simp [value]
    omega

/-- The bytes of a form, the least code that needs the form, and the code that it gives. -/
inductive Form : Bytes → Nat → Nat → Prop
  | one {code : Nat} (small : code < 0x80) : Form [marked 0 code] 0 code
  | two {a p : Nat} (lead : a < 0x20) (first : p < 0x40) :
      Form [marked 0xC0 a, marked 0x80 p] 0x80 (a * 0x40 + p)
  | three {a p q : Nat} (lead : a < 0x10) (first : p < 0x40) (second : q < 0x40) :
      Form [marked 0xE0 a, marked 0x80 p, marked 0x80 q] 0x800 (a * 0x1000 + p * 0x40 + q)
  | four {a p q r : Nat} (lead : a < 0x08) (first : p < 0x40) (second : q < 0x40)
      (third : r < 0x40) :
      Form [marked 0xF0 a, marked 0x80 p, marked 0x80 q, marked 0x80 r] 0x10000
        (a * 0x40000 + p * 0x1000 + q * 0x40 + r)

theorem decode?_of_form {bytes : Bytes} {least code : Nat} (form : Form bytes least code)
    (rest : Bytes) : decode? (bytes ++ rest) = accept? least code bytes.length := by
  have read {p : Nat} (small : p < 0x40) : payload? (marked 0x80 p) = some p :=
    payload?_eq_some_iff.mpr ⟨small, rfl⟩
  -- The binds are opened by their definition: by their lemmas the kernel takes long over the sums.
  cases form with
  | one small =>
    have value := toNat_marked 0 code (by omega)
    simp [decode?, UInt8.lt_iff_toNat_lt, value, small]
  | @two a p lead first =>
    have value := toNat_marked 0xC0 a (by omega)
    have notOne : ¬0xC0 + a < 0x80 := by omega
    have isTwo : 0xC0 + a < 0xE0 := by omega
    simp [decode?, UInt8.lt_iff_toNat_lt, UInt8.le_iff_toNat_le, value, notOne, isTwo, read first,
      bind, Option.bind]
  | @three a p q lead first second =>
    have value := toNat_marked 0xE0 a (by omega)
    have notOne : ¬0xE0 + a < 0x80 := by omega
    have notTwo : ¬0xE0 + a < 0xE0 := by omega
    have isThree : 0xE0 + a < 0xF0 := by omega
    simp [decode?, UInt8.lt_iff_toNat_lt, UInt8.le_iff_toNat_le, value, notOne, notTwo, isThree,
      read first, read second, bind, Option.bind]
  | @four a p q r lead first second third =>
    have value := toNat_marked 0xF0 a (by omega)
    have notOne : ¬0xF0 + a < 0x80 := by omega
    have notTwo : ¬0xF0 + a < 0xE0 := by omega
    have notThree : ¬0xF0 + a < 0xF0 := by omega
    have isFour : 0xF0 + a < 0xF8 := by omega
    simp [decode?, UInt8.lt_iff_toNat_lt, UInt8.le_iff_toNat_le, value, notOne, notTwo, notThree,
      isFour, read first, read second, read third, bind, Option.bind]

theorem exists_form {bytes : Bytes} {result : Char × Nat} (decoded : decode? bytes = some result) :
    ∃ form least code rest, bytes = form ++ rest ∧ Form form least code := by
  unfold decode? at decoded
  simp only [Bool.and_eq_true, decide_eq_true_eq, UInt8.le_iff_toNat_le,
    UInt8.lt_iff_toNat_lt] at decoded
  split at decoded
  · cases decoded
  · next lead rest =>
    split at decoded
    · next isOne =>
      obtain ⟨code, small, rfl⟩ := exists_marked 0 0x80 ⟨Nat.zero_le _, isOne⟩
      exact ⟨_, _, _, rest, rfl, .one small⟩
    split at decoded
    · next isTwo =>
      obtain ⟨a, lead, rfl⟩ := exists_marked 0xC0 0xE0 isTwo
      split at decoded
      · next b₁ more =>
        obtain ⟨p, firstRead, _⟩ := Option.bind_eq_some_iff.mp decoded
        obtain ⟨first, rfl⟩ := payload?_eq_some_iff.mp firstRead
        exact ⟨_, _, _, more, rfl, .two lead first⟩
      · cases decoded
    split at decoded
    · next isThree =>
      obtain ⟨a, lead, rfl⟩ := exists_marked 0xE0 0xF0 isThree
      split at decoded
      · next b₁ b₂ more =>
        obtain ⟨p, firstRead, decoded⟩ := Option.bind_eq_some_iff.mp decoded
        obtain ⟨q, secondRead, _⟩ := Option.bind_eq_some_iff.mp decoded
        obtain ⟨first, rfl⟩ := payload?_eq_some_iff.mp firstRead
        obtain ⟨second, rfl⟩ := payload?_eq_some_iff.mp secondRead
        exact ⟨_, _, _, more, rfl, .three lead first second⟩
      · cases decoded
    split at decoded
    · next isFour =>
      obtain ⟨a, lead, rfl⟩ := exists_marked 0xF0 0xF8 isFour
      split at decoded
      · next b₁ b₂ b₃ more =>
        obtain ⟨p, firstRead, decoded⟩ := Option.bind_eq_some_iff.mp decoded
        obtain ⟨q, secondRead, decoded⟩ := Option.bind_eq_some_iff.mp decoded
        obtain ⟨r, thirdRead, _⟩ := Option.bind_eq_some_iff.mp decoded
        obtain ⟨first, rfl⟩ := payload?_eq_some_iff.mp firstRead
        obtain ⟨second, rfl⟩ := payload?_eq_some_iff.mp secondRead
        obtain ⟨third, rfl⟩ := payload?_eq_some_iff.mp thirdRead
        exact ⟨_, _, _, more, rfl, .four lead first second third⟩
      · cases decoded
    · cases decoded

/-- A code is written in the form that it needs. -/
theorem encodeCode_of_form {bytes : Bytes} {least code : Nat} (form : Form bytes least code)
    (needs : least ≤ code) : encodeCode code = bytes := by
  unfold encodeCode continuation
  cases form with
  | one small =>
    rw [if_pos small, marked, Nat.zero_add]
  | @two a p lead first =>
    have lead_eq : (a * 0x40 + p) / 0x40 = a := by omega
    have first_eq : (a * 0x40 + p) % 0x40 = p := by omega
    rw [if_neg (by omega), if_pos (by omega), lead_eq, first_eq]
    rfl
  | @three a p q lead first second =>
    have lead_eq : (a * 0x1000 + p * 0x40 + q) / 0x1000 = a := by omega
    have first_eq : (a * 0x1000 + p * 0x40 + q) / 0x40 % 0x40 = p := by omega
    have second_eq : (a * 0x1000 + p * 0x40 + q) % 0x40 = q := by omega
    rw [if_neg (by omega), if_neg (by omega), if_pos (by omega), lead_eq, first_eq, second_eq]
    rfl
  | @four a p q r lead first second third =>
    have lead_eq : (a * 0x40000 + p * 0x1000 + q * 0x40 + r) / 0x40000 = a := by omega
    have first_eq : (a * 0x40000 + p * 0x1000 + q * 0x40 + r) / 0x1000 % 0x40 = p := by omega
    have second_eq : (a * 0x40000 + p * 0x1000 + q * 0x40 + r) / 0x40 % 0x40 = q := by omega
    have third_eq : (a * 0x40000 + p * 0x1000 + q * 0x40 + r) % 0x40 = r := by omega
    rw [if_neg (by omega), if_neg (by omega), if_neg (by omega), lead_eq, first_eq, second_eq,
      third_eq]
    rfl

theorem exists_form_of_lt {code : Nat} (bound : code < 0x110000) :
    ∃ bytes least, least ≤ code ∧ Form bytes least code := by
  by_cases one : code < 0x80
  · exact ⟨_, _, Nat.zero_le code, .one one⟩
  by_cases two : code < 0x800
  · have form := Form.two (show code / 0x40 < 0x20 by omega) (show code % 0x40 < 0x40 by omega)
    have code_eq : code / 0x40 * 0x40 + code % 0x40 = code := by omega
    rw [code_eq] at form
    exact ⟨_, _, by omega, form⟩
  by_cases three : code < 0x10000
  · have form := Form.three (show code / 0x1000 < 0x10 by omega)
      (show code / 0x40 % 0x40 < 0x40 by omega) (show code % 0x40 < 0x40 by omega)
    have code_eq : code / 0x1000 * 0x1000 + code / 0x40 % 0x40 * 0x40 + code % 0x40 = code := by
      omega
    rw [code_eq] at form
    exact ⟨_, _, by omega, form⟩
  · have form := Form.four (show code / 0x40000 < 0x08 by omega)
      (show code / 0x1000 % 0x40 < 0x40 by omega) (show code / 0x40 % 0x40 < 0x40 by omega)
      (show code % 0x40 < 0x40 by omega)
    have code_eq : code / 0x40000 * 0x40000 + code / 0x1000 % 0x40 * 0x1000 +
        code / 0x40 % 0x40 * 0x40 + code % 0x40 = code := by
      omega
    rw [code_eq] at form
    exact ⟨_, _, by omega, form⟩

theorem exists_form_encode (c : Char) : ∃ least, least ≤ c.toNat ∧ Form (encode c) least c.toNat := by
  have bound : c.toNat < 0x110000 := by
    have scalar := isScalar_toNat c
    simp only [isScalar, Bool.or_eq_true, Bool.and_eq_true, decide_eq_true_eq] at scalar
    omega
  obtain ⟨bytes, least, needs, form⟩ := exists_form_of_lt bound
  refine ⟨least, needs, ?_⟩
  rw [encode, encodeCode_of_form form needs]
  exact form

/-- The decoder finds a character exactly where its encoding stands, and takes no more than that. -/
theorem decode?_eq_some_iff {bytes : Bytes} {c : Char} {length : Nat} :
    decode? bytes = some (c, length) ↔ encode c <+: bytes ∧ length = (encode c).length := by
  constructor
  · intro decoded
    obtain ⟨form, least, code, rest, rfl, isForm⟩ := exists_form decoded
    rw [decode?_of_form isForm] at decoded
    obtain ⟨needs, rfl, rfl⟩ := accept?_eq_some_iff.mp decoded
    rw [encode, encodeCode_of_form isForm needs]
    exact ⟨List.prefix_append _ _, rfl⟩
  · rintro ⟨⟨rest, rfl⟩, rfl⟩
    obtain ⟨least, needs, form⟩ := exists_form_encode c
    rw [decode?_of_form form]
    exact accept?_eq_some_iff.mpr ⟨needs, rfl, rfl⟩

/-- A character is encoded as a single byte of ASCII or without any. -/
theorem encode_cases (c : Char) :
    (∃ b : Byte, b.isHigh = false ∧ encode c = [b]) ∨ ∀ b ∈ encode c, b.isHigh := by
  have high {mark bits : Nat} (isHigh : 0x80 ≤ mark) (small : mark + bits < 256) :
      (marked mark bits).isHigh := by
    simp only [Byte.isHigh, decide_eq_true_eq, UInt8.le_iff_toNat_le, toNat_marked mark bits small]
    exact Nat.le_trans isHigh (Nat.le_add_right mark bits)
  obtain ⟨least, _, form⟩ := exists_form_encode c
  generalize encode c = bytes at form
  generalize c.toNat = code at form
  cases form with
  | one small =>
    refine .inl ⟨_, ?_, rfl⟩
    simp only [Byte.isHigh, decide_eq_false_iff_not, UInt8.le_iff_toNat_le,
      toNat_marked 0 code (by omega)]
    simpa using small
  | two lead first =>
    right
    simp only [List.forall_mem_cons, List.not_mem_nil, false_implies, implies_true, and_true]
    exact ⟨high (by decide) (by omega), high (by decide) (by omega)⟩
  | three lead first second =>
    right
    simp only [List.forall_mem_cons, List.not_mem_nil, false_implies, implies_true, and_true]
    exact ⟨high (by decide) (by omega), high (by decide) (by omega), high (by decide) (by omega)⟩
  | four lead first second third =>
    right
    simp only [List.forall_mem_cons, List.not_mem_nil, false_implies, implies_true, and_true]
    exact ⟨high (by decide) (by omega), high (by decide) (by omega), high (by decide) (by omega),
      high (by decide) (by omega)⟩

theorem exists_encode_eq {b : Byte} (low : b.isHigh = false) : ∃ c, encode c = [b] := by
  have small : b.toNat < 0x80 := by
    simpa [Byte.isHigh, UInt8.le_iff_toNat_le] using low
  have scalar : isScalar b.toNat := by
    simp only [isScalar, Bool.or_eq_true, decide_eq_true_eq]
    omega
  refine ⟨Char.ofNat b.toNat, ?_⟩
  rw [encode, toNat_ofNat_of_isScalar scalar, encodeCode, if_pos small, UInt8.ofNat_toNat]

end AssemblyLexer.Utf8
