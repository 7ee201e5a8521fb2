import AssemblyLexer.Proofs.Decoding
import Mathlib.Algebra.Group.Nat.Defs

/-!
The codec of buffers, which works on the bits of codes, writes and reads what the
arithmetic one does. Marks stand above the bits that they are joined with, so
that joining adds them.
-/

set_option autoImplicit false

namespace AssemblyLexer.Utf8

theorem isScalarCode_eq (code : UInt32) : isScalarCode code = isScalar code.toNat := by
  rw [Bool.eq_iff_iff]
  simp only [isScalarCode, isScalar, Bool.and_eq_true, Bool.or_eq_true, decide_eq_true_eq,
    UInt32.le_iff_toNat_le, UInt32.lt_iff_toNat_lt, UInt32.reduceToNat]
  omega

variable {code shift : UInt32}

/-- A mark stands above the bits that are left, so that it adds to them. -/
theorem leadByte_eq {mark : UInt32} {i k : Nat} (mark_eq : mark.toNat = 2 ^ i * k)
    (shift_lt : shift.toNat < 32) (small : code.toNat / 2 ^ shift.toNat < 2 ^ i) :
    leadByte mark code shift = UInt8.ofNat (mark.toNat + code.toNat / 2 ^ shift.toNat) := by
  apply UInt8.toNat_inj.mp
  rw [leadByte, UInt32.toNat_toUInt8, UInt32.toNat_or, UInt32.toNat_shiftRight,
    Nat.mod_eq_of_lt shift_lt, Nat.shiftRight_eq_div_pow, mark_eq,
    ← Nat.two_pow_add_eq_or_of_lt small, UInt8.toNat_ofNat']

theorem trailByte_eq (shift_lt : shift.toNat < 32) :
    trailByte code shift = continuation (code.toNat / 2 ^ shift.toNat) := by
  have small : code.toNat / 2 ^ shift.toNat % 0x40 < 2 ^ 7 :=
    Nat.lt_trans (Nat.mod_lt _ (by decide)) (by decide)
  have mask : code.toNat / 2 ^ shift.toNat &&& 0x3F = code.toNat / 2 ^ shift.toNat % 0x40 :=
    Nat.and_two_pow_sub_one_eq_mod _ 6
  have marked : 0x80 ||| code.toNat / 2 ^ shift.toNat % 0x40 =
      0x80 + code.toNat / 2 ^ shift.toNat % 0x40 :=
    (Nat.two_pow_add_eq_or_of_lt small 1).symm
  apply UInt8.toNat_inj.mp
  rw [trailByte, UInt32.toNat_toUInt8, UInt32.toNat_or, UInt32.toNat_and, UInt32.toNat_shiftRight,
    Nat.mod_eq_of_lt shift_lt, Nat.shiftRight_eq_div_pow]
  change (0x80 ||| (_ &&& 0x3F)) % 2 ^ 8 = _
  rw [mask, marked, continuation, UInt8.toNat_ofNat']

/-- The bits of the bytes make the arithmetic encoding. -/
theorem append_of_isScalar (out : Bytes) (scalar : isScalar code.toNat) :
    append out code = (true, out ++ encodeCode code.toNat) := by
  have bound : code.toNat < 0x110000 := by
    simp only [isScalar, Bool.or_eq_true, Bool.and_eq_true, decide_eq_true_eq] at scalar
    omega
  have last : trailByte code 0 = continuation code.toNat := by
    rw [trailByte_eq (by decide)]
    exact congrArg continuation (Nat.div_one _)
  have second : trailByte code 6 = continuation (code.toNat / 0x40) := trailByte_eq (by decide)
  have third : trailByte code 12 = continuation (code.toNat / 0x1000) := trailByte_eq (by decide)
  simp only [append, isScalarCode_eq, scalar, encodeCode, last, second, third,
    UInt32.le_iff_toNat_le, UInt32.reduceToNat, Bool.not_true, Bool.false_eq_true, if_false]
  by_cases one : code.toNat < 0x80
  · rw [if_pos one, if_pos (by omega)]
    rfl
  by_cases two : code.toNat < 0x800
  · have mark : (0xC0 : UInt32).toNat = 2 ^ 6 * 3 := rfl
    have small : code.toNat / 0x40 < 2 ^ 6 := by omega
    have lead : leadByte 0xC0 code 6 = UInt8.ofNat (0xC0 + code.toNat / 0x40) :=
      leadByte_eq mark (by decide) small
    rw [if_neg one, if_pos two, if_neg (by omega), if_pos (by omega), lead]
  by_cases three : code.toNat < 0x10000
  · have mark : (0xE0 : UInt32).toNat = 2 ^ 5 * 7 := rfl
    have small : code.toNat / 0x1000 < 2 ^ 5 := by omega
    have lead : leadByte 0xE0 code 12 = UInt8.ofNat (0xE0 + code.toNat / 0x1000) :=
      leadByte_eq mark (by decide) small
    rw [if_neg one, if_neg two, if_pos three, if_neg (by omega), if_neg (by omega),
      if_pos (by omega), lead]
  · have mark : (0xF0 : UInt32).toNat = 2 ^ 4 * 15 := rfl
    have small : code.toNat / 0x40000 < 2 ^ 4 := by omega
    have lead : leadByte 0xF0 code 18 = UInt8.ofNat (0xF0 + code.toNat / 0x40000) :=
      leadByte_eq mark (by decide) small
    rw [if_neg one, if_neg two, if_neg three, if_neg (by omega), if_neg (by omega),
      if_neg (by omega), lead]

theorem append_of_not_isScalar (out : Bytes) (refused : isScalar code.toNat = false) :
    append out code = (false, out) := by
  rw [append, isScalarCode_eq, refused]
  rfl

theorem payload?_eq (b : Byte) :
    payload? b = if b &&& 0xC0 = 0x80 then some (b &&& 0x3F).toNat else none := by
  revert b
  apply Byte.forall_of_fin
  decide +kernel

theorem lead?_eq (b : Byte) :
    lead? b =
      if 0xC0 ≤ b && b < 0xE0 then some ⟨2, UInt32.ofNat (b.toNat - 0xC0), 0x80⟩
      else if 0xE0 ≤ b && b < 0xF0 then some ⟨3, UInt32.ofNat (b.toNat - 0xE0), 0x800⟩
      else if 0xF0 ≤ b && b < 0xF8 then some ⟨4, UInt32.ofNat (b.toNat - 0xF0), 0x10000⟩
      else none := by
  revert b
  apply Byte.forall_of_fin
  decide +kernel

/-- The bits of a byte are put behind those of a code that leaves room for them. -/
theorem gather?_cons {n : Nat} (room : n < 2 ^ 26) (b : Byte) (rest : Bytes) :
    gather? (UInt32.ofNat n) (b :: rest) =
      (payload? b).bind fun bits => gather? (UInt32.ofNat (n * 0x40 + bits)) rest := by
  rw [gather?, payload?_eq]
  by_cases continues : b &&& 0xC0 = 0x80
  · have size_eq : UInt32.size = 2 ^ 32 := rfl
    have small : (b &&& 0x3F).toNat < 2 ^ 6 :=
      (payload?_eq_some_iff.mp ((payload?_eq b).trans (if_pos continues))).1
    have joined : UInt32.ofNat n <<< 6 ||| (b &&& 0x3F).toUInt32 =
        UInt32.ofNat (n * 0x40 + (b &&& 0x3F).toNat) := by
      apply UInt32.toNat_inj.mp
      rw [UInt32.toNat_or, UInt32.toNat_shiftLeft, UInt32.toNat_ofNat_of_lt' (by omega),
        UInt32.toNat_ofNat_of_lt' (by omega), UInt8.toNat_toUInt32]
      change n <<< 6 % 2 ^ 32 ||| _ = _
      rw [Nat.mod_eq_of_lt (by rw [Nat.shiftLeft_eq]; omega), ← Nat.shiftLeft_add_eq_or_of_lt small,
        Nat.shiftLeft_eq]
    rw [if_pos continues, if_pos continues, Option.bind_some, joined]
  · rw [if_neg continues, if_neg continues, Option.bind_none]

/-- One more byte is read by both decoders. -/
theorem gather?_bind {α β : Type} {n : Nat} {b : Byte} {rest : Bytes}
    {check : UInt32 → Option β} {next : Nat → Option α} {give : α → β} (room : n < 2 ^ 26)
    (same : ∀ bits < 0x40, (gather? (UInt32.ofNat (n * 0x40 + bits)) rest).bind check =
      (next bits).map give) :
    (gather? (UInt32.ofNat n) (b :: rest)).bind check = ((payload? b).bind next).map give := by
  rw [gather?_cons room]
  cases read : payload? b with
  | none => rfl
  | some bits => exact same bits (payload?_eq_some_iff.mp read).1

theorem gather?_accept {n code : Nat} (code_eq : code = n) (bound : n < 2 ^ 32) (least : UInt32)
    (length : Nat) :
    ((gather? (UInt32.ofNat n) []).bind fun code =>
      if code < least || !isScalarCode code then none else some (code, length)) =
        (accept? least.toNat code length).map fun result => (result.1.val, result.2) := by
  subst code_eq
  have toNat_eq : (UInt32.ofNat code).toNat = code := UInt32.toNat_ofNat_of_lt' bound
  simp only [gather?, Option.bind_some, isScalarCode_eq, accept?, scalar?, UInt32.lt_iff_toNat_lt,
    toNat_eq]
  cases scalar : isScalar code with
  | false => simp
  | true =>
    have val_eq : (Char.ofNat code).val = UInt32.ofNat code := by
      apply UInt32.toNat_inj.mp
      rw [toNat_eq]
      exact toNat_ofNat_of_isScalar scalar
    by_cases enough : least.toNat ≤ code
    · simp [enough, val_eq]
    · simp [enough, Nat.lt_of_not_le enough]

/-- The decoder that works on bits reads the same characters. -/
theorem decodeBits?_eq (bytes : Bytes) :
    decodeBits? bytes = (decode? bytes).map fun result => (result.1.val, result.2) := by
  cases bytes with
  | nil => rfl
  | cons b rest =>
    have byte_lt : b.toNat < 2 ^ 8 := b.toNat_lt
    unfold decodeBits? decode?
    dsimp only [bind]
    rw [lead?_eq]
    by_cases one : b < 0x80
    · have scalar : isScalar b.toNat := by
        simp only [isScalar, Bool.or_eq_true, decide_eq_true_eq]
        omega
      have val_eq : b.toUInt32 = (Char.ofNat b.toNat).val :=
        UInt32.toNat_inj.mp (toNat_ofNat_of_isScalar scalar).symm
      rw [if_pos one, if_pos one, accept?, if_pos (Nat.zero_le _), scalar?, if_pos scalar, val_eq]
      rfl
    rw [if_neg one, if_neg one]
    split
    · rcases rest with _ | ⟨b₁, more⟩
      · rfl
      · have enough : ¬(b₁ :: more).length + 1 < 2 := by simp
        rw [Option.bind_some, if_neg enough]
        exact gather?_bind (by omega) fun p first =>
          gather?_accept rfl (by omega) 0x80 2
    split
    · rcases rest with _ | ⟨b₁, _ | ⟨b₂, more⟩⟩
      · rfl
      · rfl
      · have enough : ¬(b₁ :: b₂ :: more).length + 1 < 3 := by simp
        rw [Option.bind_some, if_neg enough]
        exact gather?_bind (by omega) fun p first => gather?_bind (by omega) fun q second =>
          gather?_accept (by omega) (by omega) 0x800 3
    split
    · rcases rest with _ | ⟨b₁, _ | ⟨b₂, _ | ⟨b₃, more⟩⟩⟩
      · rfl
      · rfl
      · rfl
      · have enough : ¬(b₁ :: b₂ :: b₃ :: more).length + 1 < 4 := by simp
        rw [Option.bind_some, if_neg enough]
        exact gather?_bind (by omega) fun p first => gather?_bind (by omega) fun q second =>
          gather?_bind (by omega) fun r third =>
            gather?_accept (by omega) (by omega) 0x10000 4
    · rfl

end AssemblyLexer.Utf8
