import AssemblyLexer.Proofs.CodecBits
import AssemblyLexer.Proofs.Stretch
import AssemblyLexer.Segment.Escape

/-!
What a run through an escape comes to. A single byte has its meaning, `x` goes on
with two digits, and `u` with digits in braces. Of the number that the digits
stand for a run keeps the value modulo 2^32, and whether that is all of it, so
that digits of any length are refused exactly if no character has that number.
-/

set_option autoImplicit false

namespace AssemblyLexer

theorem Byte.eq_of_ofUInt8 {b : Byte} {c : Char} (spells : Char.ofUInt8 b = c) :
    b = c.toUInt8 := by
  subst spells
  exact (UInt8.toUInt8_toUInt32 b).symm

namespace EscapeSymbol

def isHex : EscapeSymbol → Bool
  | digit | upperHex | lowerHex => true
  | _ => false

/-- The value of a byte, if it is a digit or a letter. -/
def key (b : Byte) : Byte :=
  b - (ofByte b).basis

theorem digitValue?_eq (b : Byte) :
    b.digitValue? = if (ofByte b).isHex then some (key b).toNat else none := by
  revert b
  apply Byte.forall_of_fin
  decide +kernel

theorem ofByte_eq_openBrace_iff (b : Byte) : ofByte b = openBrace ↔ b = Byte.openBrace := by
  revert b
  apply Byte.forall_of_fin
  decide +kernel

theorem ofByte_eq_closeBrace_iff (b : Byte) : ofByte b = closeBrace ↔ b = Byte.closeBrace := by
  revert b
  apply Byte.forall_of_fin
  decide +kernel

end EscapeSymbol

namespace EscapePhase

variable {symbol : EscapeSymbol}

/-- Where digits may stand, the symbol is taken as one and leads from phase to phase. -/
structure Takes (symbol : EscapeSymbol) : Prop where
  afterX : afterX.transition symbol = ⟨true, .proceed afterDigit⟩
  afterDigit : afterDigit.transition symbol = ⟨true, .numeric⟩
  afterBrace : afterBrace.transition symbol = ⟨true, .proceed digits⟩
  digits : digits.transition symbol = ⟨true, .proceed digits⟩

/-- Where digits may stand, the symbol is refused, unless it closes a brace behind digits. -/
structure Refuses (symbol : EscapeSymbol) : Prop where
  afterX : afterX.transition symbol = ⟨false, .invalid⟩
  afterDigit : afterDigit.transition symbol = ⟨false, .invalid⟩
  afterBrace : afterBrace.transition symbol = ⟨false, .invalid⟩
  digits : symbol ≠ .closeBrace → digits.transition symbol = ⟨false, .invalid⟩

theorem takes_of_isHex (isHex : symbol.isHex) : Takes symbol := by
  cases symbol with
  | digit | upperHex | lowerHex => exact ⟨rfl, rfl, rfl, rfl⟩
  | _ => cases isHex

theorem refuses_of_not_isHex (noHex : symbol.isHex = false) : Refuses symbol := by
  cases symbol with
  | digit | upperHex | lowerHex => cases noHex
  | closeBrace => exact ⟨rfl, rfl, rfl, fun noBrace => absurd rfl noBrace⟩
  | _ => exact ⟨rfl, rfl, rfl, fun _ => rfl⟩

theorem transition_afterU (noBrace : symbol ≠ .openBrace) :
    afterU.transition symbol = ⟨false, .invalid⟩ := by
  cases symbol with
  | openBrace => exact absurd rfl noBrace
  | _ => rfl

end EscapePhase

namespace EscapeCode

/-- The code has taken in the number and remembers whether it wrapped. -/
structure Keeps (c : EscapeCode) (n : Nat) : Prop where
  value_eq : c.value.toNat = n % UInt32.size
  overflowed_iff : c.overflowed = true ↔ UInt32.size ≤ n

theorem keeps_zero : zero.Keeps 0 :=
  ⟨rfl, by decide⟩

/-- A number that wraps once has wrapped for good, since it only grows. -/
theorem Keeps.push {c : EscapeCode} {n : Nat} (keeps : c.Keeps n) {digit : Byte}
    (small : digit.toNat < 16) : (c.push digit).Keeps (n * 16 + digit.toNat) := by
  have size_eq : UInt32.size = 2 ^ 32 := rfl
  have scaled : (c.value * 16).toNat = n * 16 % UInt32.size := by
    rw [UInt32.toNat_mul, keeps.value_eq]
    exact Nat.mod_mul_mod n 16 UInt32.size
  constructor
  · rw [EscapeCode.push, UInt32.toNat_add, scaled, UInt8.toNat_toUInt32]
    exact Nat.mod_add_mod _ _ _
  · rw [EscapeCode.push, Bool.or_eq_true, Bool.or_eq_true, decide_eq_true_eq, decide_eq_true_eq,
      keeps.overflowed_iff, scaled, keeps.value_eq, size_eq]
    omega

end EscapeCode

namespace Escape

def isDigit (b : Byte) : Bool :=
  b.digitValue?.isSome

/-- The byte meant by an escape of a single byte. -/
def meaning? (b : Byte) : Option Byte :=
  match Char.ofUInt8 b with
  | '"' | '\'' | '\\' => some b
  | '0' => some 0x00
  | 'a' | 'A' => some 0x07
  | 'b' | 'B' => some 0x08
  | 't' | 'T' => some 0x09
  | 'n' | 'N' => some 0x0A
  | 'v' | 'V' => some 0x0B
  | 'f' | 'F' => some 0x0C
  | 'r' | 'R' => some 0x0D
  | 'e' | 'E' => some 0x1B
  | 's' | 'S' => some 0x20
  | 'd' | 'D' => some 0x7F
  | _ => none

def value (digits : Bytes) : Nat :=
  (digits.filterMap Byte.digitValue?).foldl (fun total digit => total * 16 + digit) 0

/-- The escape breaks off before the remaining bytes. -/
def broken (length : Nat) (remaining : Bytes) : Escape :=
  failed length length (if remaining.isEmpty then .incompleteEscape else .invalidEscape)

/-- The escape gives a code, which must be the code of a character. -/
def coded (length code : Nat) : Escape :=
  match Utf8.scalar? code with
  | some c => ⟨length, .ok (Utf8.encode c)⟩
  | none => failed length length .invalidEscape

theorem length_broken (length : Nat) (remaining : Bytes) :
    (broken length remaining).length = length := rfl

theorem length_coded (length code : Nat) : (coded length code).length = length := by
  unfold coded
  split <;> rfl

theorem coded_of_isScalar {length code : Nat} (scalar : Utf8.isScalar code) :
    coded length code = ⟨length, .ok (Utf8.encode (Char.ofNat code))⟩ := by
  simp [coded, Utf8.scalar?, scalar]

theorem coded_of_not_isScalar {length code : Nat} (notScalar : Utf8.isScalar code = false) :
    coded length code = failed length length .invalidEscape := by
  simp [coded, Utf8.scalar?, notScalar]

theorem isDigit_eq (b : Byte) : isDigit b = (EscapeSymbol.ofByte b).isHex := by
  rw [isDigit, EscapeSymbol.digitValue?_eq]
  cases (EscapeSymbol.ofByte b).isHex <;> rfl

theorem digitValue?_of_isDigit {d : Byte} (digit : isDigit d) :
    d.digitValue? = some (EscapeSymbol.key d).toNat := by
  rw [isDigit_eq] at digit
  rw [EscapeSymbol.digitValue?_eq, if_pos digit]

theorem takes_of_isDigit {d : Byte} (digit : isDigit d) : EscapePhase.Takes (.ofByte d) :=
  EscapePhase.takes_of_isHex (isDigit_eq d ▸ digit)

theorem refuses_of_stops {after : Bytes} (stops : StopsClass isDigit after) {b : Byte}
    (isHead : b ∈ after.head?) : EscapePhase.Refuses (.ofByte b) :=
  EscapePhase.refuses_of_not_isHex (isDigit_eq b ▸ stops b isHead)

theorem value_concat {d : Byte} (digit : isDigit d) (before : Bytes) :
    value (before ++ [d]) = value before * 16 + (EscapeSymbol.key d).toNat := by
  have last : [d].filterMap Byte.digitValue? = [(EscapeSymbol.key d).toNat] :=
    List.filterMap_cons_some (digitValue?_of_isDigit digit)
  rw [value, List.filterMap_append, last, List.foldl_append]
  rfl

/-- The code keeps the number of the digits that have been read. -/
theorem keeps_push {code : EscapeCode} {before : Bytes} (keeps : code.Keeps (value before)) {d : Byte}
    (digit : isDigit d) : (code.push (EscapeSymbol.key d)).Keeps (value (before ++ [d])) := by
  rw [value_concat digit]
  exact keeps.push (Byte.digitValue?_lt (digitValue?_of_isDigit digit))

variable {code : EscapeCode} {n taken : Nat}

/-- A run that has read a number gives the character with that number. -/
theorem coded_of_keeps (keeps : code.Keeps n) (length : Nat) :
    (match code.bytes? with
      | some bytes => ⟨length, .ok bytes⟩
      | none => failed length length .invalidEscape) = coded length n := by
  cases overflowed : code.overflowed with
  | true =>
    have large := keeps.overflowed_iff.mp overflowed
    have refused : Utf8.isScalar n = false := by
      rw [UInt32.size] at large
      simp only [Utf8.isScalar, Bool.or_eq_false_iff, Bool.and_eq_false_iff, decide_eq_false_iff_not]
      omega
    rw [EscapeCode.bytes?, overflowed, coded_of_not_isScalar refused]
    rfl
  | false =>
    have value_eq : code.value.toNat = n := by
      have small : n < UInt32.size := by
        apply Nat.lt_of_not_le
        intro large
        cases overflowed.symm.trans (keeps.overflowed_iff.mpr large)
      rw [keeps.value_eq, Nat.mod_eq_of_lt small]
    rw [EscapeCode.bytes?, overflowed]
    cases scalar : Utf8.isScalar n with
    | true =>
      rw [Utf8.append_of_isScalar [] (value_eq ▸ scalar), coded_of_isScalar scalar, Utf8.encode,
        Utf8.toNat_ofNat_of_isScalar scalar, value_eq]
      rfl
    | false =>
      rw [Utf8.append_of_not_isScalar [] (value_eq ▸ scalar), coded_of_not_isScalar scalar]
      rfl

/-- A run breaks off before bytes of which it refuses the first. -/
theorem run_eq_broken {phase : EscapePhase} {bytes : Bytes}
    (refuses : ∀ b ∈ bytes.head?, phase.transition (.ofByte b) = ⟨false, .invalid⟩) :
    run phase code taken bytes = broken taken bytes := by
  cases bytes with
  | nil => rfl
  | cons b rest =>
    rw [run, refuses b rfl]
    rfl

theorem run_afterX {d : Byte} (digit : isDigit d) (rest : Bytes) :
    run .afterX code taken (d :: rest) =
      run .afterDigit (code.push (EscapeSymbol.key d)) (taken + 1) rest := by
  rw [run, (takes_of_isDigit digit).afterX]
  rfl

theorem run_afterDigit {d : Byte} (digit : isDigit d) {before : Bytes}
    (keeps : code.Keeps (value before)) (rest : Bytes) :
    run .afterDigit code taken (d :: rest) = coded (taken + 1) (value (before ++ [d])) := by
  rw [run, (takes_of_isDigit digit).afterDigit]
  exact coded_of_keeps (keeps_push keeps digit) (taken + 1)

/-- Digits are taken into the code one after another. -/
theorem run_digits {digits before : Bytes} (all : ∀ d ∈ digits, isDigit d)
    (keeps : code.Keeps (value before)) (taken : Nat) (after : Bytes) :
    ∃ code', code'.Keeps (value (before ++ digits)) ∧
      run .digits code taken (digits ++ after) = run .digits code' (taken + digits.length) after := by
  induction digits generalizing code before taken with
  | nil => exact ⟨code, (List.append_nil before).symm ▸ keeps, rfl⟩
  | cons d digits ih =>
    obtain ⟨digit, all'⟩ := List.forall_mem_cons.mp all
    obtain ⟨code', keeps', run_eq⟩ := ih all' (keeps_push keeps digit) (taken + 1)
    rw [List.append_assoc, List.singleton_append] at keeps'
    refine ⟨code', keeps', ?_⟩
    rw [List.cons_append, run, (takes_of_isDigit digit).digits, List.length_cons,
      Nat.add_comm digits.length 1, ← Nat.add_assoc]
    exact run_eq

theorem run_afterBrace {d : Byte} (digit : isDigit d) (code : EscapeCode) (taken : Nat)
    (rest : Bytes) : run .afterBrace code taken (d :: rest) = run .digits code taken (d :: rest) := by
  have takes := takes_of_isDigit digit
  rw [run, run, takes.afterBrace, takes.digits]

theorem run_closeBrace (keeps : code.Keeps n) (taken : Nat) (after : Bytes) :
    run .digits code taken (Byte.closeBrace :: after) = coded (taken + 1) n :=
  coded_of_keeps keeps (taken + 1)

/-! Escapes by their forms. -/

theorem scan_letterX {x : Byte} (letter : x = 0x58 ∨ x = 0x78) (rest : Bytes) :
    scan (x :: rest) = run .afterX .zero 1 rest := by
  rcases letter with rfl | rfl <;> rfl

theorem scan_letterU {u : Byte} (letter : u = 0x55 ∨ u = 0x75) (rest : Bytes) :
    scan (u :: rest) = run .afterU .zero 1 rest := by
  rcases letter with rfl | rfl <;> rfl

theorem scan_of_pair {x high low : Byte} (letter : x = 0x58 ∨ x = 0x78) (isHigh : isDigit high)
    (isLow : isDigit low) (after : Bytes) :
    scan (x :: high :: low :: after) = coded 3 (value [high, low]) := by
  have keeps : EscapeCode.zero.Keeps (value []) := EscapeCode.keeps_zero
  rw [scan_letterX letter, run_afterX isHigh, run_afterDigit isLow (keeps_push keeps isHigh)]
  rfl

theorem scan_of_short_pair {x : Byte} {digits after : Bytes} (letter : x = 0x58 ∨ x = 0x78)
    (short : digits.length < 2) (all : ∀ d ∈ digits, isDigit d) (stops : StopsClass isDigit after) :
    scan (x :: digits ++ after) = broken (digits.length + 1) after := by
  rw [List.cons_append, scan_letterX letter]
  match digits, short with
  | [], _ =>
    apply run_eq_broken
    intro b isHead
    exact (refuses_of_stops stops isHead).afterX
  | [high], _ =>
    rw [List.singleton_append, run_afterX (all high List.mem_cons_self)]
    apply run_eq_broken
    intro b isHead
    exact (refuses_of_stops stops isHead).afterDigit

theorem scan_of_noBrace {u : Byte} {rest : Bytes} (letter : u = 0x55 ∨ u = 0x75)
    (noBrace : StopsClass (· == Byte.openBrace) rest) : scan (u :: rest) = broken 1 rest := by
  rw [scan_letterU letter]
  apply run_eq_broken
  intro b isHead
  apply EscapePhase.transition_afterU
  rw [ne_eq, EscapeSymbol.ofByte_eq_openBrace_iff]
  exact ne_of_beq_false (noBrace b isHead)

theorem scan_openBrace {u : Byte} (letter : u = 0x55 ∨ u = 0x75) (rest : Bytes) :
    scan (u :: Byte.openBrace :: rest) = run .afterBrace .zero 2 rest :=
  scan_letterU letter (Byte.openBrace :: rest)

theorem scan_of_digits {u d : Byte} {digits : Bytes} (letter : u = 0x55 ∨ u = 0x75)
    (all : ∀ e ∈ d :: digits, isDigit e) (after : Bytes) :
    ∃ code, code.Keeps (value (d :: digits)) ∧
      scan (u :: Byte.openBrace :: d :: digits ++ after) =
        run .digits code (digits.length + 3) after := by
  have start : EscapeCode.zero.Keeps (value []) := EscapeCode.keeps_zero
  obtain ⟨code, keeps, run_eq⟩ := run_digits all start 2 after
  refine ⟨code, keeps, ?_⟩
  rw [List.cons_append, List.cons_append, scan_openBrace letter, List.cons_append,
    run_afterBrace (all d List.mem_cons_self), ← List.cons_append, run_eq, List.length_cons]
  congr 1
  omega

theorem scan_of_braced {u : Byte} {digits : Bytes} (letter : u = 0x55 ∨ u = 0x75)
    (nonempty : digits ≠ []) (all : ∀ d ∈ digits, isDigit d) (after : Bytes) :
    scan (u :: Byte.openBrace :: digits ++ Byte.closeBrace :: after) =
      coded (digits.length + 3) (value digits) := by
  cases digits with
  | nil => exact absurd rfl nonempty
  | cons d digits =>
    obtain ⟨code, keeps, scan_eq⟩ := scan_of_digits letter all (Byte.closeBrace :: after)
    rw [scan_eq, run_closeBrace keeps]
    rfl

theorem scan_of_unclosed {u : Byte} {digits after : Bytes} (letter : u = 0x55 ∨ u = 0x75)
    (all : ∀ d ∈ digits, isDigit d) (stops : StopsClass isDigit after)
    (unclosed : digits ≠ [] → after.head? ≠ some Byte.closeBrace) :
    scan (u :: Byte.openBrace :: digits ++ after) = broken (digits.length + 2) after := by
  cases digits with
  | nil =>
    rw [List.cons_append, List.cons_append, scan_openBrace letter]
    apply run_eq_broken
    intro b isHead
    exact (refuses_of_stops stops isHead).afterBrace
  | cons d digits =>
    obtain ⟨code, _, scan_eq⟩ := scan_of_digits letter all after
    rw [scan_eq]
    apply run_eq_broken
    intro b isHead
    apply (refuses_of_stops stops isHead).digits
    rw [ne_eq, EscapeSymbol.ofByte_eq_closeBrace_iff]
    rintro rfl
    exact unclosed (List.cons_ne_nil _ _) isHead

/-- What the table says of a byte that starts an escape, and what the byte means. -/
theorem start_cases (b : Byte) :
    (b = 0x58 ∨ b = 0x78) ∨ (b = 0x55 ∨ b = 0x75) ∨
      b.isLineBreak = true ∧ EscapePhase.start.transition (.ofByte b) = ⟨false, .invalid⟩ ∨
      b.isLineBreak = false ∧
        (EscapePhase.start.transition (.ofByte b) = ⟨false, .verbatim⟩ ∧ meaning? b = some b ∨
          EscapePhase.start.transition (.ofByte b) = ⟨false, .simple⟩ ∧
            meaning? b = simple? (EscapeSymbol.key b) ∨
          EscapePhase.start.transition (.ofByte b) = ⟨false, .unknown⟩ ∧ meaning? b = none) := by
  revert b
  apply Byte.forall_of_fin
  decide +kernel

theorem scan_other {b : Byte} (notPair : ¬(b = 0x58 ∨ b = 0x78))
    (notBraced : ¬(b = 0x55 ∨ b = 0x75)) (rest : Bytes) :
    scan (b :: rest) =
      if b.isLineBreak then broken 0 (b :: rest)
      else
        match meaning? b with
        | some meant => ⟨1, .ok [meant]⟩
        | none => failed 1 0 .unknownEscape := by
  rcases start_cases b with isPair | isBraced | ⟨isBreak, transition⟩ | ⟨goesOn, starts⟩
  · exact absurd isPair notPair
  · exact absurd isBraced notBraced
  · rw [scan, run, transition, isBreak]
    rfl
  · rw [scan, run, goesOn]
    rcases starts with ⟨transition, means⟩ | ⟨transition, means⟩ | ⟨transition, meaningless⟩
    · rw [transition, means]
      rfl
    · rw [transition, means]
      rfl
    · rw [transition, meaningless]
      rfl

/-- A pair is complete, or breaks off behind fewer digits. -/
theorem scan_pair_cases {x : Byte} (letter : x = 0x58 ∨ x = 0x78) (rest : Bytes) :
    (∃ high low after, rest = high :: low :: after ∧ isDigit high ∧ isDigit low ∧
      scan (x :: rest) = coded 3 (value [high, low])) ∨
    ∃ digits after, rest = digits ++ after ∧ digits.length < 2 ∧ (∀ d ∈ digits, isDigit d) ∧
      StopsClass isDigit after ∧ scan (x :: rest) = broken (digits.length + 1) after := by
  obtain ⟨digits, after, rfl, all, stops, _⟩ := exists_stretch isDigit rest
  by_cases short : digits.length < 2
  · exact .inr ⟨digits, after, rfl, short, all, stops, scan_of_short_pair letter short all stops⟩
  · match digits with
    | [] | [_] => simp at short
    | high :: low :: more =>
      have isHigh := all high List.mem_cons_self
      have isLow := all low (List.mem_cons_of_mem _ List.mem_cons_self)
      exact .inl ⟨high, low, more ++ after, rfl, isHigh, isLow,
        scan_of_pair letter isHigh isLow (more ++ after)⟩

/-- A braced escape breaks off at its brace, behind its digits, or not at all. -/
theorem scan_braced_cases {u : Byte} (letter : u = 0x55 ∨ u = 0x75) (rest : Bytes) :
    (StopsClass (· == Byte.openBrace) rest ∧ scan (u :: rest) = broken 1 rest) ∨
    (∃ digits after, rest = Byte.openBrace :: digits ++ Byte.closeBrace :: after ∧ digits ≠ [] ∧
      (∀ d ∈ digits, isDigit d) ∧ scan (u :: rest) = coded (digits.length + 3) (value digits)) ∨
    ∃ digits after, rest = Byte.openBrace :: digits ++ after ∧ (∀ d ∈ digits, isDigit d) ∧
      StopsClass isDigit after ∧ (digits ≠ [] → after.head? ≠ some Byte.closeBrace) ∧
      scan (u :: rest) = broken (digits.length + 2) after := by
  by_cases opens : rest.head? = some Byte.openBrace
  · obtain ⟨rest, rfl⟩ := List.head?_eq_some_iff.mp opens
    obtain ⟨digits, after, rfl, all, stops, _⟩ := exists_stretch isDigit rest
    right
    by_cases closes : digits ≠ [] ∧ after.head? = some Byte.closeBrace
    · obtain ⟨nonempty, head⟩ := closes
      obtain ⟨after, rfl⟩ := List.head?_eq_some_iff.mp head
      exact .inl ⟨digits, after, rfl, nonempty, all, scan_of_braced letter nonempty all after⟩
    · have unclosed : digits ≠ [] → after.head? ≠ some Byte.closeBrace :=
        fun nonempty head => closes ⟨nonempty, head⟩
      exact .inr ⟨digits, after, rfl, all, stops, unclosed,
        scan_of_unclosed letter all stops unclosed⟩
  · have noBrace : StopsClass (· == Byte.openBrace) rest := by
      intro b isHead
      rw [beq_eq_false_iff_ne]
      rintro rfl
      exact opens isHead
    exact .inl ⟨noBrace, scan_of_noBrace letter noBrace⟩

end Escape

end AssemblyLexer
