import AssemblyLexer.Proofs.NumberScan
import AssemblyLexer.Proofs.Stretch

/-!
Runs of digits. The number that a run stands for is given as long as it fits. The
count of its digits is kept in a byte, in which zero also stands for a number that
does not fit, so that a run of 256 digits looks as if there were none.
-/

set_option autoImplicit false

namespace AssemblyLexer

/-- A byte that goes on with a run of digits. -/
def Radix.inRun (radix : Radix) (b : Byte) : Bool :=
  (radix.digit? b).isSome || b == Byte.underscore

def Radix.digits (radix : Radix) (bytes : Bytes) : List Nat :=
  bytes.filterMap radix.digit?

/-- The number that the digits among the bytes stand for. -/
def Radix.number (radix : Radix) (bytes : Bytes) : Nat :=
  digitsValue radix.value (radix.digits bytes)

theorem Radix.value_pos (radix : Radix) : 0 < radix.value := by
  cases radix <;> decide

namespace DigitProgress

variable {radix : Radix} {p : DigitProgress} {b : Byte}

theorem step?_eq_none_iff : p.step? radix b = none ↔ radix.inRun b = false := by
  rw [step?, Radix.inRun]
  cases radix.digit? b with
  | some value => simp
  | none => simp

/-- A run goes over the longest stretch of its bytes and gathers the digits among them. -/
theorem run_eq (radix : Radix) (p : DigitProgress) (taken : Nat) (bytes : Bytes) :
    p.run radix taken bytes =
      let stretch := bytes.takeWhile radix.inRun
      (⟨(radix.digits stretch).foldl (fun a digit => a.push radix.value digit) p.total,
        p.count + .ofNat (radix.digits stretch).length⟩, taken + stretch.length) := by
  fun_induction run radix p taken bytes with
  | case1 => simp [Radix.digits]
  | case2 p taken b rest next step ih =>
    have inRun : radix.inRun b := by
      rw [← Bool.not_eq_false, ← step?_eq_none_iff (p := p), step]
      simp
    rw [ih, List.takeWhile_cons_of_pos inRun]
    dsimp only
    rw [List.length_cons, Radix.digits, Radix.digits]
    rw [step?] at step
    cases digit : radix.digit? b with
    | some value =>
      rw [digit] at step
      cases step
      rw [List.filterMap_cons_some digit, List.foldl_cons, List.length_cons]
      simp [UInt8.ofNat_add, UInt8.add_assoc, UInt8.add_comm 1, Nat.add_assoc, Nat.add_comm 1]
    | none =>
      have next_eq : b = Byte.underscore ∧ p = next := by simpa [digit] using step
      rw [List.filterMap_cons_none digit, next_eq.2, Nat.add_assoc, Nat.add_comm 1]
  | case3 p taken b rest step =>
    have outside : ¬radix.inRun b = true := by
      rw [step?_eq_none_iff.mp step]
      exact Bool.false_ne_true
    simp [List.takeWhile_cons_of_neg outside, Radix.digits]

end DigitProgress

/-- Taking the bytes one after another comes to the same as looking at the whole stretch. -/
theorem DigitRun.scan_eq_result (radix : Radix) (bytes : Bytes) :
    scan radix bytes =
      (DigitProgress.initial.run radix 0 bytes).1.result
        (DigitProgress.initial.run radix 0 bytes).2 := by
  rw [DigitProgress.run_eq]
  simp only [DigitProgress.initial, UInt8.zero_add, Nat.zero_add]
  rfl

/-- What the scan of a run says of the bytes that it takes. -/
structure DigitRun.Gives (run : DigitRun) (radix : Radix) (taken : Bytes) : Prop where
  length_eq : run.length = taken.length
  value_eq : run.value.toNat = radix.number taken % UInt64.size
  count_eq : run.count =
    if UInt64.size ≤ radix.number taken then 0 else .ofNat (radix.digits taken).length

theorem DigitRun.gives_scan (radix : Radix) (bytes : Bytes) :
    (scan radix bytes).Gives radix (bytes.takeWhile radix.inRun) := by
  have keeps : (Accumulator.ofDigits radix.value
      (radix.digits (bytes.takeWhile radix.inRun))).Keeps _ :=
    Accumulator.keeps_ofDigits radix.value_pos _
  refine ⟨rfl, keeps.value_eq, ?_⟩
  change (if (Accumulator.ofDigits radix.value
    (radix.digits (bytes.takeWhile radix.inRun))).overflowed then (0 : UInt8) else _) = _
  simp only [keeps.overflowed_iff]
  rfl

variable {run : DigitRun} {radix : Radix} {taken : Bytes}

theorem DigitRun.Gives.count_eq_zero_iff (gives : run.Gives radix taken) :
    run.count = 0 ↔
      (radix.digits taken).length % UInt8.size = 0 ∨ UInt64.size ≤ radix.number taken := by
  rw [gives.count_eq]
  split
  · next large => simp [large]
  · next small =>
    rw [← UInt8.toNat_inj, UInt8.toNat_ofNat']
    simp [small]

theorem DigitRun.Gives.value_eq_of_count_ne_zero (gives : run.Gives radix taken)
    (counted : run.count ≠ 0) : run.value.toNat = radix.number taken := by
  have small : ¬UInt64.size ≤ radix.number taken := by
    intro large
    exact counted (gives.count_eq_zero_iff.mpr (.inr large))
  rw [gives.value_eq, Nat.mod_eq_of_lt (Nat.lt_of_not_le small)]

/-- The scan of a run leaves the reader behind the longest stretch of digits and underscores. -/
theorem Reader.exists_scanDigits (reader : Reader) (radix : Radix) :
    ∃ taken rest, reader.remaining = taken ++ rest ∧
      (reader.scanDigits radix).2 = reader.pass taken.length ∧
      (reader.scanDigits radix).2.position = reader.position + taken.length ∧
      (reader.scanDigits radix).2.remaining = rest ∧
      (∀ b ∈ taken, radix.inRun b) ∧ StopsClass radix.inRun rest ∧
      (reader.scanDigits radix).1.Gives radix taken := by
  obtain ⟨taken, rest, split, inside, stops, taken_eq, _⟩ :=
    exists_stretch radix.inRun reader.remaining
  have gives := DigitRun.gives_scan radix reader.remaining
  rw [taken_eq] at gives
  have passed_eq : (reader.scanDigits radix).2 = reader.pass taken.length :=
    congrArg reader.pass gives.length_eq
  obtain ⟨position_eq, remaining_eq⟩ := remaining_pass split
  exact ⟨taken, rest, split, passed_eq, passed_eq ▸ position_eq, passed_eq ▸ remaining_eq, inside,
    stops, gives⟩

/-- A run of digits is taken whole. Its count is zero just when the number of digits is a multiple
of 256, as it is when there is none, or when the number that they stand for does not fit 64 bits,
and with any other count the number is given as it is. -/
theorem Reader.scanDigits_counts (reader : Reader) (radix : Radix) :
    let (run, after) := reader.scanDigits radix
    ∃ taken rest, reader.remaining = taken ++ rest ∧ after.buffer = reader.buffer ∧
      after.position = reader.position + taken.length ∧ after.remaining = rest ∧
      (∀ b ∈ taken, radix.inRun b) ∧ StopsClass radix.inRun rest ∧
      (run.count = 0 ↔
        (radix.digits taken).length % UInt8.size = 0 ∨ UInt64.size ≤ radix.number taken) ∧
      (run.count ≠ 0 → run.value.toNat = radix.number taken) := by
  obtain ⟨taken, rest, split, _, position_eq, remaining_eq, inside, stops, gives⟩ :=
    reader.exists_scanDigits radix
  exact ⟨taken, rest, split, rfl, position_eq, remaining_eq, inside, stops,
    gives.count_eq_zero_iff, gives.value_eq_of_count_ne_zero⟩

/-- The number of 256 zeros fits, and yet their count is zero. -/
theorem Reader.scanDigits_miscounts :
    ¬∀ (reader : Reader) (radix : Radix),
      let taken := reader.remaining.takeWhile radix.inRun
      (reader.scanDigits radix).1.count = 0 ↔
        radix.digits taken = [] ∨ UInt64.size ≤ radix.number taken := by
  intro counts
  have zeros := counts (Reader.ofBuffer ⟨0, List.replicate 256 0x30⟩ 0) .decimal
  revert zeros
  decide +kernel

end AssemblyLexer
