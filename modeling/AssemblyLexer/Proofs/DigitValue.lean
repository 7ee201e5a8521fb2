import AssemblyLexer.Number.Accumulator
import Mathlib.Data.List.Induction
import Mathlib.Data.Nat.Digits.Defs

/-!
The number that digits stand for, and what an accumulator keeps of it: the number
modulo 2^64, and whether that is all of it.
-/

set_option autoImplicit false

namespace AssemblyLexer

/-- The number written by digits, the most significant first. -/
def digitsValue (base : Nat) (digits : List Nat) : Nat :=
  Nat.ofDigits base digits.reverse

@[simp]
theorem digitsValue_nil (base : Nat) : digitsValue base [] = 0 := rfl

@[simp]
theorem digitsValue_append_singleton (base : Nat) (digits : List Nat) (digit : Nat) :
    digitsValue base (digits ++ [digit]) = digitsValue base digits * base + digit := by
  rw [digitsValue, List.reverse_append, List.reverse_singleton, List.singleton_append,
    Nat.ofDigits_cons, Nat.add_comm, Nat.mul_comm]
  rfl

namespace Accumulator

/-- The accumulator has taken in the number and remembers whether it wrapped. -/
structure Keeps (a : Accumulator) (n : Nat) : Prop where
  value_eq : a.value.toNat = n % UInt64.size
  overflowed_iff : a.overflowed = true ↔ UInt64.size ≤ n

theorem keeps_zero : zero.Keeps 0 :=
  ⟨rfl, by decide⟩

theorem Keeps.push {a : Accumulator} {n base : Nat} (keeps : a.Keeps n) (positive : 0 < base)
    (digit : Nat) : (a.push base digit).Keeps (n * base + digit) := by
  have grows : n ≤ n * base := Nat.le_mul_of_pos_right n positive
  constructor
  · rw [Accumulator.push, UInt64.toNat_ofNat', keeps.value_eq]
    change (n % UInt64.size * base + digit) % UInt64.size = (n * base + digit) % UInt64.size
    rw [Nat.add_mod, Nat.mod_mul_mod, ← Nat.add_mod]
  · rw [Accumulator.push, Bool.or_eq_true, decide_eq_true_eq, keeps.overflowed_iff, keeps.value_eq]
    by_cases large : UInt64.size ≤ n
    · exact ⟨fun _ => by omega, fun _ => .inl large⟩
    · rw [Nat.mod_eq_of_lt (Nat.lt_of_not_le large)]
      exact ⟨fun either => either.resolve_left large, .inr⟩

theorem keeps_ofDigits {base : Nat} (positive : 0 < base) (digits : List Nat) :
    (ofDigits base digits).Keeps (digitsValue base digits) := by
  induction digits using List.reverseRecOn with
  | nil => exact keeps_zero
  | append_singleton digits digit ih =>
    rw [ofDigits, List.foldl_append, digitsValue_append_singleton]
    exact ih.push positive digit

end Accumulator

end AssemblyLexer
