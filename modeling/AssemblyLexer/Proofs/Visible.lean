import AssemblyLexer.Dump.Row
import AssemblyLexer.Proofs.Run
import AssemblyLexer.Proofs.SegmentName

/-!
What rows show of tokens. Numerals, escapes and the bytes of names can all be seen, so that no
value of a token has a control byte in it, whatever the bytes of the source.
-/

set_option autoImplicit false

namespace AssemblyLexer

namespace Printable

/-- There is no control byte. -/
def Visible (bytes : Bytes) : Prop :=
  ∀ b ∈ bytes, b.isControl = false

instance (bytes : Bytes) : Decidable (Visible bytes) :=
  decidable_of_iff (bytes.all fun b => !b.isControl) (by simp [Visible])

variable {bytes left right : Bytes} {b : Byte}

@[simp]
theorem visible_nil : Visible [] := by simp [Visible]

@[simp]
theorem visible_cons : Visible (b :: bytes) ↔ b.isControl = false ∧ Visible bytes :=
  List.forall_mem_cons

@[simp]
theorem visible_append : Visible (left ++ right) ↔ Visible left ∧ Visible right :=
  List.forall_mem_append

theorem Visible.of_subset (visible : Visible right) (subset : left ⊆ right) : Visible left :=
  fun _ membership => visible _ (subset membership)

theorem Visible.take (visible : Visible bytes) (n : Nat) : Visible (bytes.take n) :=
  visible.of_subset (List.take_subset n bytes)

theorem Visible.drop (visible : Visible bytes) (n : Nat) : Visible (bytes.drop n) :=
  visible.of_subset (List.drop_subset n bytes)

theorem visible_replicate (n : Nat) (seen : b.isControl = false) :
    Visible (List.replicate n b) := by
  intro other membership
  rwa [List.eq_of_mem_replicate membership]

/-- The characters of a literal are there without decoding it. -/
theorem visible_ofString {characters : List Char}
    (seen : characters.all fun c => Visible (Utf8.encode c)) :
    Visible (Utf8.ofString (String.ofList characters)) := by
  rw [Utf8.ofString, String.toList_ofList]
  intro b membership
  obtain ⟨c, isCharacter, inside⟩ := List.mem_flatMap.mp membership
  exact of_decide_eq_true (List.all_eq_true.mp seen c isCharacter) b inside

theorem Visible.lineFeed_notMem (visible : Visible bytes) : Byte.lineFeed ∉ bytes := by
  intro membership
  exact absurd (visible _ membership) (by decide)

theorem Visible.padLeft (visible : Visible bytes) (width : Nat) : Visible (padLeft width bytes) :=
  visible_append.mpr ⟨visible_replicate _ (by decide), visible⟩

theorem Visible.padRight (visible : Visible bytes) (width : Nat) : Visible (padRight width bytes) :=
  visible_append.mpr ⟨visible, visible_replicate _ (by decide)⟩

end Printable

namespace Numeral

open Printable

theorem exists_digitChar {base : Nat} (large : 1 < base) (n : Nat) {c : Char}
    (isDigit : c ∈ Nat.toDigits base n) : ∃ digit, c = Nat.digitChar digit := by
  rw [Nat.toDigits_eq_if large] at isDigit
  split at isDigit
  · exact ⟨n, List.mem_singleton.mp isDigit⟩
  · rcases List.mem_append.mp isDigit with before | isLast
    · exact exists_digitChar large (n / base) before
    · exact ⟨n % base, List.mem_singleton.mp isLast⟩
termination_by n
decreasing_by exact Nat.div_lt_self (by omega) large

theorem isControl_digitChar (digit : Nat) :
    Byte.isControl (Nat.digitChar digit).toUpper.toUInt8 = false := by
  have small : ∀ i : Fin 16, Byte.isControl (Nat.digitChar i).toUpper.toUInt8 = false := by decide
  rcases Nat.lt_or_ge digit 16 with within | beyond
  · exact small ⟨digit, within⟩
  · rw [Nat.digitChar_eq_star.mpr beyond]
    decide

theorem visible_write {base : Nat} (large : 1 < base) (n : Nat) : Visible (write base n) := by
  intro b membership
  obtain ⟨c, isDigit, rfl⟩ := List.mem_map.mp membership
  obtain ⟨digit, rfl⟩ := exists_digitChar large n isDigit
  exact isControl_digitChar digit

theorem visible_decimal (n : Nat) : Visible (decimal n) :=
  visible_write (by decide) n

theorem visible_hexadecimal (n : Nat) : Visible (hexadecimal n) :=
  visible_write (by decide) n

theorem visible_padded {numeral : Bytes} (visible : Visible numeral) (width : Nat) :
    Visible (padded width numeral) :=
  visible_append.mpr ⟨visible_replicate _ (by decide), visible⟩

end Numeral

namespace Printable

theorem visible_escape (b : Byte) : Visible (escape b) := by
  unfold escape
  split
  · decide
  · decide
  · decide
  · split
    · exact visible_append.mpr ⟨by decide, Numeral.visible_padded (Numeral.visible_hexadecimal _) 2⟩
    · next seen => simpa using seen

theorem visible_ofBytes (bytes : Bytes) : Visible (ofBytes bytes) := by
  intro b membership
  obtain ⟨source, _, escaped⟩ := List.mem_flatMap.mp membership
  exact visible_escape source b escaped

end Printable

namespace SignificantFormat

open Printable

theorem visible_fraction {digits : Bytes} (visible : Visible digits) : Visible (fraction digits) := by
  have kept : Visible (digits.reverse.dropWhile (· == 0x30)).reverse := by
    apply visible.of_subset
    intro b membership
    have isDigit := (List.dropWhile_subset _) (List.mem_reverse.mp membership)
    exact List.mem_reverse.mp isDigit
  rw [fraction]
  generalize (digits.reverse.dropWhile (· == 0x30)).reverse = shortened at kept ⊢
  cases shortened with
  | nil => exact visible_nil
  | cons => exact visible_cons.mpr ⟨by decide, kept⟩

theorem visible_exponent (format : SignificantFormat) (e : Int) : Visible (format.exponent e) := by
  rw [exponent]
  have sign : ((if e < 0 then Byte.minus else Byte.plus) : Byte).isControl = false := by
    split <;> decide
  have digits := Numeral.visible_padded (Numeral.visible_decimal e.natAbs) format.exponentWidth
  exact visible_cons.mpr ⟨by decide, visible_cons.mpr ⟨sign, digits⟩⟩

theorem visible_renderScientific (format : SignificantFormat) (s : Scientific) :
    Visible (format.renderScientific s) := by
  have digits := Numeral.visible_decimal s.significand
  rw [renderScientific]
  split
  · have mantissa := visible_append.mpr ⟨digits.take 1, visible_fraction (digits.drop 1)⟩
    exact visible_append.mpr ⟨mantissa, visible_exponent format _⟩
  split
  · have zeros := visible_replicate (-s.exponent - 1).toNat (b := 0x30) (by decide)
    exact visible_cons.mpr ⟨by decide, visible_fraction (visible_append.mpr ⟨zeros, digits⟩)⟩
  · exact visible_append.mpr ⟨digits.take _, visible_fraction (digits.drop _)⟩

theorem visible_render (format : SignificantFormat) (number : Binary64) :
    Visible (format.render number) := by
  unfold render
  split
  · decide
  · decide
  · exact visible_renderScientific _ _

end SignificantFormat

/-- The bytes of names can be seen. -/
theorem Byte.isControl_of_isNamePart {b : Byte} (isPart : b.isNamePart) : b.isControl = false := by
  have all : ∀ i : Fin 256, Byte.isNamePart (.ofFin i) → Byte.isControl (.ofFin i) = false := by
    decide +kernel
  exact all b.toFin isPart

open Printable in
theorem Row.visible_valueOf {t : Token} (seen : ∀ name ∈ t.name?, Visible name) :
    Visible (valueOf t) := by
  cases t with
  | identifier name => exact seen name rfl
  | label name scope =>
    have scope_seen : Visible (Utf8.ofString scope.spelling) := by
      cases scope <;> exact visible_ofString (by decide)
    have shown : Visible [Byte.space, 0x28] ∧ Visible [0x29] := by decide
    simp only [valueOf, visible_append]
    exact ⟨⟨⟨seen name rfl, shown.1⟩, scope_seen⟩, shown.2⟩
  | parameter name => exact seen name rfl
  | integer literal => exact Numeral.visible_decimal _
  | float literal => exact SignificantFormat.visible_render _ _
  | string content => exact visible_ofBytes content
  | character c content =>
    have digits := Numeral.visible_padded (Numeral.visible_hexadecimal c.toNat) 4
    exact visible_append.mpr ⟨by decide, digits⟩
  | symbol kind => exact visible_nil

/-! Names have no bytes but those that they may have. -/

namespace Token

/-- The name of the token, if it has one, is made of the bytes of names. -/
def Proper (t : Token) : Prop :=
  ∀ name ∈ t.name?, ∀ b ∈ name, b.isNamePart

theorem proper_of_name?_eq_none {t : Token} (nameless : t.name? = none) : t.Proper := by
  simp [Proper, nameless]

theorem Proper.visible {t : Token} (proper : t.Proper) : ∀ name ∈ t.name?, Printable.Visible name :=
  fun name isName b membership => Byte.isControl_of_isNamePart (proper name isName b membership)

end Token

/-- Every segment gives names of such bytes only. -/
theorem Segment.proper_scan {fresh : Bool} {first : Byte} {rest : Bytes} {t : Token}
    (found : (scan fresh first rest).token? = some t) : t.Proper :=
  fun _ named => isNamePart_of_named (named_scan found named)

namespace Lexer

variable {lexer after : Lexer} {all : List Scanned}

/-- The names that a run finds have no bytes but those of names. -/
theorem Runs.proper (runs : lexer.Runs all after) : ∀ s ∈ all, s.token.Proper := by
  induction runs with
  | last finishes =>
    have proper := Token.proper_of_name?_eq_none (congrArg Token.name? finishes.token_eq)
    simpa using proper
  | more takes _ ih =>
    refine List.forall_mem_cons.mpr ⟨?_, ih⟩
    cases takes with
    | intro skips remaining found => exact Segment.proper_scan found

end Lexer

end AssemblyLexer
