import AssemblyLexer.Proofs.NumberGrammar
import AssemblyLexer.Proofs.Operator
import AssemblyLexer.Proofs.SelfDelimiting

/-!
Where the bytes stand that can end a statement. Names, numbers, parameters and
operators have neither line breaks nor semicolons; these stand in comments and
in literals, behind a backslash, or by themselves.
-/

set_option autoImplicit false

namespace AssemblyLexer

/-- A line break or a semicolon. -/
def Byte.isEnding (b : Byte) : Bool :=
  b.isLineBreak || b == semicolon

def Unended (bytes : Bytes) : Prop :=
  ∀ b ∈ bytes, b.isEnding = false

@[simp]
theorem unended_nil : Unended [] :=
  fun _ membership => nomatch membership

@[simp]
theorem unended_cons {b : Byte} {rest : Bytes} :
    Unended (b :: rest) ↔ b.isEnding = false ∧ Unended rest :=
  List.forall_mem_cons

@[simp]
theorem unended_append {left right : Bytes} :
    Unended (left ++ right) ↔ Unended left ∧ Unended right :=
  List.forall_mem_append

/-- A byte of a class without line breaks and semicolons. -/
theorem isEnding_of_class {p : Byte → Bool} {b : Byte} (member : p b)
    (lineFeed : p Byte.lineFeed = false) (carriageReturn : p Byte.carriageReturn = false)
    (semicolon : p Byte.semicolon = false) : b.isEnding = false := by
  apply Bool.eq_false_iff.mpr
  intro isEnding
  rcases Bool.or_eq_true_iff.mp isEnding with isBreak | isSemicolon
  · rcases Byte.isLineBreak_iff.mp isBreak with rfl | rfl
    · exact Bool.false_ne_true (lineFeed.symm.trans member)
    · exact Bool.false_ne_true (carriageReturn.symm.trans member)
  · obtain rfl := eq_of_beq isSemicolon
    exact Bool.false_ne_true (semicolon.symm.trans member)

theorem unended_of_isNamePart {bytes : Bytes} (all : ∀ b ∈ bytes, b.isNamePart) : Unended bytes :=
  fun b membership => isEnding_of_class (all b membership) rfl rfl rfl

namespace NumberProgress

theorem isEnding_of_step? {radix : Radix} {p next : NumberProgress} {b : Byte}
    (step : p.step? radix b = some next) : b.isEnding = false := by
  have inside : (b.isNamePart || b.isSign) = true := by
    by_contra outside
    obtain ⟨noPart, noSign⟩ := not_or.mp (Bool.or_eq_true _ _ ▸ outside)
    have stops := (step?_eq_none_iff radix p b).mpr ⟨noPart, fun both => noSign both.1⟩
    cases stops.symm.trans step
  exact isEnding_of_class (p := fun d => d.isNamePart || d.isSign) inside rfl rfl rfl

theorem unended_run (radix : Radix) (p : NumberProgress) (taken : Nat) (bytes : Bytes) :
    Unended (bytes.take ((p.run radix taken bytes).2 - taken)) := by
  fun_induction run radix p taken bytes with
  | case1 => simp
  | case2 p taken b rest next step ih =>
    have passed := (run_taken radix next (taken + 1) rest).1
    generalize run radix next (taken + 1) rest = result at passed ih ⊢
    have taken_eq : result.2 - taken = result.2 - (taken + 1) + 1 := by omega
    rw [taken_eq, List.take_succ_cons]
    exact unended_cons.mpr ⟨isEnding_of_step? step, ih⟩
  | case3 => simp

end NumberProgress

theorem NumberScan.unended_scan (radix : Radix) (bytes : Bytes) :
    Unended (bytes.take (scan radix bytes).length) :=
  NumberProgress.unended_run radix .initial 0 bytes

theorem TokenKind.unended_grown (kind : TokenKind) (bytes : Bytes) :
    Unended (bytes.take (kind.grown bytes).2) := by
  have all : ∀ entry ∈ extensions, entry.2.1.isEnding = false := by decide
  intro b membership
  obtain ⟨entry, listed, rfl⟩ := kind.exists_extension_of_mem_grown bytes membership
  exact all entry listed

namespace Segment

theorem unended_parameter (rest : Bytes) : Unended (rest.take (parameter rest).tail) := by
  obtain ⟨name, behind, rfl, all, _, name_eq, _⟩ := exists_stretch Byte.isNamePart rest
  have tail_eq : (parameter (name ++ behind)).tail = name.length := congrArg List.length name_eq
  rw [tail_eq, List.take_left]
  exact unended_of_isNamePart all

theorem unended_operator (first : Byte) (rest : Bytes) :
    Unended (rest.take (operator first rest).tail) := by
  unfold operator
  split
  · exact TokenKind.unended_grown _ rest
  · exact unended_nil

theorem unended_decimal (first : Byte) (rest : Bytes) :
    Unended (rest.take (decimal first rest).tail) := by
  have scanned := NumberScan.unended_scan .decimal (first :: rest)
  rw [decimal, tail_number]
  cases taken : (NumberScan.scan .decimal (first :: rest)).length with
  | zero => exact unended_nil
  | succ more =>
    rw [taken, List.take_succ_cons] at scanned
    exact (unended_cons.mp scanned).2

theorem unended_labelScope (name after : Bytes) :
    Unended (after.take (labelScope name after).2) := by
  intro b membership
  rcases mem_take_labelScope membership with rfl | rfl <;> rfl

theorem unended_word (fresh : Bool) (first : Byte) (rest : Bytes) :
    Unended (rest.take (word fresh first rest).tail) := by
  have words := words_word fresh first rest
  generalize word fresh first rest = s at words ⊢
  cases words with
  | identifier all =>
    rw [token, List.take_left]
    exact unended_of_isNamePart all
  | @number more digits radix all =>
    have ofNumber := NumberScan.unended_scan radix digits
    rw [tail_number, Nat.add_assoc, List.take_length_add_append, Nat.add_comm 1,
      List.take_succ_cons]
    exact unended_append.mpr ⟨unended_of_isNamePart all, unended_cons.mpr ⟨rfl, ofNumber⟩⟩
  | invalid all =>
    rw [faulty, List.take_length_add_append]
    exact unended_append.mpr ⟨unended_of_isNamePart all, unended_cons.mpr ⟨rfl, unended_nil⟩⟩
  | @label more later _ all =>
    have ofScope := unended_labelScope (first :: more) later
    rw [token, Nat.add_assoc, List.take_length_add_append, Nat.add_comm 1, List.take_succ_cons]
    exact unended_append.mpr ⟨unended_of_isNamePart all, unended_cons.mpr ⟨rfl, ofScope⟩⟩

/-- The segments that can have a byte which ends a statement, and all the others. -/
inductive Closes (fresh : Bool) : Byte → Bytes → Segment → Prop
  | unended {first : Byte} {rest : Bytes} {s : Segment}
      (unended : Unended (first :: rest.take s.tail)) : Closes fresh first rest s
  | comment {rest : Bytes} : Closes fresh Byte.hash rest (comment rest)
  | quoted {quote : Byte} {rest : Bytes} (isQuote : Quoted.IsQuote quote) :
      Closes fresh quote rest (quoted quote rest)
  | backslash {rest : Bytes} : Closes fresh Byte.backslash rest (backslash rest)
  | semicolon {rest : Bytes} :
      Closes fresh Byte.semicolon rest (token .semicolon 0 (.symbol .endOfStatement))
  | lineBreak {first : Byte} {rest : Bytes} (isBreak : first.isLineBreak) :
      Closes fresh first rest (lineBreak fresh first rest)

theorem closes_scan (fresh : Bool) (first : Byte) (rest : Bytes) :
    Closes fresh first rest (scan fresh first rest) := by
  have selects := selects_scan fresh first
  generalize scan fresh first = scanner at selects ⊢
  cases selects with
  | blank isBlank =>
    exact .unended (unended_cons.mpr ⟨isEnding_of_class isBlank rfl rfl rfl, unended_nil⟩)
  | word isName =>
    have goesOn := isEnding_of_class isName rfl rfl rfl
    exact .unended (unended_cons.mpr ⟨goesOn, unended_word fresh first rest⟩)
  | decimal isDigit =>
    have goesOn := isEnding_of_class isDigit rfl rfl rfl
    exact .unended (unended_cons.mpr ⟨goesOn, unended_decimal first rest⟩)
  | lineBreak isBreak => exact .lineBreak isBreak
  | comment => exact .comment
  | backslash => exact .backslash
  | semicolon => exact .semicolon
  | parameter => exact .unended (unended_cons.mpr ⟨rfl, unended_parameter rest⟩)
  | quoted isQuote => exact .quoted isQuote
  | operator isOther =>
    have goesOn := isEnding_of_class isOther rfl rfl rfl
    exact .unended (unended_cons.mpr ⟨goesOn, unended_operator first rest⟩)

end Segment

end AssemblyLexer
