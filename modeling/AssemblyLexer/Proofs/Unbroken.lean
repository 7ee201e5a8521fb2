import AssemblyLexer.Position
import AssemblyLexer.Proofs.Unended

/-!
Where line breaks stand. Outside of quoted literals, no segment takes one but
those that start with a line break and a backslash that cancels one.
-/

set_option autoImplicit false

namespace AssemblyLexer

def Unbroken (bytes : Bytes) : Prop :=
  ∀ b ∈ bytes, b.isLineBreak = false

@[simp]
theorem unbroken_nil : Unbroken [] :=
  fun _ membership => nomatch membership

@[simp]
theorem unbroken_cons {b : Byte} {rest : Bytes} :
    Unbroken (b :: rest) ↔ b.isLineBreak = false ∧ Unbroken rest :=
  List.forall_mem_cons

@[simp]
theorem unbroken_append {left right : Bytes} :
    Unbroken (left ++ right) ↔ Unbroken left ∧ Unbroken right :=
  List.forall_mem_append

theorem Unbroken.noReturn {bytes : Bytes} (unbroken : Unbroken bytes) :
    Byte.carriageReturn ∉ bytes :=
  fun membership => absurd (unbroken _ membership) (by decide)

theorem unbroken_of_not_mem {bytes : Bytes} (noFeed : Byte.lineFeed ∉ bytes)
    (noReturn : Byte.carriageReturn ∉ bytes) : Unbroken bytes := by
  intro b membership
  apply Bool.eq_false_iff.mpr
  intro isBreak
  rcases Byte.isLineBreak_iff.mp isBreak with rfl | rfl
  · exact noFeed membership
  · exact noReturn membership

theorem Unended.unbroken {bytes : Bytes} (unended : Unended bytes) : Unbroken bytes :=
  fun b membership => (Bool.or_eq_false_iff.mp (unended b membership)).1

namespace Position

theorem pass_carriageReturn (p : Position) :
    p.pass Byte.carriageReturn = ⟨p.offset + 1, p.line + 1, p.offset + 1, true⟩ :=
  rfl

theorem pass_lineFeed (p : Position) :
    p.pass Byte.lineFeed =
      ⟨p.offset + 1, if p.afterReturn then p.line else p.line + 1, p.offset + 1, false⟩ :=
  rfl

theorem afterReturn_pass (p : Position) (b : Byte) :
    (p.pass b).afterReturn = decide (b = Byte.carriageReturn) := by
  by_cases isReturn : b = Byte.carriageReturn
  · rw [pass, if_pos isReturn, decide_eq_true isReturn]
  · rw [pass, if_neg isReturn, decide_eq_false isReturn]
    split <;> rfl

theorem pass_of_noBreak {b : Byte} (noBreak : b.isLineBreak = false) (p : Position) :
    p.pass b = ⟨p.offset + 1, p.line, p.lineStart, false⟩ := by
  rw [Byte.isLineBreak, Bool.or_eq_false_iff, beq_eq_false_iff_ne, beq_eq_false_iff_ne] at noBreak
  rw [pass, if_neg noBreak.2, if_neg noBreak.1]

/-- Bytes within a line only move the position on in it. -/
theorem passAll_of_unbroken {bytes : Bytes} (unbroken : Unbroken bytes) (p : Position) :
    p.passAll bytes = ⟨p.offset + bytes.length, p.line, p.lineStart, bytes.isEmpty && p.afterReturn⟩ := by
  induction bytes generalizing p with
  | nil => rfl
  | cons b rest ih =>
    obtain ⟨noBreak, unbroken⟩ := unbroken_cons.mp unbroken
    rw [passAll, List.foldl_cons, ← passAll, pass_of_noBreak noBreak, ih unbroken, List.length_cons]
    simp only [Bool.and_false, List.isEmpty_cons, Bool.false_and, Nat.add_assoc, Nat.add_comm 1]

end Position

namespace Escape

/-- In no phase does an escape go over a line break. -/
theorem noBreak_of_transition {phase : EscapePhase} {b : Byte} {action : EscapeAction}
    (action_eq : (phase.transition (.ofByte b)).action = action) (goesOn : action ≠ .invalid) :
    b.isLineBreak = false := by
  apply Bool.eq_false_iff.mpr
  intro isBreak
  have symbol_eq : EscapeSymbol.ofByte b = .lineBreak := by
    rcases Byte.isLineBreak_iff.mp isBreak with rfl | rfl <;> rfl
  rw [symbol_eq] at action_eq
  cases phase <;> exact goesOn action_eq.symm

theorem unbroken_run (phase : EscapePhase) (code : EscapeCode) (taken : Nat) (bytes : Bytes) :
    Unbroken (bytes.take ((run phase code taken bytes).length - taken)) := by
  have one : ∀ (taken : Nat) {b : Byte} (rest : Bytes), b.isLineBreak = false →
      Unbroken ((b :: rest).take (taken + 1 - taken)) := by
    intro taken b rest noBreak
    rw [Nat.add_sub_cancel_left]
    exact unbroken_cons.mpr ⟨noBreak, unbroken_nil⟩
  fun_induction run phase code taken bytes with
  | case1 => simp
  | case2 phase code taken b rest symbol transition key code' next action_eq ih =>
    have noBreak : b.isLineBreak = false := noBreak_of_transition action_eq (by simp)
    cases more : (run next code' (taken + 1) rest).length - taken with
    | zero => exact unbroken_nil
    | succ count =>
      have count_eq : (run next code' (taken + 1) rest).length - (taken + 1) = count := by omega
      rw [count_eq] at ih
      exact unbroken_cons.mpr ⟨noBreak, ih⟩
  | case3 phase code taken b rest symbol transition action_eq =>
    exact one taken rest (noBreak_of_transition action_eq (by simp))
  | case4 phase code taken b rest symbol transition key action_eq =>
    exact one taken rest (noBreak_of_transition action_eq (by simp))
  | case5 phase code taken b rest symbol transition key action_eq =>
    exact one taken rest (noBreak_of_transition action_eq (by simp))
  | case6 phase code taken b rest symbol transition key code' action_eq =>
    exact one taken rest (noBreak_of_transition action_eq (by simp))
  | case7 phase code taken b rest symbol transition key code' action_eq =>
    exact one taken rest (noBreak_of_transition action_eq (by simp))
  | case8 phase code taken b rest symbol transition action_eq =>
    exact one taken rest (noBreak_of_transition action_eq (by simp))
  | case9 => simp [failed]

theorem unbroken_scan (bytes : Bytes) : Unbroken (bytes.take (scan bytes).length) :=
  unbroken_run .start .zero 0 bytes

end Escape

namespace Segment

theorem unbroken_comment (rest : Bytes) : Unbroken (rest.take (comment rest).tail) := by
  obtain ⟨text, behind, rfl, all, _, text_eq, _⟩ := exists_stretch (fun b => !b.isLineBreak) rest
  have tail_eq : (comment (text ++ behind)).tail = text.length := congrArg List.length text_eq
  rw [tail_eq, List.take_left]
  exact fun b membership => Bool.not_eq_true' _ ▸ all b membership

theorem form_quoted (quote : Byte) (rest : Bytes) : (quoted quote rest).form = .quoted := by
  unfold quoted
  dsimp only
  repeat' split
  all_goals rfl

/-- The bytes that a segment takes, by where a line break may stand in them. -/
inductive Takes (fresh : Bool) : Byte → Bytes → Segment → Prop
  | unbroken {first : Byte} {rest : Bytes} {s : Segment}
      (unbroken : Unbroken (first :: rest.take s.tail)) : Takes fresh first rest s
  | quoted {first : Byte} {rest : Bytes} {s : Segment} (isQuoted : s.form = .quoted) :
      Takes fresh first rest s
  | lineBreak {first : Byte} {rest : Bytes} (isBreak : first.isLineBreak) :
      Takes fresh first rest (lineBreak fresh first rest)
  | continuation {b : Byte} {rest : Bytes} (isBreak : b.isLineBreak) :
      Takes fresh Byte.backslash (b :: rest) (skipped .continuation (breakTail b rest + 1))

theorem takes_backslash (fresh : Bool) (rest : Bytes) :
    Takes fresh Byte.backslash rest (backslash rest) := by
  cases rest with
  | nil => exact .unbroken (unbroken_cons.mpr ⟨rfl, unbroken_nil⟩)
  | cons b rest =>
    unfold backslash
    dsimp only
    by_cases isBreak : b.isLineBreak
    · rw [if_pos isBreak]
      exact .continuation isBreak
    · rw [if_neg isBreak]
      exact .unbroken (unbroken_cons.mpr ⟨rfl, unbroken_nil⟩)

theorem takes_scan (fresh : Bool) (first : Byte) (rest : Bytes) :
    Takes fresh first rest (scan fresh first rest) := by
  have closes := closes_scan fresh first rest
  generalize scan fresh first rest = s at closes ⊢
  cases closes with
  | unended unended => exact .unbroken unended.unbroken
  | comment => exact .unbroken (unbroken_cons.mpr ⟨rfl, unbroken_comment rest⟩)
  | quoted => exact .quoted (form_quoted first rest)
  | backslash => exact takes_backslash fresh rest
  | semicolon => exact .unbroken (unbroken_cons.mpr ⟨rfl, unbroken_nil⟩)
  | lineBreak isBreak => exact .lineBreak isBreak

end Segment

end AssemblyLexer
