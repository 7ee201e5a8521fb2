import AssemblyLexer.Proofs.Operator
import AssemblyLexer.Proofs.Unbroken
import AssemblyLexer.Scanner

/-!
The table of a scanner. Its modes fall into two families, one for statements without
a token so far and one for all others. What the table says of a byte fits the byte,
and whatever completes no token stays in the family.
-/

set_option autoImplicit false

namespace AssemblyLexer

namespace ScannerMode

/-- Where a token may start, by whether it would be the first of its statement. -/
def startOf (opens : Bool) : ScannerMode :=
  if opens then lineStart else normal

def commentOf (opens : Bool) : ScannerMode :=
  if opens then lineStartComment else comment

def backslashOf (opens : Bool) : ScannerMode :=
  if opens then lineStartBackslash else backslash

section Rows

variable (opens : Bool) {b : Byte}

theorem transition_end : (startOf opens).transition none = { action := .endOfSource, starts := true } := by
  cases opens <;> rfl

theorem transition_blank (isBlank : b.isBlank) :
    (startOf opens).transition (some b) = { action := .take, next := startOf opens } := by
  have all : ∀ b : Byte, b.isBlank → ∀ opens, (startOf opens).transition (some b) =
      { action := .take, next := startOf opens } := Byte.forall_of_fin (by decide +kernel)
  exact all b isBlank opens

theorem transition_word (isName : b.isNameStart) :
    (startOf opens).transition (some b) = { action := .word, starts := true } := by
  have all : ∀ b : Byte, b.isNameStart → ∀ opens, (startOf opens).transition (some b) =
      { action := .word, starts := true } := Byte.forall_of_fin (by decide +kernel)
  exact all b isName opens

theorem transition_decimal (isDigit : b.isDecimalDigit) :
    (startOf opens).transition (some b) = { action := .number, starts := true } := by
  have all : ∀ b : Byte, b.isDecimalDigit → ∀ opens, (startOf opens).transition (some b) =
      { action := .number, starts := true } := Byte.forall_of_fin (by decide +kernel)
  exact all b isDigit opens

/-- At the start of a line a line break is passed over, elsewhere it ends the statement. -/
theorem transition_lineBreak (isBreak : b.isLineBreak) :
    (startOf opens).transition (some b) =
      if opens then { action := .lineBreak, next := .lineStart }
      else { action := .endStatement, next := .lineStart, starts := true } := by
  rcases Byte.isLineBreak_iff.mp isBreak with rfl | rfl <;> cases opens <;> rfl

theorem transition_hash :
    (startOf opens).transition (some Byte.hash) = { action := .take, next := commentOf opens } := by
  cases opens <;> rfl

theorem transition_backslash :
    (startOf opens).transition (some Byte.backslash) =
      { action := .take, next := backslashOf opens, starts := true } := by
  cases opens <;> rfl

theorem transition_semicolon :
    (startOf opens).transition (some Byte.semicolon) =
      { action := .produce .endOfStatement, starts := true } := by
  cases opens <;> rfl

theorem transition_dollar :
    (startOf opens).transition (some Byte.dollar) = { action := .parameter, starts := true } := by
  cases opens <;> rfl

theorem transition_quote (isQuote : Quoted.IsQuote b) :
    (startOf opens).transition (some b) = { action := .quoted b, starts := true } := by
  rcases isQuote with rfl | rfl <;> cases opens <;> rfl

/-- A byte that starts nothing leaves the mode as it is. -/
theorem transition_other (isOther : b.isOther) :
    (startOf opens).transition (some b) =
      ((OperatorMove.ofFirst? b).map (ofMove 0 true)).getD
        { action := .unexpected, next := startOf opens } := by
  have all : ∀ b : Byte, b.isOther → ∀ opens, (startOf opens).transition (some b) =
      ((OperatorMove.ofFirst? b).map (ofMove 0 true)).getD
        { action := .unexpected, next := startOf opens } := Byte.forall_of_fin (by decide +kernel)
  exact all b isOther opens

/-- A comment ends as a line without it does. -/
theorem transition_comment {b? : Option Byte} (ends : ∀ b ∈ b?, b.isLineBreak) :
    (commentOf opens).transition b? = (startOf opens).transition b? := by
  cases b? with
  | none => cases opens <;> rfl
  | some b =>
    rcases Byte.isLineBreak_iff.mp (ends b rfl) with rfl | rfl <;> cases opens <;> rfl

theorem transition_inside_comment (noBreak : b.isLineBreak = false) :
    (commentOf opens).transition (some b) = { action := .take, next := commentOf opens } := by
  cases opens <;> simp [commentOf, transition, noBreak]

/-- A line break behind a backslash is passed over whatever the family. -/
theorem transition_continuation (isBreak : b.isLineBreak) :
    (backslashOf opens).transition (some b) = { action := .lineBreak, next := startOf opens } := by
  cases opens <;> simp [backslashOf, startOf, transition, isBreak]

theorem transition_stray {b? : Option Byte} (noBreak : b?.any Byte.isLineBreak = false) :
    (backslashOf opens).transition b? = { action := .stray, next := startOf opens } := by
  cases opens <;> simp [backslashOf, startOf, transition, noBreak]

end Rows

@[simp]
theorem resumed_startOf (opens : Bool) : (startOf opens).resumed = startOf opens := by
  cases opens <;> rfl

/-- The modes of one family. An operator may be in either. -/
inductive Suits (opens : Bool) : ScannerMode → Prop
  | start : Suits opens (startOf opens)
  | comment : Suits opens (commentOf opens)
  | backslash : Suits opens (backslashOf opens)
  | operator {state : OperatorState} {variant : Nat} (isBit : variant < 2) :
      Suits opens (.operator state variant)

/-- The start of a token, or of what should become one, has been marked. -/
def isBegun : ScannerMode → Bool
  | lineStartBackslash | backslash | operator _ _ => true
  | lineStart | lineStartComment | normal | comment => false

/-- What a byte leads to in a mode of a family, with what is known of the byte. A line break is taken
by itself, and is passed over at the start of a line and behind a backslash. -/
inductive Leads (opens : Bool) (mode : ScannerMode) : Option Byte → ScannerTransition → Prop
  | take {b : Byte} {next : ScannerMode} {starts : Bool} (noBreak : b.isLineBreak = false)
      (suits : Suits opens next) (marked : next.isBegun → starts ∨ mode.isBegun) :
      Leads opens mode (some b) { action := .take, next := next, starts := starts }
  | produce {b : Byte} {kind : TokenKind} {starts : Bool} (noBreak : b.isLineBreak = false)
      (marked : starts ∨ mode.isBegun)
      (ends : kind = .endOfStatement → b = Byte.semicolon ∧ mode = startOf opens) :
      Leads opens mode (some b) { action := .produce kind, starts := starts }
  | yield {b? : Option Byte} {kind : TokenKind} (marked : mode.isBegun)
      (goesOn : kind ≠ .endOfStatement) :
      Leads opens mode b? { action := .yield kind }
  | lineBreak {b : Byte} (isBreak : b.isLineBreak)
      (silent : opens ∧ (mode = startOf opens ∨ mode = commentOf opens) ∨ mode = backslashOf opens) :
      Leads opens mode (some b) { action := .lineBreak, next := startOf opens }
  | endStatement {b : Byte} (isBreak : b.isLineBreak) (begun : opens = false)
      (code : mode = startOf opens ∨ mode = commentOf opens) :
      Leads opens mode (some b) { action := .endStatement, next := .lineStart, starts := true }
  | number {b : Byte} (starts : mode = startOf opens) :
      Leads opens mode (some b) { action := .number, starts := true }
  | quoted {quote : Byte} (starts : mode = startOf opens) (isQuote : Quoted.IsQuote quote) :
      Leads opens mode (some quote) { action := .quoted quote, starts := true }
  | word {b : Byte} (starts : mode = startOf opens) :
      Leads opens mode (some b) { action := .word, starts := true }
  | parameter (starts : mode = startOf opens) :
      Leads opens mode (some Byte.dollar) { action := .parameter, starts := true }
  | unexpected {b : Byte} (starts : mode = startOf opens) (noBreak : b.isLineBreak = false) :
      Leads opens mode (some b) { action := .unexpected, next := startOf opens }
  | stray {b? : Option Byte} (stands : mode = backslashOf opens)
      (noBreak : b?.any Byte.isLineBreak = false) :
      Leads opens mode b? { action := .stray, next := startOf opens }
  | endOfSource : Leads opens mode none { action := .endOfSource, starts := true }

variable {opens : Bool} {mode : ScannerMode} {b? : Option Byte}

/-- An operator takes no line break and ends no statement. -/
theorem leads_takes {variant : Nat} {kind : TokenKind} {move : OperatorMove} {b : Byte} {starts : Bool}
    (takes : move.Takes variant kind) (noBreak : b.isLineBreak = false)
    (goesOn : kind ≠ .endOfStatement) (marked : starts ∨ mode.isBegun) :
    Leads opens mode (some b) (ofMove variant starts move) := by
  cases takes with
  | go isBit => exact .take noBreak (.operator isBit) fun _ => marked
  | produce => exact .produce noBreak marked fun ends => absurd ends goesOn

theorem leads_start (opens : Bool) (b? : Option Byte) :
    Leads opens (startOf opens) b? ((startOf opens).transition b?) := by
  cases b? with
  | none =>
    rw [transition_end]
    exact .endOfSource
  | some b =>
    have selects := Segment.selects_scan opens b
    generalize Segment.scan opens b = scanner at selects
    cases selects with
    | blank isBlank =>
      rw [transition_blank opens isBlank]
      refine .take ?_ .start fun begun => by cases opens <;> cases begun
      rcases Bool.eq_false_or_eq_true b.isLineBreak with isBreak | noBreak
      · rcases Byte.isLineBreak_iff.mp isBreak with rfl | rfl <;> cases isBlank
      · exact noBreak
    | word isName =>
      rw [transition_word opens isName]
      exact .word rfl
    | decimal isDigit =>
      rw [transition_decimal opens isDigit]
      exact .number rfl
    | lineBreak isBreak =>
      rw [transition_lineBreak opens isBreak]
      cases opens with
      | false => exact .endStatement isBreak rfl (.inl rfl)
      | true => exact .lineBreak isBreak (.inl ⟨rfl, .inl rfl⟩)
    | comment =>
      rw [transition_hash]
      exact .take rfl .comment fun begun => by cases opens <;> cases begun
    | backslash =>
      rw [transition_backslash]
      exact .take rfl .backslash fun _ => .inl rfl
    | semicolon =>
      rw [transition_semicolon]
      exact .produce rfl (.inl rfl) fun _ => ⟨rfl, rfl⟩
    | parameter =>
      rw [transition_dollar]
      exact .parameter rfl
    | quoted isQuote =>
      rw [transition_quote opens isQuote]
      exact .quoted rfl isQuote
    | operator isOther =>
      have noBreak : b.isLineBreak = false :=
        (Bool.or_eq_false_iff.mp (isEnding_of_class isOther rfl rfl rfl)).1
      rw [transition_other opens isOther]
      cases spelled : TokenKind.ofByte? b with
      | none =>
        rw [OperatorMove.ofFirst?_eq_none spelled]
        exact .unexpected rfl noBreak
      | some kind =>
        have all : ∀ entry ∈ TokenKind.singles, entry.2 ≠ .endOfStatement := by decide
        obtain ⟨move, move_eq, takes⟩ := OperatorMove.exists_ofFirst? spelled
        rw [move_eq]
        exact leads_takes takes noBreak (all _ (TokenKind.mem_singles spelled)) (.inl rfl)

theorem leads_operator {state : OperatorState} {variant : Nat} (isBit : variant < 2) (opens : Bool)
    (b? : Option Byte) :
    Leads opens (.operator state variant) b? ((operator state variant).transition b?) := by
  have pending : state.pending.select variant ≠ .endOfStatement := by
    have all : ∀ variant : Fin 2, state.pending.select variant ≠ .endOfStatement := by
      cases state <;> decide
    exact all ⟨variant, isBit⟩
  rw [transition]
  cases extends' : b?.bind (state.pending.select variant).extended? with
  | none =>
    rw [OperatorState.move_eq_yield isBit extends']
    exact .yield rfl pending
  | some longer =>
    obtain ⟨b, rfl, extends'⟩ := Option.bind_eq_some_iff.mp extends'
    have all : ∀ entry ∈ TokenKind.extensions,
        entry.2.1.isLineBreak = false ∧ entry.2.2 ≠ .endOfStatement := by
      decide
    obtain ⟨noBreak, goesOn⟩ := all _ (TokenKind.mem_extensions extends')
    exact leads_takes (OperatorState.takes_move isBit extends') noBreak goesOn (.inr rfl)

/-- The table says nothing else of a mode and a byte. -/
theorem Suits.leads (suits : Suits opens mode) (b? : Option Byte) :
    Leads opens mode b? (mode.transition b?) := by
  cases suits with
  | start => exact leads_start opens b?
  | comment =>
    by_cases ends : ∀ b ∈ b?, b.isLineBreak
    · rw [transition_comment opens ends]
      cases b? with
      | none =>
        rw [transition_end]
        exact .endOfSource
      | some b =>
        have isBreak := ends b rfl
        rw [transition_lineBreak opens isBreak]
        cases opens with
        | false => exact .endStatement isBreak rfl (.inr rfl)
        | true => exact .lineBreak isBreak (.inl ⟨rfl, .inr rfl⟩)
    · simp only [not_forall, Bool.not_eq_true] at ends
      obtain ⟨b, rfl, noBreak⟩ := ends
      rw [transition_inside_comment opens noBreak]
      exact .take noBreak .comment fun begun => by cases opens <;> cases begun
  | backslash =>
    cases isBreak : b?.any Byte.isLineBreak with
    | false =>
      rw [transition_stray opens isBreak]
      exact .stray rfl isBreak
    | true =>
      obtain ⟨b, rfl, isBreak⟩ := (Option.any_eq_true _ _).mp isBreak
      rw [transition_continuation opens isBreak]
      exact .lineBreak isBreak (.inr rfl)
  | operator isBit => exact leads_operator isBit opens b?

end ScannerMode

end AssemblyLexer
