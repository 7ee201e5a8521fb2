import AssemblyLexer.Proofs.Escape
import AssemblyLexer.Token.Operator
import AssemblyLexer.Token.OperatorState

/-!
The bytes that operators start with and those that they grow by, in tables. An
operator that is read state by state goes by the same bytes to the same kinds.
-/

set_option autoImplicit false

namespace AssemblyLexer

namespace TokenKind

/-- Every byte that spells a kind. -/
def singles : List (Byte × TokenKind) :=
  [(0x40, aliasMark), (0x7E, complement), (0x21, logicalNot), (0x2A, multiply), (0x2F, divide),
    (0x25, remainder), (0x2B, add), (0x2D, subtract), (0x26, bitAnd), (0x5E, bitXor),
    (0x7C, bitOr), (0x3C, less), (0x3E, greater), (0x3F, unknown), (0x3D, assign),
    (0x7B, openBrace), (0x7D, closeBrace), (0x28, openParenthesis), (0x29, closeParenthesis),
    (0x5B, openBracket), (0x5D, closeBracket), (0x3A, colon), (0x2C, comma)]

theorem mem_singles {b : Byte} {kind : TokenKind} (spelled : ofByte? b = some kind) :
    (b, kind) ∈ singles := by
  unfold ofByte? at spelled
  split at spelled
  all_goals
    cases spelled
    try
      rename_i spells
      rw [Byte.eq_of_ofUInt8 spells]
      decide

/-- Every kind that a byte can be appended to, with the byte and the kind that comes of it. -/
def extensions : List (TokenKind × Byte × TokenKind) :=
  [(assign, 0x3D, equal), (logicalNot, 0x3D, notEqual), (less, 0x3D, lessEqual),
    (unsignedLess, 0x3D, unsignedLessEqual), (greater, 0x3D, greaterEqual),
    (unsignedGreater, 0x3D, unsignedGreaterEqual), (multiply, 0x3D, multiplyAssign),
    (unsignedMultiply, 0x3D, unsignedMultiplyAssign), (divide, 0x3D, divideAssign),
    (unsignedDivide, 0x3D, unsignedDivideAssign), (remainder, 0x3D, remainderAssign),
    (unsignedRemainder, 0x3D, unsignedRemainderAssign), (add, 0x3D, addAssign),
    (subtract, 0x3D, subtractAssign), (shiftLeft, 0x3D, shiftLeftAssign),
    (shiftRight, 0x3D, shiftRightAssign), (unsignedShiftRight, 0x3D, unsignedShiftRightAssign),
    (bitAnd, 0x3D, bitAndAssign), (bitXor, 0x3D, bitXorAssign), (bitOr, 0x3D, bitOrAssign),
    (logicalAnd, 0x3D, logicalAndAssign), (logicalXor, 0x3D, logicalXorAssign),
    (logicalOr, 0x3D, logicalOrAssign), (add, 0x2B, increment), (add, 0x3C, unsignedLess),
    (add, 0x3E, unsignedGreater), (add, 0x2A, unsignedMultiply), (add, 0x2F, unsignedDivide),
    (add, 0x25, unsignedRemainder), (add, 0x3A, signed), (subtract, 0x2D, decrement),
    (bitAnd, 0x26, logicalAnd), (bitXor, 0x5E, logicalXor), (bitOr, 0x7C, logicalOr),
    (less, 0x3C, shiftLeft), (unsignedLess, 0x3C, shiftLeft), (greater, 0x3E, shiftRight),
    (unsignedGreater, 0x3E, unsignedShiftRight), (remainder, 0x3A, unsigned),
    (unsignedRemainder, 0x3A, unsigned), (colon, 0x3A, exported), (colon, 0x3F, weak)]

theorem mem_extensions {kind longer : TokenKind} {b : Byte}
    (extends' : kind.extended? b = some longer) : (kind, b, longer) ∈ extensions := by
  unfold extended? at extends'
  split at extends'
  · next spells =>
    rw [Byte.eq_of_ofUInt8 spells]
    unfold withEquals? at extends'
    split at extends'
    all_goals
      cases extends'
      try decide
  all_goals
    cases extends'
    try
      rename_i spells
      rw [Byte.eq_of_ofUInt8 spells]
      decide

/-- The bytes that an operator grows by are those of the table. -/
theorem exists_extension_of_mem_grown (kind : TokenKind) (bytes : Bytes) {b : Byte}
    (membership : b ∈ bytes.take (kind.grown bytes).2) : ∃ entry ∈ extensions, entry.2.1 = b := by
  fun_induction grown kind bytes with
  | case1 => cases membership
  | case2 kind d rest longer extends' final taken grows ih =>
    rw [List.take_succ_cons] at membership
    rw [grows] at ih
    rcases List.mem_cons.mp membership with rfl | later
    · exact ⟨_, mem_extensions extends', rfl⟩
    · exact ih later
  | case3 => cases membership

/-- No byte can be appended to the kind. -/
def IsFinal (kind : TokenKind) : Prop :=
  ∀ entry ∈ extensions, entry.1 ≠ kind

instance (kind : TokenKind) : Decidable kind.IsFinal :=
  inferInstanceAs (Decidable (∀ entry ∈ extensions, entry.1 ≠ kind))

theorem IsFinal.extended?_eq_none {kind : TokenKind} (isFinal : kind.IsFinal) (b : Byte) :
    kind.extended? b = none := by
  rw [Option.eq_none_iff_forall_ne_some]
  exact fun longer extends' => isFinal _ (mem_extensions extends') rfl

theorem IsFinal.grown_eq {kind : TokenKind} (isFinal : kind.IsFinal) (bytes : Bytes) :
    kind.grown bytes = (kind, 0) := by
  cases bytes with
  | nil => rfl
  | cons b rest => rw [grown, isFinal.extended?_eq_none b]

end TokenKind

theorem exists_entry_of_lookup {α : Type} {table : List (Char × α)} {b : Byte} {found : α}
    (lookup_eq : table.lookup (Char.ofUInt8 b) = some found) :
    ∃ entry ∈ table, entry.1.toUInt8 = b := by
  obtain ⟨before, after, table_eq, _⟩ := List.lookup_eq_some_iff.mp lookup_eq
  exact ⟨(Char.ofUInt8 b, found), by simp [table_eq], (Byte.eq_of_ofUInt8 rfl).symm⟩

/-- The move takes a byte and makes the given kind of the operator. The bits of the variant stay
what they can be, and nothing can be appended to a kind that is produced. -/
inductive OperatorMove.Takes (variant : Nat) : TokenKind → OperatorMove → Prop
  | go {next : OperatorState} {more : Nat} (isBit : variant ||| more < 2) :
    Takes variant (next.pending.select (variant ||| more)) (.go next more)
  | produce {kind : TokenKind} (isFinal : (kind.select variant).IsFinal) :
    Takes variant (kind.select variant) (.produce kind)

instance (variant : Nat) (kind : TokenKind) : (move : OperatorMove) → Decidable (move.Takes variant kind)
  | .go next more =>
    decidable_of_iff (variant ||| more < 2 ∧ next.pending.select (variant ||| more) = kind)
      ⟨fun both => both.2 ▸ .go both.1, fun | .go isBit => ⟨isBit, rfl⟩⟩
  | .produce produced =>
    decidable_of_iff ((produced.select variant).IsFinal ∧ produced.select variant = kind)
      ⟨fun both => both.2 ▸ .produce both.1, fun | .produce isFinal => ⟨isFinal, rfl⟩⟩
  | .yield _ => isFalse nofun

namespace OperatorState

variable {state : OperatorState} {variant : Nat} {b : Byte} {longer : TokenKind}

/-- A byte that can be appended to the operator is taken. -/
theorem takes_move (isBit : variant < 2)
    (extends' : (state.pending.select variant).extended? b = some longer) :
    (state.move (some b)).Takes variant longer := by
  have all : ∀ variant : Fin 2, ∀ entry ∈ TokenKind.extensions,
      entry.1 = state.pending.select variant →
        (state.move (some entry.2.1)).Takes variant entry.2.2 := by
    cases state <;> decide
  exact all ⟨variant, isBit⟩ _ (TokenKind.mem_extensions extends') rfl

/-- At any other byte the operator ends. -/
theorem move_eq_yield (isBit : variant < 2) {b? : Option Byte}
    (stops : b?.bind (state.pending.select variant).extended? = none) :
    state.move b? = .yield state.pending := by
  have all : ∀ variant : Fin 2, ∀ entry ∈ state.moves,
      (state.pending.select variant).extended? entry.1.toUInt8 ≠ none := by
    cases state <;> decide
  cases b? with
  | none => rfl
  | some b =>
    cases found : state.moves.lookup (Char.ofUInt8 b) with
    | none => rw [move, Option.bind_some, found, Option.getD_none]
    | some next =>
      obtain ⟨entry, membership, rfl⟩ := exists_entry_of_lookup found
      exact absurd stops (all ⟨variant, isBit⟩ entry membership)

end OperatorState

namespace OperatorMove

/-- The first byte of an operator is taken. -/
theorem exists_ofFirst? {b : Byte} {kind : TokenKind} (spelled : TokenKind.ofByte? b = some kind) :
    ∃ move, ofFirst? b = some move ∧ move.Takes 0 kind := by
  have all : ∀ entry ∈ TokenKind.singles,
      ∃ move ∈ ofFirst? entry.1, move.Takes 0 entry.2 := by
    decide
  exact all (b, kind) (TokenKind.mem_singles spelled)

theorem ofFirst?_eq_none {b : Byte} (unspelled : TokenKind.ofByte? b = none) :
    ofFirst? b = none := by
  have all : ∀ entry ∈ starts, TokenKind.ofByte? entry.1.toUInt8 ≠ none := by
    decide
  rw [Option.eq_none_iff_forall_ne_some]
  intro move found
  obtain ⟨entry, membership, rfl⟩ := exists_entry_of_lookup found
  exact all entry membership unspelled

end OperatorMove

end AssemblyLexer
