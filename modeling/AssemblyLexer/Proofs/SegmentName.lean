import AssemblyLexer.Proofs.SelfDelimiting

/-!
Names among the tokens. Only words and parameters give tokens with names, and the name is
the longest that stands there.
-/

set_option autoImplicit false

namespace AssemblyLexer.Segment

variable {first : Byte} {rest : Bytes} {t : Token} {name : Bytes}

/-- Where the name of a token stands in its segment. -/
inductive Named (first : Byte) (rest : Bytes) (tail : Nat) : Bytes → Prop
  | word {more behind : Bytes} (isName : first.isNameStart) (all : ∀ b ∈ more, b.isNamePart)
      (rest_eq : rest = more ++ behind) (within : more.length ≤ tail) :
      Named first rest tail (first :: more)
  | parameter (isDollar : first = Byte.dollar)
      (tail_eq : tail = (rest.takeWhile Byte.isNamePart).length) :
      Named first rest tail (rest.takeWhile Byte.isNamePart)

theorem name?_eq_none_of_number {form : SegmentForm} {tail : Nat} {scan : NumberScan}
    (found : (number form tail scan).token? = some t) : t.name? = none := by
  unfold number at found
  split at found
  all_goals
    cases found
    try rfl

theorem name?_eq_none_of_quoted {quote : Byte} (found : (quoted quote rest).token? = some t) :
    t.name? = none := by
  unfold quoted at found
  dsimp only at found
  repeat' split at found
  all_goals
    cases found
    try rfl

theorem name?_eq_none_of_operator (found : (operator first rest).token? = some t) :
    t.name? = none := by
  unfold operator at found
  split at found
  · cases found
    rfl
  · cases found

theorem named_word {fresh : Bool} (isName : first.isNameStart)
    (found : (word fresh first rest).token? = some t) (named : t.name? = some name) :
    Named first rest (word fresh first rest).tail name := by
  have words := words_word fresh first rest
  generalize word fresh first rest = s at words found ⊢
  cases words with
  | identifier all =>
    cases found
    cases named
    exact .word isName all rfl (Nat.le_refl _)
  | number => cases (name?_eq_none_of_number found).symm.trans named
  | invalid => cases found
  | label begins all =>
    cases found
    cases named
    exact .word isName all rfl (Nat.le_trans (Nat.le_succ _) (Nat.le_add_right _ _))

/-- Only words and parameters have names. -/
theorem named_scan {fresh : Bool} (found : (scan fresh first rest).token? = some t)
    (named : t.name? = some name) : Named first rest (scan fresh first rest).tail name := by
  have nameless : t.name? = none → Named first rest (scan fresh first rest).tail name :=
    fun none => by cases none.symm.trans named
  have selects := selects_scan fresh first
  generalize scan fresh first = scanner at selects found nameless ⊢
  cases selects with
  | blank => cases found
  | word isName => exact named_word isName found named
  | decimal => exact nameless (name?_eq_none_of_number found)
  | lineBreak =>
    cases fresh with
    | true => cases found
    | false =>
      cases found
      exact nameless rfl
  | comment => cases found
  | backslash =>
    rw [token?_backslash] at found
    cases found
  | semicolon =>
    cases found
    exact nameless rfl
  | parameter =>
    cases found
    cases named
    exact .parameter rfl rfl
  | quoted => exact nameless (name?_eq_none_of_quoted found)
  | operator => exact nameless (name?_eq_none_of_operator found)

/-- The name of a token is made of the bytes of names. -/
theorem isNamePart_of_named {tail : Nat} (named : Named first rest tail name) :
    ∀ b ∈ name, b.isNamePart := by
  cases named with
  | word isName all =>
    have isPart : first.isNamePart := by rw [Byte.isNamePart, isName, Bool.true_or]
    exact List.forall_mem_cons.mpr ⟨isPart, all⟩
  | parameter => exact List.all_eq_true.mp List.all_takeWhile

/-- The name of a token takes bytes of its segment. -/
theorem length_le_of_named {tail : Nat} (named : Named first rest tail name) :
    name.length ≤ tail + 1 := by
  cases named with
  | word _ _ _ within => exact Nat.succ_le_succ within
  | parameter _ tail_eq => exact Nat.le_succ_of_le (Nat.le_of_eq tail_eq.symm)

end AssemblyLexer.Segment
