import AssemblyLexer.Proofs.Dispatch

/-!
What a segment gives: a token, a fault, or silence. No segment gives the end of
the source, only semicolons and line breaks end a statement, a token comes with a
fault only when it is a parameter without a name, and only blanks, comments,
cancelled line breaks and line breaks between statements are silent.
-/

set_option autoImplicit false

namespace AssemblyLexer

namespace TokenKind

/-- No operator ends a statement, and none is the end of the source. -/
theorem endsStatement_of_ofByte? {b : Byte} {kind : TokenKind} (spelled : ofByte? b = some kind) :
    kind.endsStatement = false := by
  unfold ofByte? at spelled
  split at spelled
  all_goals
    cases spelled
    try rfl

theorem endsStatement_of_withEquals? {kind longer : TokenKind}
    (extends' : kind.withEquals? = some longer) : longer.endsStatement = false := by
  unfold withEquals? at extends'
  split at extends'
  all_goals
    cases extends'
    try rfl

theorem endsStatement_of_extended? {kind longer : TokenKind} {b : Byte}
    (extends' : kind.extended? b = some longer) : longer.endsStatement = false := by
  unfold extended? at extends'
  split at extends'
  · exact endsStatement_of_withEquals? extends'
  all_goals
    cases extends'
    try rfl

theorem endsStatement_grown {kind : TokenKind} (bytes : Bytes)
    (start : kind.endsStatement = false) : (kind.grown bytes).1.endsStatement = false := by
  fun_induction grown kind bytes with
  | case1 => exact start
  | case2 kind b rest longer extends' final taken grows ih =>
    have final_eq := ih (endsStatement_of_extended? extends')
    rwa [grows] at final_eq
  | case3 => exact start

end TokenKind

namespace Segment

/-- The first byte, the rest and the tail of a segment that gives neither a token nor a fault. -/
inductive Silent (fresh : Bool) : Byte → Bytes → Nat → Prop
  | blank {first : Byte} {rest : Bytes} (isBlank : first.isBlank) : Silent fresh first rest 0
  | comment {rest : Bytes} :
      Silent fresh Byte.hash rest (rest.takeWhile fun b => !b.isLineBreak).length
  | continuation {b : Byte} {rest : Bytes} (isBreak : b.isLineBreak) :
      Silent fresh Byte.backslash (b :: rest) (breakTail b rest + 1)
  | lineBreak {first : Byte} {rest : Bytes} (begins : fresh = true) (isBreak : first.isLineBreak) :
      Silent fresh first rest (breakTail first rest)

/-- The first byte, the rest and the tail of a segment that ends a statement. -/
inductive Ending : Byte → Bytes → Nat → Prop
  | semicolon {rest : Bytes} : Ending Byte.semicolon rest 0
  | lineBreak {first : Byte} {rest : Bytes} (isBreak : first.isLineBreak) :
      Ending first rest (breakTail first rest)

/-- What a segment may give. The silent segments are those with the first property, and those that
end a statement have the second. -/
inductive Gives (silent ending : Prop) (s : Segment) : Prop
  | token {t : Token} (found : s.token? = some t) (ends : t.kind ≠ .endOfSource)
      (faults : s.findings = if t = .parameter [] then [⟨0, .emptyParameter⟩] else [])
      (stops : t.kind = .endOfStatement → ending)
  | fault (none : s.token? = none) (faults : s.findings ≠ [])
  | silence (none : s.token? = none) (faults : s.findings = []) (kept : silent)

variable {silent ending : Prop}

theorem gives_token_of_faults {s : Segment} {t : Token} (found : s.token? = some t)
    (goesOn : t.kind.endsStatement = false)
    (faults : s.findings = if t = .parameter [] then [⟨0, .emptyParameter⟩] else []) :
    Gives silent ending s := by
  apply Gives.token found _ faults
  · intro stops
    rw [stops] at goesOn
    cases goesOn
  · intro ends
    rw [ends] at goesOn
    cases goesOn

theorem gives_token (form : SegmentForm) (tail : Nat) {t : Token}
    (goesOn : t.kind.endsStatement = false) (named : t ≠ .parameter []) :
    Gives silent ending (token form tail t) := by
  apply gives_token_of_faults rfl goesOn
  rw [if_neg named]
  rfl

theorem gives_faulty (form : SegmentForm) (tail : Nat) (fault : Fault) :
    Gives silent ending (faulty form tail fault) :=
  .fault rfl (List.cons_ne_nil _ _)

theorem gives_number (form : SegmentForm) (tail : Nat) (scan : NumberScan) :
    Gives silent ending (number form tail scan) := by
  unfold number
  split
  · exact gives_token form tail rfl (by simp)
  · exact gives_token form tail rfl (by simp)
  all_goals exact gives_faulty form tail _

theorem gives_word (fresh : Bool) (first : Byte) (rest : Bytes) :
    Gives silent ending (word fresh first rest) := by
  unfold word
  dsimp only
  split
  · exact gives_token _ _ rfl (by simp)
  · split
    · split
      · exact gives_number _ _ _
      · exact gives_faulty _ _ _
    · split
      · exact gives_token _ _ rfl (by simp)
      · exact gives_token _ _ rfl (by simp)

theorem gives_parameter (rest : Bytes) : Gives silent ending (parameter rest) := by
  apply gives_token_of_faults rfl rfl
  simp [parameter]

theorem gives_quoted (quote : Byte) (rest : Bytes) : Gives silent ending (quoted quote rest) := by
  unfold quoted
  dsimp only
  split
  · exact .fault rfl (by simp)
  · split
    · next faulty => exact .fault rfl (by simpa using faulty)
    · split
      · exact gives_token _ _ rfl (by simp)
      · split
        · exact gives_token _ _ rfl (by simp)
        · exact gives_faulty _ _ _

theorem gives_operator (first : Byte) (rest : Bytes) :
    Gives silent ending (operator first rest) := by
  unfold operator
  split
  · next kind spelled =>
    have goesOn := TokenKind.endsStatement_grown rest (TokenKind.endsStatement_of_ofByte? spelled)
    exact gives_token _ _ goesOn (by simp)
  · exact gives_faulty _ _ _

theorem gives_lineBreak (fresh : Bool) {first : Byte} (isBreak : first.isLineBreak) (rest : Bytes) :
    Gives (Silent fresh first rest (lineBreak fresh first rest).tail)
      (Ending first rest (lineBreak fresh first rest).tail) (lineBreak fresh first rest) := by
  cases fresh with
  | true => exact .silence rfl rfl (.lineBreak rfl isBreak)
  | false =>
    exact .token rfl (by simp [Token.kind]) (by simp [lineBreak]) fun _ => .lineBreak isBreak

theorem gives_backslash (fresh : Bool) (rest : Bytes) :
    Gives (Silent fresh Byte.backslash rest (backslash rest).tail) ending (backslash rest) := by
  unfold backslash
  split
  · exact gives_faulty _ _ _
  · split
    · next isBreak => exact .silence rfl rfl (.continuation isBreak)
    · exact gives_faulty _ _ _

theorem gives_scan (fresh : Bool) (first : Byte) (rest : Bytes) :
    Gives (Silent fresh first rest (scan fresh first rest).tail)
      (Ending first rest (scan fresh first rest).tail) (scan fresh first rest) := by
  have selects := selects_scan fresh first
  generalize scan fresh first = scanner at selects ⊢
  cases selects with
  | blank isBlank => exact .silence rfl rfl (.blank isBlank)
  | word => exact gives_word fresh first rest
  | decimal => exact gives_number _ _ _
  | lineBreak isBreak => exact gives_lineBreak fresh isBreak rest
  | comment => exact .silence rfl rfl .comment
  | backslash => exact gives_backslash fresh rest
  | semicolon => exact .token rfl (by simp [Token.kind]) (by simp [token]) fun _ => .semicolon
  | parameter => exact gives_parameter rest
  | quoted => exact gives_quoted first rest
  | operator => exact gives_operator first rest

end Segment

end AssemblyLexer
