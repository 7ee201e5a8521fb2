import AssemblyLexer.Proofs.Reachable

/-!
The two families of modes, and what they make of line breaks and semicolons. Wherever
calls have come to, the mode and the scanner's own mark say of the statement what the
tokens before do, however many comments, continuations, faults and blank lines have been
gone over since. So each line break that is taken in code ends a statement that has
begun, and nothing else but a semicolon does.
-/

set_option autoImplicit false

namespace AssemblyLexer.Scanner

variable {s : Session} {c : Scanner} {mode : ScannerMode} {stage : Stage} {rest : Bytes} {b : Byte}
  {file : UInt32} {buffer : Buffer} {tokens : List Token} {opens : Bool}

/-- What a turn makes of the line breaks and the semicolons under the cursor, given whether a statement
has begun. -/
structure EndsStatements (s : Session) (c : Scanner) (mode : ScannerMode) (begun : Bool) : Prop where
  opens_eq : c.opens = !begun
  suits : mode.Suits (!begun)
  /-- In code and at the end of a comment a line break ends the statement, if one has begun. -/
  alone : mode = .startOf (!begun) ∨ mode = .commentOf (!begun) →
    ∀ b ∈ c.rest.head?, b.isLineBreak →
      c.turn s mode = .ok (if begun then c.mark.passBreak.finish s (.symbol .endOfStatement) none
        else .again s c.passBreak .lineStart)
  /-- Behind a backslash it is passed over, and the statement goes on as it was. -/
  continued : mode = .backslashOf (!begun) → ∀ b ∈ c.rest.head?, b.isLineBreak →
    c.turn s mode = .ok (.again s c.passBreak (.startOf (!begun)))
  /-- In no other modes is a line break taken outside of a literal, and it is taken as a whole. -/
  taken : ∀ stage, c.turn s mode = .ok stage → ∃ bytes, c.rest = bytes ++ stage.scanner.rest ∧
    (Unbroken bytes ∨
      mode = .startOf (!begun) ∧ (∃ quote rest, Quoted.IsQuote quote ∧ c.rest = quote :: rest ∧
        bytes = quote :: rest.take (Quoted.scan quote rest).length) ∨
      IsBreak stage.scanner.rest bytes ∧
        (mode = .startOf (!begun) ∨ mode = .commentOf (!begun) ∨ mode = .backslashOf (!begun)))
  semicolon : mode = .startOf (!begun) → c.rest.head? = some Byte.semicolon →
    c.turn s mode = .ok (c.mark.advance.finish s (.symbol .endOfStatement) none)
  /-- What ends a statement is a semicolon, or else a line break behind a token that is no end. -/
  ended : ∀ later c' name?, c.turn s mode = .ok (.done later c' (.symbol .endOfStatement) name?) →
    mode = .startOf (!begun) ∧ c.rest.head? = some Byte.semicolon ∨
      begun ∧ (mode = .normal ∨ mode = .comment) ∧ ∃ b ∈ c.rest.head?, b.isLineBreak

/-- A comment makes no difference to the line break behind it. -/
theorem turn_lineBreak (s : Session) (remaining : c.rest = b :: rest) (isBreak : b.isLineBreak)
    (code : mode = .startOf opens ∨ mode = .commentOf opens) :
    c.turn s mode = .ok (if opens then .again s c.passBreak .lineStart
      else c.mark.passBreak.finish s (.symbol .endOfStatement) none) := by
  have transition_eq : mode.transition (some b) =
      if opens then { action := .lineBreak, next := .lineStart }
      else { action := .endStatement, next := .lineStart, starts := true } := by
    rw [← ScannerMode.transition_lineBreak opens isBreak]
    rcases code with rfl | rfl
    · rfl
    · exact ScannerMode.transition_comment opens fun _ under => Option.some.inj under ▸ isBreak
  rw [turn, peek?_of_rest_eq remaining, transition_eq]
  cases opens <;> rfl

theorem turn_continuation (s : Session) (remaining : c.rest = b :: rest) (isBreak : b.isLineBreak) :
    c.turn s (.backslashOf opens) = .ok (.again s c.passBreak (.startOf opens)) := by
  rw [turn, peek?_of_rest_eq remaining, ScannerMode.transition_continuation opens isBreak]
  rfl

theorem turn_semicolon (s : Session) (remaining : c.rest = Byte.semicolon :: rest) :
    c.turn s (.startOf opens) = .ok (c.mark.advance.finish s (.symbol .endOfStatement) none) := by
  rw [turn, peek?_of_rest_eq remaining, ScannerMode.transition_semicolon]
  rfl

/-- The bytes of a line break are those that are passed over. -/
theorem exists_isBreak (remaining : c.rest = b :: rest) (isBreak : b.isLineBreak) :
    ∃ bytes, c.rest = bytes ++ c.passBreak.rest ∧ IsBreak c.passBreak.rest bytes := by
  have passes := passes_passBreak remaining isBreak
  have behind := (passes.eq_piece remaining (length_break b rest)).2
  refine ⟨_, passes.rest_eq, ?_⟩
  rw [behind]
  exact Segment.isBreak_of_isLineBreak isBreak rest

/-- What a turn takes, of whichever kind it is. -/
theorem Turns.taken (turns : Turns s c mode stage) : ∃ bytes, c.rest = bytes ++ stage.scanner.rest ∧
    (Unbroken bytes ∨
      mode = .startOf c.opens ∧ (∃ quote rest, Quoted.IsQuote quote ∧ c.rest = quote :: rest ∧
        bytes = quote :: rest.take (Quoted.scan quote rest).length) ∨
      IsBreak stage.scanner.rest bytes ∧
        (mode = .startOf c.opens ∨ mode = .commentOf c.opens ∨ mode = .backslashOf c.opens)) := by
  cases turns with
  | goesOn based unbroken passes =>
    rcases based with rfl | rfl <;> exact ⟨_, passes.rest_eq, .inl unbroken⟩
  | completes begins unbroken passes =>
    rcases begins.based with rfl | rfl <;> exact ⟨_, passes.rest_eq, .inl unbroken⟩
  | refused unbroken passes => exact ⟨_, passes.rest_eq, .inl unbroken⟩
  | lineBreak remaining isBreak silent =>
    obtain ⟨bytes, rest_eq, stands⟩ := exists_isBreak remaining isBreak
    refine ⟨bytes, rest_eq, .inr (.inr ⟨stands, ?_⟩)⟩
    rcases silent with ⟨_, code | code⟩ | code
    · exact .inl code
    · exact .inr (.inl code)
    · exact .inr (.inr code)
  | endStatement remaining isBreak _ code =>
    obtain ⟨bytes, rest_eq, stands⟩ := exists_isBreak (c := c.mark) remaining isBreak
    exact ⟨bytes, rest_eq, .inr (.inr ⟨stands, code.imp_right .inl⟩)⟩
  | @quoted quote rest remaining isQuote starts =>
    obtain ⟨s', c', passes, _, found⟩ := quoted_cases (c := c.mark) isQuote remaining s (.startOf c.opens)
    have rest_eq : (c.mark.quoted s (.startOf c.opens) quote).scanner.rest = c'.rest := by
      rcases found with resumes | ⟨token, _, completes⟩
      · rw [resumes]
        rfl
      · rw [completes]
        rfl
    rw [rest_eq]
    exact ⟨_, passes.rest_eq, .inr (.inl ⟨starts, _, _, isQuote, remaining, rfl⟩)⟩

/-- Only a semicolon and a line break in code complete a token that ends the statement. -/
theorem Turns.ended {later : Session} {c' : Scanner} {name? : Option Name}
    (turns : Turns s c mode (.done later c' (.symbol .endOfStatement) name?)) :
    mode = .startOf c.opens ∧ c.rest.head? = some Byte.semicolon ∨
      c.opens = false ∧ (mode = .startOf c.opens ∨ mode = .commentOf c.opens) ∧
        ∃ b ∈ c.rest.head?, b.isLineBreak := by
  generalize last_eq : Stage.done later c' (.symbol .endOfStatement) name? = last at turns
  cases turns with
  | completes _ _ _ _ ends =>
    cases last_eq
    exact .inl (ends rfl)
  | endStatement remaining isBreak begun code =>
    exact .inr ⟨begun, code, _, by rw [remaining]; rfl, isBreak⟩
  | quoted remaining isQuote =>
    obtain ⟨s', c', _, _, resumes | ⟨token, goesOn, completes⟩⟩ :=
      quoted_cases (c := c.mark) isQuote remaining s (.startOf c.opens)
    · cases last_eq.trans resumes
    · cases last_eq.trans completes
      exact absurd rfl goesOn
  | goesOn => cases last_eq
  | refused => cases last_eq
  | lineBreak => cases last_eq

/-- Wherever calls have come to, a turn ends statements as it should. -/
theorem Reachable.endsStatements (reachable : Reachable file buffer tokens (.again s c mode)) :
    EndsStatements s c mode (Token.begun tokens) := by
  have upheld := reachable.upheld
  have opens_eq := upheld.opens
  have suits : mode.Suits c.opens := upheld.suits
  have turns : ∀ {stage}, c.turn s mode = .ok stage → Turns s c mode stage := turns_of_turn suits
  generalize Token.begun tokens = begun at opens_eq
  refine ⟨opens_eq, opens_eq ▸ suits, ?_, ?_, ?_, ?_, ?_⟩
  · intro code b under isBreak
    obtain ⟨rest, remaining⟩ := List.head?_eq_some_iff.mp under
    rw [turn_lineBreak s remaining isBreak code]
    cases begun <;> rfl
  · rintro rfl b under isBreak
    obtain ⟨rest, remaining⟩ := List.head?_eq_some_iff.mp under
    exact turn_continuation s remaining isBreak
  · intro stage turn_eq
    rw [← opens_eq]
    exact (turns turn_eq).taken
  · rintro rfl under
    obtain ⟨rest, remaining⟩ := List.head?_eq_some_iff.mp under
    exact turn_semicolon s remaining
  · intro later c' name? turn_eq
    rw [← opens_eq]
    refine (turns turn_eq).ended.imp_right fun ⟨isClosed, code, under⟩ => ?_
    rw [isClosed] at opens_eq code
    exact ⟨by simpa using opens_eq, code, under⟩

/-- In every state that calls come to, a line break outside of literals ends a statement that has begun
and is passed over where none has, nothing but a semicolon ends a statement besides, and the mode and
the scanner's mark go on saying whether one has begun. So it is with every piece of the source. -/
theorem ends_statements (file : UInt32) (buffer : Buffer) :
    (∀ tokens s c mode, Reachable file buffer tokens (.again s c mode) →
      EndsStatements s c mode (Token.begun tokens)) ∧
    (∀ sessions : Nat → Session, (∀ n, (sessions n).names.Rooted) → ∀ n,
      ∃ c tokens, (ofBuffer file buffer).afterCalls sessions n = .ok c ∧
        Reachable file buffer tokens (.again (sessions n) c c.startMode)) ∧
    Lexer.EndsStatements file buffer.bytes (Lexer.ofSource file buffer.bytes).run.1.toList := by
  refine ⟨fun _ _ _ _ reachable => reachable.endsStatements, ?_, Lexer.run_endsStatements file buffer.bytes⟩
  exact fun _ rooted n => exists_reachable_afterCalls file buffer rooted n

end AssemblyLexer.Scanner
