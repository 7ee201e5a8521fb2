import AssemblyLexer.Proofs.InPlaceCall
import AssemblyLexer.Proofs.StatementEnd

/-!
Where a scanner comes to. A turn goes over bytes within a line, over a line break or
over a literal, and leads to a mode of the family that it is taken in. So turn by turn
and call by call, in whatever sessions, the counters are those of the bytes before the
cursor, the marks are those of the token's first byte, and whether a statement starts
where the scanner stands is known from the last token alone.
-/

set_option autoImplicit false

namespace AssemblyLexer.Scanner

/-- The start of what the turn is about has been marked, by the turn or before it. -/
def Begins (c : Scanner) (mode : ScannerMode) (base : Scanner) : Prop :=
  base = c.mark ∨ base = c ∧ mode.isBegun

/-- Everything that a turn can come to. -/
inductive Turns (s : Session) (c : Scanner) (mode : ScannerMode) : Stage → Prop
  | goesOn {s' : Session} {base c' : Scanner} {mode' : ScannerMode} {bytes : Bytes}
      (based : base = c ∨ base = c.mark) (unbroken : Unbroken bytes) (passes : base.Passes bytes c')
      (grows : s.names.Grows s'.names) (suits : mode'.Suits c.opens)
      (begins : mode'.isBegun → c.Begins mode base) : Turns s c mode (.again s' c' mode')
  | completes {s' : Session} {base c' : Scanner} {token : Token} {name? : Option Name} {bytes : Bytes}
      (begins : c.Begins mode base) (unbroken : Unbroken bytes) (passes : base.Passes bytes c')
      (grows : s.names.Grows s'.names)
      (ends : token = .symbol .endOfStatement →
        mode = .startOf c.opens ∧ c.rest.head? = some Byte.semicolon) :
      Turns s c mode (c'.finish s' token name?)
  | refused {s' : Session} {c' : Scanner} {bytes : Bytes} (unbroken : Unbroken bytes)
      (passes : c.mark.Passes bytes c') (grows : s.names.Grows s'.names) : Turns s c mode (.refused s' c')
  | lineBreak {b : Byte} {rest : Bytes} (remaining : c.rest = b :: rest) (isBreak : b.isLineBreak)
      (silent : c.opens ∧ (mode = .startOf c.opens ∨ mode = .commentOf c.opens) ∨
        mode = .backslashOf c.opens) :
      Turns s c mode (.again s c.passBreak (.startOf c.opens))
  | endStatement {b : Byte} {rest : Bytes} (remaining : c.rest = b :: rest) (isBreak : b.isLineBreak)
      (begun : c.opens = false) (code : mode = .startOf c.opens ∨ mode = .commentOf c.opens) :
      Turns s c mode (c.mark.passBreak.finish s (.symbol .endOfStatement) none)
  | quoted {quote : Byte} {rest : Bytes} (remaining : c.rest = quote :: rest)
      (isQuote : Quoted.IsQuote quote) (starts : mode = .startOf c.opens) :
      Turns s c mode (c.mark.quoted s (.startOf c.opens) quote)

variable {c middle later : Scanner} {s s' : Session} {stage : Stage} {mode resume : ScannerMode}
  {bytes more rest : Bytes} {b : Byte}

/-- What comes of the bytes of a line from a token's start on, where scanning resumes in the given
mode if they are at fault. -/
inductive Ahead (s : Session) (c : Scanner) (resume : ScannerMode) : Stage → Prop
  | again {s' : Session} {c' : Scanner} {bytes : Bytes} (unbroken : Unbroken bytes)
      (passes : c.Passes bytes c') (grows : s.names.Grows s'.names) : Ahead s c resume (.again s' c' resume)
  | done {s' : Session} {c' : Scanner} {token : Token} {name? : Option Name} {bytes : Bytes}
      (unbroken : Unbroken bytes) (passes : c.Passes bytes c') (grows : s.names.Grows s'.names)
      (goesOn : token ≠ .symbol .endOfStatement) : Ahead s c resume (c'.finish s' token name?)
  | refused {s' : Session} {c' : Scanner} {bytes : Bytes} (unbroken : Unbroken bytes)
      (passes : c.Passes bytes c') (grows : s.names.Grows s'.names) : Ahead s c resume (.refused s' c')

theorem Ahead.before (ahead : Ahead s' middle resume stage) (unbroken : Unbroken bytes)
    (passes : c.Passes bytes middle) (grows : s.names.Grows s'.names) : Ahead s c resume stage := by
  cases ahead with
  | again unbroken' passes' grows' =>
    exact .again (unbroken_append.mpr ⟨unbroken, unbroken'⟩) (passes.trans passes') (grows.trans grows')
  | done unbroken' passes' grows' goesOn =>
    exact .done (unbroken_append.mpr ⟨unbroken, unbroken'⟩) (passes.trans passes') (grows.trans grows')
      goesOn
  | refused unbroken' passes' grows' =>
    exact .refused (unbroken_append.mpr ⟨unbroken, unbroken'⟩) (passes.trans passes')
      (grows.trans grows')

theorem exists_passes_advanceIf (c : Scanner) {b : Byte} (noBreak : b.isLineBreak = false) :
    ∃ bytes, Unbroken bytes ∧ c.Passes bytes (c.advanceIf b).2 := by
  by_cases under : c.rest.head? = some b
  · obtain ⟨rest, remaining⟩ := List.head?_eq_some_iff.mp under
    rw [advanceIf_of_head? under]
    exact ⟨[b], unbroken_cons.mpr ⟨noBreak, unbroken_nil⟩, passes_advance remaining noBreak⟩
  · rw [advanceIf_of_head?_ne under]
    exact ⟨[], unbroken_nil, .refl c⟩

theorem exists_passes_labelScope (c : Scanner) (inner : Bool) :
    ∃ bytes, Unbroken bytes ∧ c.Passes bytes (c.labelScope inner).2 := by
  obtain ⟨first, unbroken, colon⟩ := c.exists_passes_advanceIf (b := Byte.colon) rfl
  rw [labelScope]
  dsimp only
  split
  · exact ⟨first, unbroken, colon⟩
  · obtain ⟨second, unbroken', question⟩ :=
      (c.advanceIf Byte.colon).2.exists_passes_advanceIf (b := Byte.question) rfl
    have both := unbroken_append.mpr ⟨unbroken, unbroken'⟩
    split
    · exact ⟨first ++ second, both, colon.trans question⟩
    · exact ⟨first ++ second, both, colon.trans question⟩

theorem ahead_numbered (c : Scanner) (s : Session) (resume : ScannerMode) (scan : NumberScan) :
    Ahead s c resume (c.numbered s resume scan) := by
  have again : ∀ fault, Ahead s c resume (.again (c.report s fault) c resume) :=
    fun _ => .again unbroken_nil (.refl c) (.refl _)
  rw [numbered]
  split
  · exact .done unbroken_nil (.refl c) (.refl _) Token.noConfusion
  · exact .done unbroken_nil (.refl c) (.refl _) Token.noConfusion
  · exact again _
  · exact again _
  · exact again _
  · exact again _

theorem ahead_number {radix : Radix} (number_eq : c.number s resume radix = .ok stage) :
    Ahead s c resume stage := by
  obtain ⟨after, passes, number_eq'⟩ := c.number_spec s resume radix
  cases number_eq.symm.trans number_eq'
  have unbroken := (NumberScan.unended_scan radix c.rest).unbroken
  exact (ahead_numbered after s resume _).before unbroken passes (.refl _)

theorem ahead_named {begins : Bool} {name : Name} (named_eq : c.named s begins name = .ok stage) :
    Ahead s c resume stage := by
  obtain ⟨bytes, unbroken, colon⟩ := c.exists_passes_advanceIf (b := Byte.colon) rfl
  rw [named] at named_eq
  dsimp only at named_eq
  split at named_eq
  · cases named_eq
    exact .done unbroken_nil (.refl c) (.refl _) Token.noConfusion
  split at named_eq
  · cases named_eq
    exact .done unbroken colon (.refl _) Token.noConfusion
  split at named_eq
  · cases named_eq
  · cases named_eq
    obtain ⟨more, unbroken', scope⟩ := exists_passes_labelScope (c.advanceIf Byte.colon).2 _
    exact .done (unbroken_append.mpr ⟨unbroken, unbroken'⟩) (colon.trans scope) (.refl _)
      Token.noConfusion

theorem unbroken_takeWhile_isNamePart (bytes : Bytes) : Unbroken (bytes.takeWhile Byte.isNamePart) := by
  obtain ⟨run, behind, rfl, all, _, run_eq, _⟩ := exists_stretch Byte.isNamePart bytes
  rw [run_eq]
  exact (unended_of_isNamePart all).unbroken

theorem grows_of_internPending? {name : Name} (interned : s.internPending? = some (s', name)) :
    s.names.Grows s'.names := by
  have grows : s.names.Grows s.names.internPending.1 := by
    rw [NameTable.internPending_eq]
    exact (s.names.grows_add _).trans (NameTable.grows_setPending _ [])
  rw [Session.internPending?, NameTable.internPending?_eq] at interned
  split at interned
  · cases interned
  · rw [Option.map_some, Option.some.injEq] at interned
    cases interned
    exact grows

theorem ahead_word (word_eq : c.word s mode = .ok stage) : Ahead s c mode.resumed stage := by
  obtain ⟨after, passes, spelled⟩ := spell_cleared (c := c) rfl s
  have unbroken := unbroken_takeWhile_isNamePart c.rest
  have spelling : s.names.Grows (s.spelling (c.rest.takeWhile Byte.isNamePart)).names :=
    s.names.grows_setPending _
  rw [word, spelled] at word_eq
  dsimp only at word_eq
  split at word_eq
  · next isQuote =>
    rw [peek?_eq] at isQuote
    obtain ⟨digits, remaining⟩ := List.head?_eq_some_iff.mp isQuote
    have advanced := passes.trans (passes_advance remaining rfl)
    have unbroken' : Unbroken (c.rest.takeWhile Byte.isNamePart ++ [Byte.apostrophe]) :=
      unbroken_append.mpr ⟨unbroken, unbroken_cons.mpr ⟨rfl, unbroken_nil⟩⟩
    have cleared : s.names.Grows
        ((s.spelling (c.rest.takeWhile Byte.isNamePart)).mapNames .clearPending).names :=
      spelling.trans (NameTable.grows_setPending _ [])
    split at word_eq
    · exact (ahead_number word_eq).before unbroken' advanced cleared
    · cases word_eq
      exact .again unbroken' advanced cleared
  · split at word_eq
    · next interned =>
      exact (ahead_named word_eq).before unbroken passes
        (spelling.trans (grows_of_internPending? interned))
    · cases word_eq
      exact .refused unbroken passes spelling

theorem ahead_parameter (remaining : c.rest = Byte.dollar :: rest) (s : Session) (resume : ScannerMode) :
    Ahead s c resume (c.parameter s) := by
  obtain ⟨after, passes, spelled⟩ := spell_cleared (c := c.advance) rfl s
  have advanced := (passes_advance remaining rfl).trans passes
  have unbroken : Unbroken ([Byte.dollar] ++ c.advance.rest.takeWhile Byte.isNamePart) :=
    unbroken_append.mpr
      ⟨unbroken_cons.mpr ⟨rfl, unbroken_nil⟩, unbroken_takeWhile_isNamePart c.advance.rest⟩
  have spelling : s.names.Grows (s.spelling (c.advance.rest.takeWhile Byte.isNamePart)).names :=
    s.names.grows_setPending _
  rw [parameter, spelled]
  dsimp only
  split
  · next interned =>
    refine .done unbroken advanced ?_ Token.noConfusion
    have grows := spelling.trans (grows_of_internPending? interned)
    split
    · exact grows
    · exact grows
  · exact .refused unbroken advanced spelling

theorem inside_names (quote : Byte) (c : Scanner) (s : Session) (afterReturn intact : Bool)
    (content bytes : Bytes) :
    (inside quote c s afterReturn intact content bytes).session.names = s.names := by
  fun_induction inside quote c s afterReturn intact content bytes with
  | case1 => rfl
  | case2 => rfl
  | case3 _ _ _ _ _ _ _ _ _ _ _ _ ih => exact ih
  | case4 _ _ _ _ _ _ _ _ _ _ _ _ _ ih => exact ih
  | case5 _ _ _ _ _ _ _ _ _ ih => exact ih

/-- Behind a literal there is a token that does not end the statement, or scanning resumes. -/
theorem quoted_cases {quote : Byte} (isQuote : Quoted.IsQuote quote) (remaining : c.rest = quote :: rest)
    (s : Session) (resume : ScannerMode) :
    ∃ s' c', c.Passes (quote :: rest.take (Quoted.scan quote rest).length) c' ∧ s'.names = s.names ∧
      (c.quoted s resume quote = .again s' c' resume ∨
        ∃ token, token ≠ .symbol .endOfStatement ∧ c.quoted s resume quote = c'.finish s' token none) := by
  have passes := passes_inside isQuote remaining s
  have names_eq := inside_names quote c.advance s false true [] rest
  rw [quoted, rest_advance remaining]
  generalize inside quote c.advance s false true [] rest = found at passes names_eq ⊢
  obtain ⟨s', after, closed, intact, content⟩ := found
  dsimp only at passes names_eq ⊢
  have reported : ∀ fault, (after.report s' fault).names = s.names := fun _ => names_eq
  split
  · exact ⟨_, _, passes, reported _, .inl rfl⟩
  split
  · exact ⟨_, _, passes, names_eq, .inl rfl⟩
  split
  · exact ⟨_, _, passes, names_eq, .inr ⟨_, Token.noConfusion, rfl⟩⟩
  split
  · exact ⟨_, _, passes, names_eq, .inr ⟨_, Token.noConfusion, rfl⟩⟩
  · exact ⟨_, _, passes, reported _, .inl rfl⟩

/-- The bytes of a line from the mark on are one turn. -/
theorem Ahead.turns (ahead : Ahead s c.mark (.startOf c.opens) stage) : Turns s c mode stage := by
  cases ahead with
  | again unbroken passes grows =>
    refine .goesOn (.inr rfl) unbroken passes grows .start ?_
    cases c.opens <;> exact Bool.false_ne_true.elim
  | done unbroken passes grows goesOn =>
    exact .completes (.inl rfl) unbroken passes grows fun ends => absurd ends goesOn
  | refused unbroken passes grows => exact .refused unbroken passes grows

theorem based_of_starts (c : Scanner) (starts : Bool) :
    (if starts then c.mark else c) = c ∨ (if starts then c.mark else c) = c.mark := by
  cases starts
  · exact .inl rfl
  · exact .inr rfl

theorem begins_of_marked {starts : Bool} (marked : starts ∨ mode.isBegun) (c : Scanner) :
    c.Begins mode (if starts then c.mark else c) := by
  cases starts with
  | false => exact .inr ⟨rfl, marked.resolve_left Bool.false_ne_true⟩
  | true => exact .inl rfl

/-- What is done about the byte under the cursor keeps to its line. -/
theorem passes_under (starts : Bool) (under : c.rest.head? = some b) (noBreak : b.isLineBreak = false) :
    (if starts then c.mark else c).Passes [b] (if starts then c.mark else c).advance := by
  obtain ⟨rest, remaining⟩ := List.head?_eq_some_iff.mp under
  cases starts with
  | false => exact passes_advance (c := c) remaining noBreak
  | true => exact passes_advance (c := c.mark) remaining noBreak

/-- A turn comes to nothing else, by what the table says. -/
theorem turns_of_turn (suits : mode.Suits c.opens) (turn_eq : c.turn s mode = .ok stage) :
    Turns s c mode stage := by
  have leads := suits.leads c.rest.head?
  have refl := NameTable.Grows.refl s.names
  have one : ∀ {b : Byte}, b.isLineBreak = false → Unbroken [b] :=
    fun noBreak => unbroken_cons.mpr ⟨noBreak, unbroken_nil⟩
  rw [turn, peek?_eq] at turn_eq
  generalize under : c.rest.head? = b?, mode.transition c.rest.head? = transition at leads turn_eq
  cases leads with
  | take noBreak suits' marked =>
    cases turn_eq
    exact .goesOn (c.based_of_starts _) (one noBreak) (passes_under _ under noBreak) refl suits'
      fun begun => begins_of_marked (marked begun) c
  | @produce b kind starts noBreak marked ends =>
    cases turn_eq
    refine .completes (begins_of_marked marked c) (one noBreak) (passes_under _ under noBreak) refl ?_
    intro token_eq
    obtain ⟨rfl, mode_eq⟩ := ends (congrArg Token.kind token_eq)
    exact ⟨mode_eq, under⟩
  | yield marked goesOn =>
    cases turn_eq
    exact .completes (.inr ⟨rfl, marked⟩) unbroken_nil (.refl c) refl
      fun token_eq => absurd (congrArg Token.kind token_eq) goesOn
  | lineBreak isBreak silent =>
    obtain ⟨rest, remaining⟩ := List.head?_eq_some_iff.mp under
    cases turn_eq
    exact .lineBreak remaining isBreak silent
  | endStatement isBreak begun code =>
    obtain ⟨rest, remaining⟩ := List.head?_eq_some_iff.mp under
    cases turn_eq
    exact .endStatement remaining isBreak begun code
  | number starts =>
    subst starts
    rw [ScannerMode.resumed_startOf] at turn_eq
    exact (ahead_number turn_eq).turns
  | quoted starts isQuote =>
    subst starts
    obtain ⟨rest, remaining⟩ := List.head?_eq_some_iff.mp under
    rw [ScannerMode.resumed_startOf] at turn_eq
    cases turn_eq
    exact .quoted remaining isQuote rfl
  | word starts =>
    subst starts
    have ahead := ahead_word turn_eq
    rw [ScannerMode.resumed_startOf] at ahead
    exact ahead.turns
  | parameter starts =>
    subst starts
    obtain ⟨rest, remaining⟩ := List.head?_eq_some_iff.mp under
    cases turn_eq
    exact (ahead_parameter (c := c.mark) remaining s _).turns
  | unexpected starts noBreak =>
    obtain ⟨rest, remaining⟩ := List.head?_eq_some_iff.mp under
    cases turn_eq
    refine .goesOn (.inl rfl) (one noBreak) (passes_advance remaining noBreak) refl .start ?_
    cases c.opens <;> exact Bool.false_ne_true.elim
  | stray stands noBreak =>
    cases turn_eq
    refine .goesOn (.inl rfl) unbroken_nil (.refl c) refl .start ?_
    cases c.opens <;> exact Bool.false_ne_true.elim
  | endOfSource =>
    cases turn_eq
    exact .completes (.inl rfl) unbroken_nil (.refl c.mark) refl fun token_eq => by cases token_eq

/-- The counters are those of the bytes before the cursor. -/
def Counted (c : Scanner) : Prop :=
  c.Counts (Position.initial.passAll (c.cursor.buffer.bytes.take c.cursor.position))

/-- The marks are those of an offset that the cursor is not before. -/
structure Marked (c : Scanner) : Prop where
  start_le : c.start ≤ c.cursor.position
  marks : c.Marks (Position.initial.passAll (c.cursor.buffer.bytes.take c.start))

theorem Passes.counted (passes : c.Passes bytes later) (counted : c.Counted) : later.Counted := by
  have before := passes.counts counted
  have taken : c.cursor.buffer.bytes.take c.cursor.position ++ bytes =
      c.cursor.buffer.bytes.take (c.cursor.position + bytes.length) := by
    have bytes_eq : c.rest.take bytes.length = bytes := by rw [passes.rest_eq, List.take_left]
    rw [List.take_add, ← bytes_eq, List.length_take, Nat.min_eq_left (by simp [passes.rest_eq])]
    rfl
  rw [← Position.passAll_append, taken] at before
  rw [Counted, passes.buffer_eq, passes.offset_eq]
  exact before

theorem Moves.marked (moves : c.Moves bytes later) (marked : c.Marked) : later.Marked := by
  obtain ⟨start_le, start_eq, location_eq⟩ := marked
  constructor
  · rw [moves.start_eq, moves.offset_eq]
    exact Nat.le_add_right_of_le start_le
  · rw [moves.start_eq, moves.buffer_eq]
    exact ⟨moves.start_eq.trans start_eq, by rw [moves.location_eq, location_eq, moves.file_eq]⟩

theorem Counted.mark (counted : c.Counted) : c.mark.Counted ∧ c.mark.Marked :=
  ⟨(Counts.mark counted).1, Nat.le_refl _, (Counts.mark counted).2⟩

theorem Counted.close (counted : c.Counted) (token : Token) : (c.close token).Counted :=
  ⟨⟨counted.offset_eq, counted.nextLine_eq, counted.lineStart_eq⟩, counted.whole⟩

theorem Marked.close (marked : c.Marked) (token : Token) : (c.close token).Marked :=
  ⟨marked.start_le, marked.marks.start_eq, marked.marks.location_eq⟩

namespace Stage

def token? : Stage → Option Token
  | .again _ _ _ => none
  | .done _ _ token _ => some token
  | .refused _ _ => none

/-- The start of a token, or of what should become one, has been marked. -/
def isBegun : Stage → Bool
  | .again _ _ mode => mode.isBegun
  | .done _ _ _ _ => true
  | .refused _ _ => true

/-- The mode is of the family that the scanner is in. -/
def Suits : Stage → Prop
  | .again _ c mode => mode.Suits c.opens
  | .done _ _ _ _ => True
  | .refused _ _ => True

end Stage

/-- Where calls may have come to, with the tokens of the calls before. Each call is made in a
session of its own, of which nothing is known but that the table has the empty name and its index
is in step, and may follow one that was refused. -/
inductive Reachable (file : UInt32) (buffer : Buffer) : List Token → Stage → Prop
  | opened {s : Session} (rooted : s.names.Rooted) :
      Reachable file buffer [] (.again s (ofBuffer file buffer) .lineStart)
  | turned {tokens : List Token} {s : Session} {c : Scanner} {mode : ScannerMode} {stage : Stage}
      (before : Reachable file buffer tokens (.again s c mode))
      (turn_eq : c.turn s mode = .ok stage) : Reachable file buffer tokens stage
  | called {tokens : List Token} {s s' : Session} {c : Scanner} {token : Token}
      {name? : Option Name} (before : Reachable file buffer tokens (.done s c token name?))
      (rooted : s'.names.Rooted) :
      Reachable file buffer (tokens ++ [token]) (.again s' c c.startMode)
  | retried {tokens : List Token} {s s' : Session} {c : Scanner}
      (before : Reachable file buffer tokens (.refused s c)) (rooted : s'.names.Rooted) :
      Reachable file buffer tokens (.again s' c c.startMode)

/-- What holds wherever calls may have come to. -/
structure Upheld (file : UInt32) (buffer : Buffer) (tokens : List Token) (stage : Stage) : Prop where
  rooted : stage.session.names.Rooted
  file_eq : stage.scanner.file = file
  buffer_eq : stage.scanner.cursor.buffer = buffer
  counted : stage.scanner.Counted
  marked : stage.isBegun → stage.scanner.Marked
  suits : stage.Suits
  opens_eq : stage.scanner.opens = !Token.begun (tokens ++ stage.token?.toList)

variable {file : UInt32} {buffer : Buffer} {tokens : List Token}

theorem isBegun_startOf (opens : Bool) : (ScannerMode.startOf opens).isBegun = false := by
  cases opens <;> rfl

/-- What a turn passes from the mark or from the cursor on. -/
theorem Upheld.goesOn {base : Scanner} (upheld : Upheld file buffer tokens (.again s c mode))
    (based : base = c ∨ base = c.mark) (passes : base.Passes bytes later) :
    later.file = file ∧ later.cursor.buffer = buffer ∧ later.Counted ∧ later.opens = c.opens := by
  rcases based with rfl | rfl
  · exact ⟨passes.file_eq.trans upheld.file_eq, passes.buffer_eq.trans upheld.buffer_eq,
      passes.counted upheld.counted, passes.opens_eq⟩
  · exact ⟨passes.file_eq.trans upheld.file_eq, passes.buffer_eq.trans upheld.buffer_eq,
      passes.counted (Counted.mark upheld.counted).1, passes.opens_eq⟩

theorem Upheld.marked_of_begins {base : Scanner} (upheld : Upheld file buffer tokens (.again s c mode))
    (begins : c.Begins mode base) (passes : base.Passes bytes later) : later.Marked := by
  rcases begins with rfl | ⟨rfl, begun⟩
  · exact passes.marked (Counted.mark upheld.counted).2
  · exact passes.marked (upheld.marked begun)

theorem Begins.based {base : Scanner} (begins : c.Begins mode base) : base = c ∨ base = c.mark :=
  begins.elim .inr fun both => .inl both.1

theorem Upheld.opens (upheld : Upheld file buffer tokens (.again s c mode)) :
    c.opens = !Token.begun tokens := by
  have opens_eq := upheld.opens_eq
  rw [Stage.token?, Option.toList_none, List.append_nil] at opens_eq
  exact opens_eq

theorem opens_close (c : Scanner) (tokens : List Token) (token : Token) :
    (c.close token).opens = !Token.begun (tokens ++ [token]) := by
  rw [Token.begun_append_singleton]
  simp [close]

/-- A turn that completes no token. -/
theorem Upheld.again {base : Scanner} {mode' : ScannerMode}
    (upheld : Upheld file buffer tokens (.again s c mode)) (based : base = c ∨ base = c.mark)
    (passes : base.Passes bytes later) (grows : s.names.Grows s'.names) (suits : mode'.Suits c.opens)
    (begins : mode'.isBegun → c.Begins mode base) :
    Upheld file buffer tokens (.again s' later mode') := by
  obtain ⟨file_eq, buffer_eq, counted, opens_eq⟩ := upheld.goesOn based passes
  refine ⟨upheld.rooted.grows grows, file_eq, buffer_eq, counted, ?_, ?_, ?_⟩
  · exact fun begun => upheld.marked_of_begins (begins begun) passes
  · rw [Stage.Suits, opens_eq]
    exact suits
  · rw [Stage.token?, Option.toList_none, List.append_nil]
    exact opens_eq.trans upheld.opens

theorem Upheld.finish {base : Scanner} {token : Token} {name? : Option Name}
    (upheld : Upheld file buffer tokens (.again s c mode)) (begins : c.Begins mode base)
    (passes : base.Passes bytes later) (grows : s.names.Grows s'.names) :
    Upheld file buffer tokens (later.finish s' token name?) := by
  obtain ⟨file_eq, buffer_eq, counted, _⟩ := upheld.goesOn begins.based passes
  exact ⟨upheld.rooted.grows grows, file_eq, buffer_eq, counted.close token,
    fun _ => (upheld.marked_of_begins begins passes).close token, trivial,
    later.opens_close tokens token⟩

theorem Upheld.turned (upheld : Upheld file buffer tokens (.again s c mode))
    (turns : Turns s c mode stage) : Upheld file buffer tokens stage := by
  have refl := NameTable.Grows.refl s.names
  have silent : (ScannerMode.startOf c.opens).isBegun → ∀ {base}, c.Begins mode base := by
    rw [isBegun_startOf]
    exact Bool.false_ne_true.elim
  cases turns with
  | goesOn based _ passes grows suits begins => exact upheld.again based passes grows suits begins
  | completes begins _ passes grows _ => exact upheld.finish begins passes grows
  | refused _ passes grows =>
    obtain ⟨file_eq, buffer_eq, counted, opens_eq⟩ := upheld.goesOn (.inr rfl) passes
    refine ⟨upheld.rooted.grows grows, file_eq, buffer_eq, counted,
      fun _ => upheld.marked_of_begins (.inl rfl) passes, trivial, ?_⟩
    rw [Stage.token?, Option.toList_none, List.append_nil]
    exact opens_eq.trans upheld.opens
  | lineBreak remaining isBreak _ =>
    exact upheld.again (.inl rfl) (passes_passBreak remaining isBreak) refl .start fun begun => silent begun
  | endStatement remaining isBreak _ _ =>
    exact upheld.finish (.inl rfl) (passes_passBreak (c := c.mark) remaining isBreak) refl
  | quoted remaining isQuote _ =>
    obtain ⟨s', c', passes, names_eq, resumes | ⟨token, _, completes⟩⟩ :=
      quoted_cases (c := c.mark) isQuote remaining s (.startOf c.opens)
    · rw [resumes]
      exact upheld.again (.inr rfl) passes (names_eq ▸ refl) .start fun begun => silent begun
    · rw [completes]
      exact upheld.finish (.inl rfl) passes (names_eq ▸ refl)

/-- No turn and no call does away with what is known. -/
theorem Reachable.upheld (reachable : Reachable file buffer tokens stage) :
    Upheld file buffer tokens stage := by
  induction reachable with
  | opened rooted =>
    exact ⟨rooted, rfl, rfl, ⟨⟨rfl, rfl, rfl⟩, Bool.false_ne_true.elim⟩, Bool.false_ne_true.elim,
      .start, rfl⟩
  | turned before turn_eq ih => exact ih.turned (turns_of_turn ih.suits turn_eq)
  | @called tokens s s' c token name? before rooted ih =>
    refine ⟨rooted, ih.file_eq, ih.buffer_eq, ih.counted, ?_, .start, ?_⟩
    · rw [Stage.isBegun, startMode, ← ScannerMode.startOf, isBegun_startOf]
      exact Bool.false_ne_true.elim
    · rw [Stage.token?, Option.toList_none, List.append_nil]
      exact ih.opens_eq
  | @retried tokens s s' c before rooted ih =>
    refine ⟨rooted, ih.file_eq, ih.buffer_eq, ih.counted, ?_, .start, ih.opens_eq⟩
    rw [Stage.isBegun, startMode, ← ScannerMode.startOf, isBegun_startOf]
    exact Bool.false_ne_true.elim

theorem Reachable.steps {n : Nat} (reachable : Reachable file buffer tokens stage) {last : Stage}
    (steps_eq : stage.steps n = .ok last) : Reachable file buffer tokens last := by
  induction n generalizing stage with
  | zero =>
    cases steps_eq
    exact reachable
  | succ n ih =>
    rw [Stage.steps] at steps_eq
    cases stage with
    | done => exact ih reachable steps_eq
    | refused => exact ih reachable steps_eq
    | again s c mode =>
      cases turn_eq : c.turn s mode with
      | error =>
        rw [Stage.step, turn_eq] at steps_eq
        cases steps_eq
      | ok next =>
        rw [Stage.step, turn_eq] at steps_eq
        exact ih (reachable.turned turn_eq) steps_eq

/-- Calls come nowhere else. -/
theorem reachable_afterCalls {sessions : Nat → Session}
    (rooted : ∀ n, (sessions n).names.Rooted) {n : Nat}
    (calls : (ofBuffer file buffer).afterCalls sessions n = .ok c) :
    ∃ tokens, Reachable file buffer tokens (.again (sessions n) c c.startMode) := by
  induction n generalizing c with
  | zero =>
    cases calls
    exact ⟨[], .opened (rooted 0)⟩
  | succ n ih =>
    obtain ⟨c₀, lexer, calls₀, follows⟩ := exists_follows_afterCalls file buffer rooted n
    obtain ⟨tokens, reachable⟩ := ih calls₀
    cases follows.answers (rooted n) with
    | granted _ ends =>
      obtain rfl := Except.ok.inj (calls.symm.trans (afterCalls_succ calls₀ ends))
      exact ⟨_, (reachable.steps ends.next_eq).called (rooted (n + 1))⟩
    | refused _ _ ends =>
      obtain rfl := Except.ok.inj (calls.symm.trans (afterCalls_succ calls₀ ends))
      exact ⟨_, (reachable.steps ends.next_eq).retried (rooted (n + 1))⟩

theorem exists_reachable_afterCalls (file : UInt32) (buffer : Buffer) {sessions : Nat → Session}
    (rooted : ∀ n, (sessions n).names.Rooted) (n : Nat) :
    ∃ c tokens, (ofBuffer file buffer).afterCalls sessions n = .ok c ∧
      Reachable file buffer tokens (.again (sessions n) c c.startMode) := by
  obtain ⟨c, _, calls, _⟩ := exists_follows_afterCalls file buffer rooted n
  obtain ⟨tokens, reachable⟩ := reachable_afterCalls rooted calls
  exact ⟨c, tokens, calls, reachable⟩

theorem Reachable.again {mode : ScannerMode}
    (reachable : Reachable file buffer tokens (.again s c mode)) :
    s.names.Rooted ∧ c.file = file ∧ c.Counted ∧ c.rest = buffer.bytes.drop c.cursor.position ∧
      c.opens = !Token.begun tokens := by
  have upheld := reachable.upheld
  have buffer_eq : c.cursor.buffer = buffer := upheld.buffer_eq
  refine ⟨upheld.rooted, upheld.file_eq, upheld.counted, ?_, upheld.opens⟩
  rw [rest, buffer_eq]

end AssemblyLexer.Scanner
