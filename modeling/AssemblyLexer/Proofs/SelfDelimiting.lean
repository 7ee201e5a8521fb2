import AssemblyLexer.Proofs.Dispatch

/-!
Tokens delimit themselves. The bytes of a token are scanned as the same token
when a space or nothing follows them, whatever it was that followed before. A
line break delimits a token as well as a space does, unless the token is a line
break itself, and so does the byte that followed before.
-/

set_option autoImplicit false

namespace AssemblyLexer

/-- Nothing follows, or a space does. -/
def Separated (after : Bytes) : Prop :=
  ∀ b ∈ after.head?, b = Byte.space

/-- What follows starts with a space or a line break, if not with the byte that stood there
before. -/
def Delimits (behind after : Bytes) : Prop :=
  ∀ b ∈ after.head?, b = Byte.space ∨ b.isLineBreak ∨ behind.head? = some b

theorem Separated.delimits {after : Bytes} (separated : Separated after) (behind : Bytes) :
    Delimits behind after :=
  fun b isHead => .inl (separated b isHead)

/-- A byte that starts what follows stops whatever is stopped by spaces and line breaks and has
been stopped before. -/
theorem Delimits.stops {behind after : Bytes} (delimits : Delimits behind after) {P : Byte → Prop}
    (stopped : ∀ b ∈ behind.head?, P b) (space : P Byte.space) (lineFeed : P Byte.lineFeed)
    (carriageReturn : P Byte.carriageReturn) : ∀ b ∈ after.head?, P b := by
  intro b isHead
  rcases delimits b isHead with rfl | isBreak | same
  · exact space
  · rcases Byte.isLineBreak_iff.mp isBreak with rfl | rfl
    · exact lineFeed
    · exact carriageReturn
  · exact stopped b same

theorem Delimits.head?_ne {behind after : Bytes} (delimits : Delimits behind after) {b : Byte}
    (unlike : behind.head? ≠ some b) (space : Byte.space ≠ b) (lineFeed : Byte.lineFeed ≠ b)
    (carriageReturn : Byte.carriageReturn ≠ b) : after.head? ≠ some b := by
  intro isHead
  apply delimits.stops (P := fun d => d ≠ b) _ space lineFeed carriageReturn b isHead rfl
  rintro d isHead' rfl
  exact unlike isHead'

namespace NumberProgress

theorem run_of_stops {radix : Radix} {p : NumberProgress} {after : Bytes}
    (stops : ∀ b ∈ after.head?, p.step? radix b = none) (taken : Nat) :
    p.run radix taken after = (p, taken) := by
  cases after with
  | nil => rfl
  | cons b rest => rw [run, stops b rfl]

/-- The run over what was taken ends in the same state before any byte that stops that state. -/
theorem run_take_append (radix : Radix) (p : NumberProgress) (taken : Nat) (bytes after : Bytes)
    (stops : ∀ b ∈ after.head?, (p.run radix taken bytes).1.step? radix b = none) :
    p.run radix taken (bytes.take ((p.run radix taken bytes).2 - taken) ++ after) =
      p.run radix taken bytes := by
  fun_induction run radix p taken bytes with
  | case1 p taken =>
    rw [List.take_nil]
    exact run_of_stops stops taken
  | case2 p taken b rest next step ih =>
    have passed := (run_taken radix next (taken + 1) rest).1
    have again := ih stops
    generalize run radix next (taken + 1) rest = result at passed again ⊢
    have taken_eq : result.2 - taken = result.2 - (taken + 1) + 1 := by omega
    rw [taken_eq, List.take_succ_cons, List.cons_append, run, step]
    exact again
  | case3 p taken b rest step =>
    rw [Nat.sub_self, List.take_zero]
    exact run_of_stops stops taken

/-- The byte behind what was taken stops the state that has been reached. -/
theorem run_stops (radix : Radix) (p : NumberProgress) (taken : Nat) (bytes : Bytes) :
    ∀ b ∈ (bytes.drop ((p.run radix taken bytes).2 - taken)).head?,
      (p.run radix taken bytes).1.step? radix b = none := by
  fun_induction run radix p taken bytes with
  | case1 => simp
  | case2 p taken b rest next step ih =>
    have passed := (run_taken radix next (taken + 1) rest).1
    generalize run radix next (taken + 1) rest = result at passed ih ⊢
    have taken_eq : result.2 - taken = result.2 - (taken + 1) + 1 := by omega
    simpa only [taken_eq, List.drop_succ_cons] using ih
  | case3 p taken b rest step =>
    rw [Nat.sub_self]
    rintro d isHead
    cases isHead
    exact step

theorem step?_of_outside {b : Byte} (outside : ∀ base, NumberSymbol.ofByte base b = .outside)
    (radix : Radix) (p : NumberProgress) : p.step? radix b = none := by
  rw [step?, outside]
  simp [take?]

theorem step?_isSome_of_isDecimalDigit {b : Byte} (isDigit : b.isDecimalDigit) :
    (initial.step? .decimal b).isSome := by
  have value : b.digitValue? = some (b.toNat - 0x30) := if_pos isDigit
  have small : b.toNat - 0x30 < 10 := by
    simp only [Byte.isDecimalDigit, Bool.and_eq_true, decide_eq_true_eq,
      UInt8.le_iff_toNat_le] at isDigit
    have upper := isDigit.2
    simp at upper
    omega
  have symbol : NumberSymbol.ofByte 10 b = .digit (b.toNat - 0x30) := by
    rw [NumberSymbol.ofByte, value]
    exact if_pos small
  have base : (if initial.phase.inExponent then 10 else Radix.decimal.value) = 10 := rfl
  rw [step?, base, symbol]
  rfl

end NumberProgress

namespace NumberScan

theorem scan_take_append (radix : Radix) (bytes : Bytes) {after : Bytes}
    (delimits : Delimits (bytes.drop (scan radix bytes).length) after) :
    scan radix (bytes.take (scan radix bytes).length ++ after) = scan radix bytes := by
  have stopped := NumberProgress.initial.run_stops radix 0 bytes
  have again := NumberProgress.initial.run_take_append radix 0 bytes after
  rw [Nat.sub_zero] at stopped again
  have same := again (delimits.stops stopped
    (NumberProgress.step?_of_outside (fun _ => rfl) radix _)
    (NumberProgress.step?_of_outside (fun _ => rfl) radix _)
    (NumberProgress.step?_of_outside (fun _ => rfl) radix _))
  simp only [scan] at same ⊢
  rw [same]

theorem length_pos_of_isDecimalDigit {first : Byte} (isDigit : first.isDecimalDigit)
    (rest : Bytes) : 0 < (scan .decimal (first :: rest)).length := by
  obtain ⟨next, step⟩ := Option.isSome_iff_exists.mp
    (NumberProgress.step?_isSome_of_isDecimalDigit isDigit)
  have passed := (next.run_taken .decimal 1 rest).1
  simp only [scan, NumberProgress.run, step]
  exact passed

end NumberScan

namespace TokenKind

theorem grown_of_stops {kind : TokenKind} {after : Bytes}
    (stops : ∀ b ∈ after.head?, kind.extended? b = none) : kind.grown after = (kind, 0) := by
  cases after with
  | nil => rfl
  | cons b rest => rw [grown, stops b rfl]

theorem grown_take_append (kind : TokenKind) (bytes after : Bytes)
    (stops : ∀ b ∈ after.head?, (kind.grown bytes).1.extended? b = none) :
    kind.grown (bytes.take (kind.grown bytes).2 ++ after) = kind.grown bytes := by
  fun_induction grown kind bytes with
  | case1 kind =>
    rw [List.take_nil]
    exact grown_of_stops stops
  | case2 kind b rest longer extends' final taken grows ih =>
    rw [grows] at ih
    rw [List.take_succ_cons, List.cons_append, grown, extends']
    dsimp only
    rw [ih stops]
  | case3 kind b rest step =>
    rw [List.take_zero]
    exact grown_of_stops stops

/-- The byte behind an operator does not extend it. -/
theorem grown_stops (kind : TokenKind) (bytes : Bytes) :
    ∀ b ∈ (bytes.drop (kind.grown bytes).2).head?, (kind.grown bytes).1.extended? b = none := by
  fun_induction grown kind bytes with
  | case1 => simp
  | case2 kind b rest longer extends' final taken grows ih =>
    simpa only [grows, List.drop_succ_cons] using ih
  | case3 kind b rest step =>
    rintro d isHead
    cases isHead
    exact step

theorem extended?_space (kind : TokenKind) : kind.extended? Byte.space = none := by
  cases kind <;> rfl

theorem extended?_lineFeed (kind : TokenKind) : kind.extended? Byte.lineFeed = none := by
  cases kind <;> rfl

theorem extended?_carriageReturn (kind : TokenKind) :
    kind.extended? Byte.carriageReturn = none := by
  cases kind <;> rfl

end TokenKind

namespace Segment

variable {after : Bytes}

theorem breakTail_take_append {first : Byte} {rest : Bytes}
    (unpaired : first = Byte.carriageReturn → after.head? = some Byte.lineFeed →
      rest.head? = some Byte.lineFeed) :
    breakTail first (rest.take (breakTail first rest) ++ after) = breakTail first rest := by
  by_cases paired : first = Byte.carriageReturn ∧ rest.head? = some Byte.lineFeed
  · obtain ⟨isReturn, isHead⟩ := paired
    obtain ⟨rest, rfl⟩ := List.head?_eq_some_iff.mp isHead
    have tail_eq : breakTail first (Byte.lineFeed :: rest) = 1 := if_pos ⟨isReturn, rfl⟩
    rw [tail_eq]
    exact if_pos ⟨isReturn, rfl⟩
  · have tail_eq : breakTail first rest = 0 := if_neg paired
    rw [tail_eq, List.take_zero, List.nil_append]
    apply if_neg
    rintro ⟨isReturn, isHead⟩
    exact paired ⟨isReturn, unpaired isReturn isHead⟩

theorem lineBreak_take_append (fresh : Bool) {first : Byte} {rest : Bytes}
    (unpaired : first = Byte.carriageReturn → after.head? = some Byte.lineFeed →
      rest.head? = some Byte.lineFeed) :
    lineBreak fresh first (rest.take (lineBreak fresh first rest).tail ++ after) =
      lineBreak fresh first rest := by
  have tail_eq := breakTail_take_append unpaired
  simp only [lineBreak, tail_eq]

theorem parameter_take_append {rest : Bytes}
    (delimits : Delimits (rest.drop (parameter rest).tail) after) :
    parameter (rest.take (parameter rest).tail ++ after) = parameter rest := by
  obtain ⟨name, behind, rest_eq, all, stops, name_eq, behind_eq⟩ :=
    exists_stretch Byte.isNamePart rest
  have tail_eq : (parameter rest).tail = name.length := by rw [parameter, name_eq]
  rw [tail_eq, behind_eq] at delimits
  have again : (name ++ after).takeWhile Byte.isNamePart = name :=
    takeWhile_append_of_stopsClass all (delimits.stops stops rfl rfl rfl)
  have taken_eq : rest.take (parameter rest).tail = name := by
    rw [tail_eq, rest_eq, List.take_left]
  rw [taken_eq, parameter, parameter, name_eq, again]

theorem operator_take_append {first : Byte} {rest : Bytes}
    (delimits : Delimits (rest.drop (operator first rest).tail) after) :
    operator first (rest.take (operator first rest).tail ++ after) = operator first rest := by
  unfold operator at delimits ⊢
  cases spelled : TokenKind.ofByte? first with
  | none => rfl
  | some kind =>
    rw [spelled] at delimits
    have again := kind.grown_take_append rest after (delimits.stops (kind.grown_stops rest)
      (TokenKind.extended?_space _) (TokenKind.extended?_lineFeed _)
      (TokenKind.extended?_carriageReturn _))
    simp only [token] at again ⊢
    rw [again]

theorem decimal_take_append {first : Byte} (isDigit : first.isDecimalDigit) {rest : Bytes}
    (delimits : Delimits (rest.drop (decimal first rest).tail) after) :
    decimal first (rest.take (decimal first rest).tail ++ after) = decimal first rest := by
  have positive := NumberScan.length_pos_of_isDecimalDigit isDigit rest
  obtain ⟨more, length_eq⟩ := Nat.exists_eq_add_of_lt positive
  rw [Nat.zero_add] at length_eq
  have tail_eq : (decimal first rest).tail = more := by
    rw [decimal, tail_number, length_eq]
    exact Nat.add_sub_cancel _ _
  have again (delimited : Delimits
      ((first :: rest).drop (NumberScan.scan .decimal (first :: rest)).length) after) :=
    NumberScan.scan_take_append .decimal (first :: rest) delimited
  rw [length_eq, List.take_succ_cons, List.cons_append, List.drop_succ_cons] at again
  rw [tail_eq] at delimits ⊢
  unfold decimal
  rw [again delimits]

theorem token?_backslash (rest : Bytes) : (backslash rest).token? = none := by
  unfold backslash
  repeat' split
  all_goals rfl

theorem tail_quoted (quote : Byte) (rest : Bytes) :
    (quoted quote rest).tail = (Quoted.scan quote rest).length := by
  unfold quoted
  dsimp only
  repeat' split
  all_goals rfl

theorem closed_of_quoted {quote : Byte} {rest : Bytes} (found : (quoted quote rest).token?.isSome) :
    (Quoted.scan quote rest).closed := by
  cases isClosed : (Quoted.scan quote rest).closed with
  | true => rfl
  | false => simp [quoted, isClosed] at found

theorem quoted_take_append {quote : Byte} {rest : Bytes} (closed : (Quoted.scan quote rest).closed)
    (after : Bytes) :
    quoted quote (rest.take (quoted quote rest).tail ++ after) = quoted quote rest := by
  rw [tail_quoted]
  unfold quoted
  rw [Quoted.scan_take_append closed after]

theorem labelScope_take_append {name bytes : Bytes}
    (delimits : Delimits (bytes.drop (labelScope name bytes).2) after) :
    labelScope name (bytes.take (labelScope name bytes).2 ++ after) = labelScope name bytes := by
  by_cases isColon : bytes.head? = some Byte.colon
  · obtain ⟨rest, rfl⟩ := List.head?_eq_some_iff.mp isColon
    simp [labelScope]
  · by_cases isQuestion : bytes.head? = some Byte.question
    · obtain ⟨rest, rfl⟩ := List.head?_eq_some_iff.mp isQuestion
      have scope_eq : ∀ more, labelScope name (Byte.question :: more) = (.weakLabel, 1) :=
        fun _ => rfl
      simp [scope_eq]
    · have taken_eq : (labelScope name bytes).2 = 0 := by simp [labelScope, isColon, isQuestion]
      rw [taken_eq] at delimits
      have noColon := delimits.head?_ne isColon (by decide) (by decide) (by decide)
      have noQuestion := delimits.head?_ne isQuestion (by decide) (by decide) (by decide)
      simp [labelScope, isColon, isQuestion, noColon, noQuestion]

/-- Behind the colon of a label stands at most a second one or a question mark. -/
theorem mem_take_labelScope {name after : Bytes} {b : Byte}
    (membership : b ∈ after.take (labelScope name after).2) :
    b = Byte.colon ∨ b = Byte.question := by
  by_cases isColon : after.head? = some Byte.colon
  · obtain ⟨later, rfl⟩ := List.head?_eq_some_iff.mp isColon
    have taken_eq : (labelScope name (Byte.colon :: later)).2 = 1 := rfl
    rw [taken_eq] at membership
    exact .inl (List.mem_singleton.mp membership)
  · by_cases isQuestion : after.head? = some Byte.question
    · obtain ⟨later, rfl⟩ := List.head?_eq_some_iff.mp isQuestion
      have taken_eq : (labelScope name (Byte.question :: later)).2 = 1 := rfl
      rw [taken_eq] at membership
      exact .inr (List.mem_singleton.mp membership)
    · rw [labelScope, if_neg isColon, if_neg isQuestion] at membership
      cases membership

section Word

variable {first : Byte} {more behind : Bytes}

theorem word_eq_identifier {fresh : Bool} (all : ∀ b ∈ more, b.isNamePart)
    (stops : StopsClass Byte.isNamePart behind) (noQuote : behind.head? ≠ some Byte.apostrophe)
    (noColon : fresh = true → behind.head? ≠ some Byte.colon) :
    word fresh first (more ++ behind) = token .word more.length (.identifier (first :: more)) := by
  rw [word, takeWhile_append_of_stopsClass all stops]
  dsimp only
  rw [List.drop_left]
  cases behind with
  | nil => rfl
  | cons next later =>
    have notQuote : next ≠ Byte.apostrophe := fun isQuote => noQuote (congrArg some isQuote)
    have notLabel : ¬(fresh = true ∧ next = Byte.colon) := fun both =>
      noColon both.1 (congrArg some both.2)
    dsimp only
    rw [if_neg notQuote, if_neg notLabel]

theorem word_eq_number (fresh : Bool) (all : ∀ b ∈ more, b.isNamePart) (digits : Bytes) :
    word fresh first (more ++ Byte.apostrophe :: digits) =
      match Radix.ofSpecifier? (first :: more) with
      | some radix =>
        number .word (more.length + 1 + (NumberScan.scan radix digits).length)
          (NumberScan.scan radix digits)
      | none => faulty .word (more.length + 1) (.invalidSpecifier (first :: more)) := by
  have stops : StopsClass Byte.isNamePart (Byte.apostrophe :: digits) :=
    stopsClass_cons.mpr (by decide)
  rw [word, takeWhile_append_of_stopsClass all stops]
  dsimp only
  rw [List.drop_left]
  rfl

theorem word_eq_label (all : ∀ b ∈ more, b.isNamePart) (later : Bytes) :
    word true first (more ++ Byte.colon :: later) =
      token .word (more.length + 1 + (labelScope (first :: more) later).2)
        (.label (first :: more) (labelScope (first :: more) later).1) := by
  have stops : StopsClass Byte.isNamePart (Byte.colon :: later) :=
    stopsClass_cons.mpr (by decide)
  rw [word, takeWhile_append_of_stopsClass all stops]
  dsimp only
  rw [List.drop_left]
  rfl

/-- A word that is not the base of a number becomes a token with its name, and is not at fault. -/
theorem exists_token_word (fresh : Bool) (all : ∀ b ∈ more, b.isNamePart)
    (stops : StopsClass Byte.isNamePart behind) (noQuote : behind.head? ≠ some Byte.apostrophe) :
    ∃ t, (word fresh first (more ++ behind)).token? = some t ∧ t.name? = some (first :: more) ∧
      (word fresh first (more ++ behind)).findings = [] := by
  by_cases isLabel : fresh = true ∧ behind.head? = some Byte.colon
  · obtain ⟨rfl, isColon⟩ := isLabel
    obtain ⟨later, rfl⟩ := List.head?_eq_some_iff.mp isColon
    rw [word_eq_label all]
    exact ⟨_, rfl, rfl, rfl⟩
  · rw [word_eq_identifier all stops noQuote fun begins isColon => isLabel ⟨begins, isColon⟩]
    exact ⟨_, rfl, rfl, rfl⟩

/-- Everything that a word can be, by what stands behind the name that it starts with. -/
inductive Words (fresh : Bool) (first : Byte) : Bytes → Segment → Prop
  | identifier {more behind : Bytes} (all : ∀ b ∈ more, b.isNamePart)
      (stops : StopsClass Byte.isNamePart behind) :
      Words fresh first (more ++ behind) (token .word more.length (.identifier (first :: more)))
  | number {more digits : Bytes} {radix : Radix} (all : ∀ b ∈ more, b.isNamePart) :
      Words fresh first (more ++ Byte.apostrophe :: digits)
        (number .word (more.length + 1 + (NumberScan.scan radix digits).length)
          (NumberScan.scan radix digits))
  | invalid {more digits : Bytes} (all : ∀ b ∈ more, b.isNamePart) :
      Words fresh first (more ++ Byte.apostrophe :: digits)
        (faulty .word (more.length + 1) (.invalidSpecifier (first :: more)))
  | label {more later : Bytes} (begins : fresh = true) (all : ∀ b ∈ more, b.isNamePart) :
      Words fresh first (more ++ Byte.colon :: later)
        (token .word (more.length + 1 + (labelScope (first :: more) later).2)
          (.label (first :: more) (labelScope (first :: more) later).1))

theorem words_word (fresh : Bool) (first : Byte) (rest : Bytes) :
    Words fresh first rest (word fresh first rest) := by
  obtain ⟨more, behind, rfl, all, stops, _, _⟩ := exists_stretch Byte.isNamePart rest
  by_cases isQuote : behind.head? = some Byte.apostrophe
  · obtain ⟨digits, rfl⟩ := List.head?_eq_some_iff.mp isQuote
    rw [word_eq_number fresh all]
    cases Radix.ofSpecifier? (first :: more) with
    | none => exact .invalid all
    | some radix => exact .number all
  · by_cases isLabel : fresh = true ∧ behind.head? = some Byte.colon
    · obtain ⟨rfl, isColon⟩ := isLabel
      obtain ⟨later, rfl⟩ := List.head?_eq_some_iff.mp isColon
      rw [word_eq_label all]
      exact .label rfl all
    · have noColon : fresh = true → behind.head? ≠ some Byte.colon :=
        fun begins isColon => isLabel ⟨begins, isColon⟩
      rw [word_eq_identifier all stops isQuote noColon]
      exact .identifier all stops

theorem word_take_append {fresh : Bool} {rest : Bytes}
    (delimits : Delimits (rest.drop (word fresh first rest).tail) after) :
    word fresh first (rest.take (word fresh first rest).tail ++ after) = word fresh first rest := by
  obtain ⟨more, behind, rfl, all, stops, _, _⟩ := exists_stretch Byte.isNamePart rest
  by_cases isQuote : behind.head? = some Byte.apostrophe
  · obtain ⟨digits, rfl⟩ := List.head?_eq_some_iff.mp isQuote
    rw [word_eq_number fresh all] at delimits ⊢
    cases specified : Radix.ofSpecifier? (first :: more) with
    | none =>
      dsimp only [faulty]
      rw [List.take_length_add_append, List.take_succ_cons, List.take_zero, List.append_assoc,
        List.cons_append, word_eq_number fresh all, specified]
      rfl
    | some radix =>
      rw [specified] at delimits
      dsimp only at delimits ⊢
      rw [tail_number, Nat.add_assoc, List.drop_length_add_append, Nat.add_comm 1,
        List.drop_succ_cons] at delimits
      rw [tail_number, Nat.add_assoc, List.take_length_add_append, Nat.add_comm 1,
        List.take_succ_cons, List.append_assoc, List.cons_append, word_eq_number fresh all,
        specified]
      dsimp only
      rw [NumberScan.scan_take_append radix digits delimits, Nat.add_assoc, Nat.add_comm 1]
  · by_cases isLabel : fresh = true ∧ behind.head? = some Byte.colon
    · obtain ⟨rfl, isColon⟩ := isLabel
      obtain ⟨later, rfl⟩ := List.head?_eq_some_iff.mp isColon
      rw [word_eq_label all] at delimits ⊢
      dsimp only [token] at delimits ⊢
      rw [Nat.add_assoc, List.drop_length_add_append, Nat.add_comm 1,
        List.drop_succ_cons] at delimits
      rw [Nat.add_assoc, List.take_length_add_append, Nat.add_comm 1, List.take_succ_cons,
        List.append_assoc, List.cons_append, word_eq_label all, labelScope_take_append delimits,
        Nat.add_assoc, Nat.add_comm 1]
      rfl
    · have noColon : fresh = true → behind.head? ≠ some Byte.colon :=
        fun begins isColon => isLabel ⟨begins, isColon⟩
      rw [word_eq_identifier all stops isQuote noColon] at delimits ⊢
      dsimp only [token] at delimits ⊢
      rw [List.drop_left] at delimits
      rw [List.take_left]
      apply word_eq_identifier all (delimits.stops stops rfl rfl rfl)
      · exact delimits.head?_ne isQuote (by decide) (by decide) (by decide)
      · exact fun begins => delimits.head?_ne (noColon begins) (by decide) (by decide) (by decide)

end Word

/-- A token is the same before a space or the end of the source as before anything else. -/
theorem scan_take_append {fresh : Bool} {first : Byte} {rest : Bytes}
    (found : (scan fresh first rest).token?.isSome) (separated : Separated after) :
    scan fresh first (rest.take (scan fresh first rest).tail ++ after) = scan fresh first rest := by
  have selects := selects_scan fresh first
  generalize scan fresh first = scanner at selects found ⊢
  cases selects with
  | blank => cases found
  | word => exact word_take_append (separated.delimits _)
  | decimal isDigit => exact decimal_take_append isDigit (separated.delimits _)
  | lineBreak =>
    apply lineBreak_take_append fresh
    intro _ feeds
    exact absurd (separated _ feeds) (by decide)
  | comment => cases found
  | backslash => exact absurd found (by simp [token?_backslash])
  | semicolon => rfl
  | parameter => exact parameter_take_append (separated.delimits _)
  | quoted => exact quoted_take_append (closed_of_quoted found) after
  | operator => exact operator_take_append (separated.delimits _)

end Segment

end AssemblyLexer
