import AssemblyLexer.Proofs.Escape
import AssemblyLexer.Segment.Quoted

/-!
The inside of a quoted literal: which of its beginnings leave the literal open,
and where the faults of its escapes stand.
-/

set_option autoImplicit false

namespace AssemblyLexer.Quoted

/-- Bytes behind an opening quote that do not close the literal. A backslash takes the byte after
it out of account. -/
inductive Open (quote : Byte) : Bytes → Prop
  | nil : Open quote []
  | plain {b : Byte} {rest : Bytes} (noQuote : b ≠ quote) (noBackslash : b ≠ Byte.backslash)
      (later : Open quote rest) : Open quote (b :: rest)
  | pair {b : Byte} {rest : Bytes} (later : Open quote rest) :
      Open quote (Byte.backslash :: b :: rest)

variable {quote : Byte}

theorem open_append {left right : Bytes} (all : ∀ b ∈ left, b ≠ quote ∧ b ≠ Byte.backslash)
    (later : Open quote right) : Open quote (left ++ right) := by
  induction left with
  | nil => exact later
  | cons b left ih =>
    have head := all b List.mem_cons_self
    exact .plain head.1 head.2 (ih fun d membership => all d (List.mem_cons_of_mem b membership))

def IsQuote (quote : Byte) : Prop :=
  quote = Byte.doubleQuote ∨ quote = Byte.apostrophe

theorem plain_of_escape (isQuote : IsQuote quote) {d : Byte}
    (inside : Escape.isDigit d ∨ d = Byte.openBrace ∨ d = Byte.closeBrace) :
    d ≠ quote ∧ d ≠ Byte.backslash := by
  rcases inside with isDigit | rfl | rfl
  · constructor
    · rintro rfl
      rcases isQuote with rfl | rfl <;> exact absurd isDigit (by decide)
    · rintro rfl
      exact absurd isDigit (by decide)
  · rcases isQuote with rfl | rfl <;> decide
  · rcases isQuote with rfl | rfl <;> decide

/-- Bytes that an escape takes leave the literal open. An escape that takes nothing leaves a line
break, which is then taken together with the backslash. -/
theorem open_escape (isQuote : IsQuote quote) {rest inside after : Bytes}
    (split : rest.drop (Escape.scan rest).length = inside ++ Byte.backslash :: after)
    (later : Open quote inside) :
    Open quote (Byte.backslash :: rest.take (Escape.scan rest).length ++ inside) := by
  rcases Escape.scan_takes rest with ⟨nothing, isBreak⟩ | ⟨b, taken, takes, plain⟩
  · rw [nothing, List.drop_zero] at split
    rw [nothing, List.take_zero]
    cases later with
    | nil =>
      have backslash := isBreak Byte.backslash (by simp [split])
      exact absurd backslash (by decide)
    | plain _ _ later => exact .pair later
    | pair =>
      have backslash := isBreak Byte.backslash (by simp [split])
      exact absurd backslash (by decide)
  · rw [takes]
    exact .pair (open_append (fun d membership => plain_of_escape isQuote (plain d membership)) later)

/-- The finding comes from an escape whose backslash stands where the literal is still open. Some
bytes have been taken before the given ones. -/
def FoundIn (quote : Byte) (taken : Nat) (bytes : Bytes) (finding : Finding) : Prop :=
  ∃ inside after offset, bytes = inside ++ Byte.backslash :: after ∧ Open quote inside ∧
    Escape.FaultAt after finding.fault offset ∧
    finding.offset = taken + inside.length + 2 + offset

theorem foundIn_plain {taken : Nat} {b : Byte} {rest : Bytes} {finding : Finding}
    (noQuote : b ≠ quote) (noBackslash : b ≠ Byte.backslash)
    (later : FoundIn quote (taken + 1) rest finding) : FoundIn quote taken (b :: rest) finding := by
  obtain ⟨inside, after, offset, split, isOpen, fault, offset_eq⟩ := later
  refine ⟨b :: inside, after, offset, ?_, .plain noQuote noBackslash isOpen, fault, ?_⟩
  · rw [List.cons_append, ← split]
  · rw [List.length_cons]
    omega

theorem foundIn_escape (isQuote : IsQuote quote) {taken : Nat} {rest : Bytes} {finding : Finding}
    (later : FoundIn quote (taken + 1 + (Escape.scan rest).length)
      (rest.drop (Escape.scan rest).length) finding) :
    FoundIn quote taken (Byte.backslash :: rest) finding := by
  obtain ⟨inside, after, offset, split, isOpen, fault, offset_eq⟩ := later
  refine ⟨Byte.backslash :: rest.take (Escape.scan rest).length ++ inside, after, offset, ?_,
    open_escape isQuote split isOpen, fault, ?_⟩
  · rw [List.cons_append, List.cons_append, List.append_assoc, ← split, List.take_append_drop]
  · have within := Escape.scan_length_le rest
    simp only [List.cons_append, List.length_cons, List.length_append, List.length_take]
    omega

theorem scanFrom_finding (isQuote : IsQuote quote) (taken : Nat) (content : Bytes)
    (findings : List Finding) (bytes : Bytes) {finding : Finding}
    (found : finding ∈ (scanFrom quote taken content findings bytes).findings) :
    finding ∈ findings ∨
      FoundIn quote taken bytes finding ∧
        finding.offset ≤ (scanFrom quote taken content findings bytes).length + 1 := by
  fun_induction scanFrom quote taken content findings bytes with
  | case1 => exact .inl (List.mem_reverse.mp found)
  | case2 => exact .inl (List.mem_reverse.mp found)
  | case3 taken content findings rest escape after meant _ _ ih =>
    exact (ih found).imp_right fun later => ⟨foundIn_escape isQuote later.1, later.2⟩
  | case4 taken content findings rest escape after failed failure new _ ih =>
    have passed := (scanFrom_length quote (taken + 1 + escape.length) content
      (new :: findings) after).1
    rcases ih found with old | later
    · rcases List.mem_cons.mp old with rfl | old
      · obtain ⟨fault, within⟩ := Escape.scan_fault failure
        refine .inr ⟨⟨[], rest, failed.offset, rfl, .nil, fault, rfl⟩, ?_⟩
        simp only [new, escape] at within passed ⊢
        omega
      · exact .inl old
    · exact .inr ⟨foundIn_escape isQuote later.1, later.2⟩
  | case5 taken content findings b rest noQuote noBackslash ih =>
    exact (ih found).imp_right fun later => ⟨foundIn_plain noQuote noBackslash later.1, later.2⟩

/-- The closing quote has been taken too. -/
theorem scanFrom_length_lt (quote : Byte) (taken : Nat) (content : Bytes)
    (findings : List Finding) (bytes : Bytes)
    (closed : (scanFrom quote taken content findings bytes).closed) :
    taken < (scanFrom quote taken content findings bytes).length := by
  fun_induction scanFrom quote taken content findings bytes with
  | case1 => cases closed
  | case2 => exact Nat.lt_succ_self _
  | case3 _ _ _ _ _ _ _ _ _ ih =>
    have passed := ih closed
    omega
  | case4 _ _ _ _ _ _ _ _ _ _ ih =>
    have passed := ih closed
    omega
  | case5 _ _ _ _ _ _ _ ih => exact Nat.lt_of_succ_lt (ih closed)

/-- A literal that is not closed goes on to the end. -/
theorem scanFrom_length_of_open (quote : Byte) (taken : Nat) (content : Bytes)
    (findings : List Finding) (bytes : Bytes)
    (isOpen : (scanFrom quote taken content findings bytes).closed = false) :
    (scanFrom quote taken content findings bytes).length = taken + bytes.length := by
  fun_induction scanFrom quote taken content findings bytes with
  | case1 => rfl
  | case2 => cases isOpen
  | case3 taken content findings rest escape after _ _ _ ih =>
    have within : escape.length ≤ rest.length := Escape.scan_length_le rest
    have reached := ih isOpen
    simp only [after, List.length_drop, List.length_cons] at reached ⊢
    omega
  | case4 taken content findings rest escape after _ _ _ _ ih =>
    have within : escape.length ≤ rest.length := Escape.scan_length_le rest
    have reached := ih isOpen
    simp only [after, List.length_drop, List.length_cons] at reached ⊢
    omega
  | case5 taken content findings b rest _ _ ih =>
    rw [ih isOpen, List.length_cons, Nat.add_assoc, Nat.add_comm 1]

/-- What an escape of a closed literal may look at belongs to the literal. -/
theorem escape_take_append {quote : Byte} {taken : Nat} {content : Bytes} {findings : List Finding}
    {rest : Bytes} {more : Nat}
    (closed : (scanFrom quote taken content findings (rest.drop (Escape.scan rest).length)).closed)
    (length_eq : (scanFrom quote taken content findings
      (rest.drop (Escape.scan rest).length)).length = taken + more) (after : Bytes) :
    Escape.scan (rest.take (Escape.scan rest).length ++
      ((rest.drop (Escape.scan rest).length).take more ++ after)) = Escape.scan rest := by
  have passed := scanFrom_length_lt quote taken content findings _ closed
  apply Escape.scan_take_append
  cases left : rest.drop (Escape.scan rest).length with
  | nil =>
    rw [left, scanFrom] at closed
    cases closed
  | cons b later =>
    obtain ⟨fewer, rfl⟩ : ∃ fewer, more = fewer + 1 := ⟨more - 1, by omega⟩
    rfl

theorem scanFrom_escape (noQuote : ¬Byte.backslash = quote) {taken : Nat} {content : Bytes}
    {findings : List Finding} {rest after : Bytes} {more : Nat}
    (again : Escape.scan (rest.take (Escape.scan rest).length ++
      ((rest.drop (Escape.scan rest).length).take more ++ after)) = Escape.scan rest) :
    let later := (rest.drop (Escape.scan rest).length).take more ++ after
    let passed := taken + 1 + (Escape.scan rest).length
    scanFrom quote taken content findings
        ((Byte.backslash :: rest).take (passed + more - taken) ++ after) =
      match (Escape.scan rest).outcome with
      | .ok meant => scanFrom quote passed (meant.reverse ++ content) findings later
      | .error finding =>
        scanFrom quote passed content
          ({ finding with offset := taken + 2 + finding.offset } :: findings) later := by
  intro later passed
  have within := Escape.scan_length_le rest
  have taken_eq : passed + more - taken = (Escape.scan rest).length + more + 1 := by omega
  have behind : (rest.take (Escape.scan rest).length ++ later).drop (Escape.scan rest).length =
      later := List.drop_left' (List.length_take_of_le within)
  rw [taken_eq, List.take_succ_cons, List.take_add, List.cons_append, List.append_assoc, scanFrom,
    if_neg noQuote, if_pos rfl]
  dsimp only
  rw [again]
  cases (Escape.scan rest).outcome with
  | ok meant => exact congrArg (scanFrom quote passed _ _) behind
  | error finding => exact congrArg (scanFrom quote passed _ _) behind

/-- A literal that is closed does not look at what follows it. -/
theorem scanFrom_take_append (quote : Byte) (taken : Nat) (content : Bytes)
    (findings : List Finding) (bytes after : Bytes)
    (closed : (scanFrom quote taken content findings bytes).closed) :
    scanFrom quote taken content findings
        (bytes.take ((scanFrom quote taken content findings bytes).length - taken) ++ after) =
      scanFrom quote taken content findings bytes := by
  fun_induction scanFrom quote taken content findings bytes with
  | case1 => cases closed
  | case2 taken content findings rest =>
    rw [Nat.add_sub_cancel_left, List.take_succ_cons, List.take_zero, List.cons_append, scanFrom,
      if_pos rfl]
  | case3 taken content findings rest escape after' meant success noQuote ih =>
    have passed := (scanFrom_length quote (taken + 1 + escape.length) (meant.reverse ++ content)
      findings after').1
    obtain ⟨more, length_eq⟩ := Nat.exists_eq_add_of_le passed
    have again := escape_take_append closed length_eq after
    have scanned := ih closed
    rw [length_eq, Nat.add_sub_cancel_left] at scanned
    rw [length_eq, scanFrom_escape noQuote again, success]
    exact scanned
  | case4 taken content findings rest escape after' failed failure new noQuote ih =>
    have passed := (scanFrom_length quote (taken + 1 + escape.length) content
      (new :: findings) after').1
    obtain ⟨more, length_eq⟩ := Nat.exists_eq_add_of_le passed
    have again := escape_take_append closed length_eq after
    have scanned := ih closed
    rw [length_eq, Nat.add_sub_cancel_left] at scanned
    rw [length_eq, scanFrom_escape noQuote again, failure]
    exact scanned
  | case5 taken content findings b rest noQuote noBackslash ih =>
    have passed := (scanFrom_length quote (taken + 1) (b :: content) findings rest).1
    have scanned := ih closed
    generalize scanFrom quote _ _ findings rest = result at passed scanned ⊢
    have taken_eq : result.length - taken = result.length - (taken + 1) + 1 := by omega
    rw [taken_eq, List.take_succ_cons, List.cons_append, scanFrom, if_neg noQuote,
      if_neg noBackslash]
    exact scanned

theorem scan_take_append {bytes : Bytes} (closed : (scan quote bytes).closed) (after : Bytes) :
    scan quote (bytes.take (scan quote bytes).length ++ after) = scan quote bytes :=
  scanFrom_take_append quote 0 [] [] bytes after closed

theorem scan_finding (isQuote : IsQuote quote) {bytes : Bytes} {finding : Finding}
    (found : finding ∈ (scan quote bytes).findings) :
    FoundIn quote 0 bytes finding ∧ finding.offset ≤ (scan quote bytes).length + 1 :=
  (scanFrom_finding isQuote 0 [] [] bytes found).resolve_left (List.not_mem_nil)

end AssemblyLexer.Quoted
