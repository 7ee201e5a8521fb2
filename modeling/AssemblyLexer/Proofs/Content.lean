import AssemblyLexer.Proofs.Quoted
import AssemblyLexer.Proofs.Validity

/-!
The content of quoted literals. The body of a literal without faults consists of
plain bytes, which stand for themselves, and of escapes, each with its meaning;
such a body is read up to its closing quote, and nothing else is read without a
fault.
-/

set_option autoImplicit false

namespace AssemblyLexer

theorem Byte.isHigh_of_class {p : Byte → Bool}
    (low : ∀ i : Fin 256, p (.ofFin i) → isHigh (.ofFin i) = false) {b : Byte} (member : p b) :
    b.isHigh = false :=
  low b.toFin member

namespace Escape

/-- The bytes of an escape behind its backslash, and what they mean. -/
inductive Means : Bytes → Bytes → Prop
  | single {b meant : Byte} (means : meaning? b = some meant) : Means [b] [meant]
  | pair {x high low : Byte} (letter : x = 0x58 ∨ x = 0x78) (isHigh : isDigit high)
      (isLow : isDigit low) :
      Means [x, high, low] (Utf8.encode (Char.ofNat (value [high, low])))
  | braced {u : Byte} {digits : Bytes} (letter : u = 0x55 ∨ u = 0x75) (nonempty : digits ≠ [])
      (all : ∀ d ∈ digits, isDigit d) (scalar : Utf8.isScalar (value digits)) :
      Means (u :: Byte.openBrace :: digits ++ [Byte.closeBrace])
        (Utf8.encode (Char.ofNat (value digits)))

theorem scan_of_means {form meant : Bytes} (means : Means form meant) (after : Bytes) :
    scan (form ++ after) = ⟨form.length, .ok meant⟩ := by
  cases means with
  | single means => exact scan_of_meaning? means after
  | pair letter isHigh isLow =>
    rw [List.cons_append, List.cons_append, List.cons_append, List.nil_append,
      scan_of_pair letter isHigh isLow, coded_of_isScalar (isScalar_pair isHigh isLow)]
    rfl
  | @braced u digits letter nonempty all scalar =>
    rw [List.append_assoc, List.singleton_append, scan_of_braced letter nonempty all,
      coded_of_isScalar scalar]
    simp

theorem exists_means {bytes meant : Bytes} (success : (scan bytes).outcome = .ok meant) :
    ∃ form after, bytes = form ++ after ∧ Means form meant ∧ (scan bytes).length = form.length := by
  have outcome := scan_outcome bytes
  generalize scan bytes = escape at outcome success
  cases outcome with
  | @single b meant after means =>
    cases success
    exact ⟨[b], after, rfl, .single means, rfl⟩
  | @pair x high low after letter isHigh isLow =>
    rw [coded_of_isScalar (isScalar_pair isHigh isLow)] at success ⊢
    cases success
    exact ⟨[x, high, low], after, rfl, .pair letter isHigh isLow, rfl⟩
  | @braced u digits after letter nonempty all =>
    cases scalar : Utf8.isScalar (value digits) with
    | true =>
      rw [coded_of_isScalar scalar] at success ⊢
      cases success
      refine ⟨_, after, ?_, .braced letter nonempty all scalar, ?_⟩
      · rw [List.append_assoc, List.singleton_append]
      · simp
    | false =>
      rw [coded_of_not_isScalar scalar] at success
      cases success
  | unknown => cases success
  | broken => cases success

theorem isHigh_of_isDigit {b : Byte} (digit : isDigit b) : b.isHigh = false :=
  Byte.isHigh_of_class (p := isDigit) (by decide +kernel) digit

theorem isHigh_of_meaning? {b meant : Byte} (means : meaning? b = some meant) :
    b.isHigh = false ∧ meant.isHigh = false := by
  have all : ∀ i : Fin 256, ∀ meant ∈ meaning? (.ofFin i),
      Byte.isHigh (.ofFin i) = false ∧ meant.isHigh = false := by
    decide +kernel
  exact all b.toFin meant means

/-- An escape is spelled in ASCII and means characters. -/
theorem Means.low {form meant : Bytes} (means : Means form meant) :
    (∀ b ∈ form, b.isHigh = false) ∧ Utf8.Valid meant := by
  cases means with
  | single means =>
    obtain ⟨low, low'⟩ := isHigh_of_meaning? means
    exact ⟨by simpa using low, Utf8.valid_of_low (by simpa using low')⟩
  | pair letter isHigh isLow =>
    refine ⟨?_, Utf8.valid_encode _⟩
    simp only [List.forall_mem_cons, List.not_mem_nil, false_implies, implies_true, and_true]
    refine ⟨?_, isHigh_of_isDigit isHigh, isHigh_of_isDigit isLow⟩
    rcases letter with rfl | rfl <;> rfl
  | braced letter nonempty all scalar =>
    refine ⟨?_, Utf8.valid_encode _⟩
    simp only [List.cons_append, List.forall_mem_cons, List.forall_mem_append, List.not_mem_nil,
      false_implies, implies_true, and_true]
    refine ⟨?_, rfl, fun d membership => isHigh_of_isDigit (all d membership), rfl⟩
    rcases letter with rfl | rfl <;> rfl

end Escape

namespace Quoted

/-- The bytes of a literal between its quotes, and its content. -/
inductive Reads (quote : Byte) : Bytes → Bytes → Prop
  | nil : Reads quote [] []
  | plain {b : Byte} {body content : Bytes} (noQuote : b ≠ quote) (noBackslash : b ≠ Byte.backslash)
      (later : Reads quote body content) : Reads quote (b :: body) (b :: content)
  | escape {form meant body content : Bytes} (means : Escape.Means form meant)
      (later : Reads quote body content) :
      Reads quote (Byte.backslash :: form ++ body) (meant ++ content)

theorem IsQuote.ne_backslash {quote : Byte} (isQuote : IsQuote quote) : Byte.backslash ≠ quote := by
  rcases isQuote with rfl | rfl <;> decide

theorem Reads.scanFrom_eq {quote : Byte} {body content : Bytes} (reads : Reads quote body content)
    (isQuote : IsQuote quote) (taken : Nat) (before : Bytes) (findings : List Finding)
    (after : Bytes) :
    scanFrom quote taken before findings (body ++ quote :: after) =
      ⟨true, taken + body.length + 1, before.reverse ++ content, findings.reverse⟩ := by
  induction reads generalizing taken before with
  | nil => simp [scanFrom]
  | @plain b body content noQuote noBackslash _ ih =>
    rw [List.cons_append, scanFrom, if_neg noQuote, if_neg noBackslash, ih]
    simp [Nat.add_assoc, Nat.add_comm 1]
  | @escape form meant body content means _ ih =>
    rw [List.append_assoc, List.cons_append, scanFrom, if_neg isQuote.ne_backslash, if_pos rfl]
    dsimp only
    rw [Escape.scan_of_means means]
    dsimp only
    rw [List.drop_left, ih]
    simp [Nat.add_assoc, Nat.add_comm 1]

/-- A literal that is closed goes up to its closing quote, and if none of its escapes is at fault
its body reads as its content. -/
theorem exists_body (quote : Byte) (taken : Nat) (before : Bytes) (findings : List Finding)
    (bytes : Bytes) (closed : (scanFrom quote taken before findings bytes).closed) :
    let inside := scanFrom quote taken before findings bytes
    ∃ body after, bytes = body ++ quote :: after ∧ inside.length = taken + body.length + 1 ∧
      (inside.findings = [] →
        findings = [] ∧ ∃ content, Reads quote body content ∧
          inside.content = before.reverse ++ content) := by
  fun_induction scanFrom quote taken before findings bytes with
  | case1 => cases closed
  | case2 taken before findings rest =>
    refine ⟨[], rest, rfl, rfl, ?_⟩
    intro none
    exact ⟨List.reverse_eq_nil_iff.mp none, [], .nil, (List.append_nil _).symm⟩
  | case3 taken before findings rest escape after meant success noQuote ih =>
    obtain ⟨form, behind, rest_eq, means, length_eq⟩ := Escape.exists_means success
    have after_eq : after = behind := by
      change rest.drop (Escape.scan rest).length = behind
      rw [length_eq, rest_eq, List.drop_left]
    obtain ⟨body, more, more_eq, taken_eq, quiet⟩ := ih closed
    refine ⟨Byte.backslash :: form ++ body, more, ?_, ?_, ?_⟩
    · rw [rest_eq, ← after_eq, more_eq, List.append_assoc, List.cons_append]
    · simp only [escape, length_eq] at taken_eq ⊢
      rw [taken_eq, List.length_append, List.length_cons]
      omega
    · intro none
      obtain ⟨noneBefore, content, reads, content_eq⟩ := quiet none
      refine ⟨noneBefore, meant ++ content, .escape means reads, ?_⟩
      rw [content_eq, List.reverse_append, List.reverse_reverse, List.append_assoc]
  | case4 taken before findings rest escape after failed failure new noQuote ih =>
    obtain ⟨body, more, more_eq, taken_eq, quiet⟩ := ih closed
    have within : escape.length ≤ rest.length := Escape.scan_length_le rest
    refine ⟨Byte.backslash :: rest.take escape.length ++ body, more, ?_, ?_, ?_⟩
    · rw [List.append_assoc, ← more_eq, List.cons_append, List.take_append_drop]
    · rw [taken_eq, List.length_append, List.length_cons, List.length_take_of_le within]
      omega
    · intro none
      cases (quiet none).1
  | case5 taken before findings b rest noQuote noBackslash ih =>
    obtain ⟨body, more, more_eq, taken_eq, quiet⟩ := ih closed
    refine ⟨b :: body, more, congrArg (b :: ·) more_eq, ?_, ?_⟩
    · rw [taken_eq, List.length_cons]
      omega
    · intro none
      obtain ⟨noneBefore, content, reads, content_eq⟩ := quiet none
      refine ⟨noneBefore, b :: content, .plain noQuote noBackslash reads, ?_⟩
      rw [content_eq, List.reverse_cons, List.append_assoc, List.singleton_append]

/-- The content of a literal in a valid source is valid, whatever part of a character stands before
the body. -/
theorem Reads.valid {quote : Byte} {body content : Bytes} (reads : Reads quote body content)
    (before : Bytes) (valid : Utf8.Valid (before ++ body)) : Utf8.Valid (before ++ content) := by
  induction reads generalizing before with
  | nil => exact valid
  | @plain b body content noQuote noBackslash _ ih =>
    have whole := ih (before ++ [b]) (by simpa using valid)
    simpa using whole
  | @escape form meant body content means _ ih =>
    rw [List.cons_append] at valid
    obtain ⟨first, second⟩ := valid.split rfl
    have later := ih [] (second.of_low_append means.low.1)
    exact first.append (means.low.2.append later)

theorem Reads.valid_content {quote : Byte} {body content : Bytes} (reads : Reads quote body content)
    (low : quote.isHigh = false) (valid : Utf8.Valid (quote :: body ++ [quote])) :
    Utf8.Valid content := by
  have inside : Utf8.Valid (body ++ [quote]) := Utf8.Valid.tail valid low
  exact reads.valid [] (inside.split low).1

end Quoted

end AssemblyLexer
