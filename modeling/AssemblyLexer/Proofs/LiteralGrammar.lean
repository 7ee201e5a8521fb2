import AssemblyLexer.Proofs.ClosingQuote
import AssemblyLexer.Proofs.DigitValue
import AssemblyLexer.Proofs.ValidSource

/-!
The grammar of quoted literals. What stands between the quotes of a literal is a
concatenation of forms, each with its meaning, and a literal is read without a
fault exactly if there are such forms. Its content is then the concatenation of
their meanings.
-/

set_option autoImplicit false

namespace AssemblyLexer

namespace Escape

/-- The letters that stand for control characters, for a space and for a delete. -/
def controls : List (Byte × Byte) :=
  [('a'.toUInt8, 0x07), ('b'.toUInt8, 0x08), ('t'.toUInt8, 0x09), ('n'.toUInt8, 0x0A),
    ('v'.toUInt8, 0x0B), ('f'.toUInt8, 0x0C), ('r'.toUInt8, 0x0D), ('e'.toUInt8, 0x1B),
    ('s'.toUInt8, 0x20), ('d'.toUInt8, 0x7F)]

/-- The bytes that make an escape by themselves, with what they stand for: the digit zero, the
letters above in either case, the quotes and the backslash. -/
def simple : List (Byte × Byte) :=
  ('0'.toUInt8, 0x00) :: controls ++ controls.map (fun (lower, meant) => (lower - 0x20, meant)) ++
    [Byte.doubleQuote, Byte.apostrophe, Byte.backslash].map fun b => (b, b)

theorem meaning?_eq_some_iff {b meant : Byte} : meaning? b = some meant ↔ (b, meant) ∈ simple := by
  constructor
  · intro means
    unfold meaning? at means
    split at means
    all_goals cases means
    all_goals
      rename_i spells
      rw [Byte.eq_of_ofUInt8 spells]
      decide
  · intro listed
    have all : (simple.all fun entry => meaning? entry.1 == some entry.2) = true := by
      decide +kernel
    exact eq_of_beq (List.all_eq_true.mp all (b, meant) listed)

/-- The number that hexadecimal digits stand for. -/
def hexValue (digits : Bytes) : Nat :=
  digitsValue 16 (digits.filterMap Byte.digitValue?)

theorem value_eq_hexValue (digits : Bytes) : value digits = hexValue digits := by
  rw [value, hexValue]
  induction digits.filterMap Byte.digitValue? using List.reverseRecOn with
  | nil => rfl
  | append_singleton values last ih =>
    rw [List.foldl_append, ih, digitsValue_append_singleton]
    rfl

end Escape

namespace Quoted

open Escape

/-- The forms that the inside of a literal is made of, with their meanings. -/
inductive Stands : Bytes → Bytes → Prop
  | plain {b : Byte} (noBackslash : b ≠ Byte.backslash) : Stands [b] [b]
  | simple {b meant : Byte} (listed : (b, meant) ∈ Escape.simple) :
      Stands [Byte.backslash, b] [meant]
  | pair {x high low : Byte} {c : Char} (letter : x = 'X'.toUInt8 ∨ x = 'x'.toUInt8)
      (isHigh : isDigit high) (isLow : isDigit low) (code : hexValue [high, low] = c.toNat) :
      Stands [Byte.backslash, x, high, low] (Utf8.encode c)
  | braced {u : Byte} {digits : Bytes} {c : Char} (letter : u = 'U'.toUInt8 ∨ u = 'u'.toUInt8)
      (nonempty : digits ≠ []) (all : ∀ d ∈ digits, isDigit d) (code : hexValue digits = c.toNat) :
      Stands (Byte.backslash :: u :: Byte.openBrace :: digits ++ [Byte.closeBrace]) (Utf8.encode c)

/-- The body is a concatenation of forms, and the content that of their meanings. -/
def Spelled (body content : Bytes) : Prop :=
  ∃ forms : List (Bytes × Bytes), (∀ form ∈ forms, Stands form.1 form.2) ∧
    body = forms.flatMap Prod.fst ∧ content = forms.flatMap Prod.snd

theorem spelled_nil : Spelled [] [] :=
  ⟨[], by simp, rfl, rfl⟩

theorem Spelled.cons {form meant body content : Bytes} (stands : Stands form meant)
    (later : Spelled body content) : Spelled (form ++ body) (meant ++ content) := by
  obtain ⟨forms, all, rfl, rfl⟩ := later
  exact ⟨(form, meant) :: forms, List.forall_mem_cons.mpr ⟨stands, all⟩, rfl, rfl⟩

theorem stands_of_means {form meant : Bytes} (means : Means form meant) :
    Stands (Byte.backslash :: form) meant := by
  cases means with
  | single means => exact .simple (meaning?_eq_some_iff.mp means)
  | pair letter isHigh isLow =>
    apply Stands.pair letter isHigh isLow
    rw [← value_eq_hexValue, Utf8.toNat_ofNat_of_isScalar (isScalar_pair isHigh isLow)]
  | braced letter nonempty all scalar =>
    apply Stands.braced letter nonempty all
    rw [← value_eq_hexValue, Utf8.toNat_ofNat_of_isScalar scalar]

/-- A form is a plain byte, or else an escape, which has neither a quote nor a backslash behind its
first byte. -/
theorem Stands.cases {form meant : Bytes} (stands : Stands form meant) :
    (∃ b, b ≠ Byte.backslash ∧ form = [b] ∧ meant = [b]) ∨
      ∃ first inside, form = Byte.backslash :: first :: inside ∧ Means (first :: inside) meant ∧
        ∀ d ∈ inside, isDigit d ∨ d = Byte.openBrace ∨ d = Byte.closeBrace := by
  cases stands with
  | @plain b noBackslash => exact .inl ⟨b, noBackslash, rfl, rfl⟩
  | @simple b meant listed =>
    exact .inr ⟨b, [], rfl, .single (meaning?_eq_some_iff.mpr listed), by simp⟩
  | @pair x high low c letter isHigh isLow code =>
    have means : Means [x, high, low] _ := .pair letter isHigh isLow
    rw [value_eq_hexValue, code, Char.ofNat_toNat] at means
    exact .inr ⟨x, [high, low], rfl, means, by simp [isHigh, isLow]⟩
  | @braced u digits c letter nonempty all code =>
    have scalar : Utf8.isScalar (value digits) := by
      rw [value_eq_hexValue, code]
      exact Utf8.isScalar_toNat c
    have means := Means.braced letter nonempty all scalar
    rw [value_eq_hexValue, code, Char.ofNat_toNat] at means
    refine .inr ⟨u, Byte.openBrace :: digits ++ [Byte.closeBrace], rfl, means, ?_⟩
    simp only [List.cons_append, List.mem_cons, List.mem_append, List.not_mem_nil, or_false]
    rintro d (opens | inside | closes)
    · exact .inr (.inl opens)
    · exact .inl (all d inside)
    · exact .inr (.inr closes)

theorem Reads.spelled {quote : Byte} {body content : Bytes} (reads : Reads quote body content) :
    Spelled body content := by
  induction reads with
  | nil => exact spelled_nil
  | plain _ noBackslash _ ih => exact ih.cons (.plain noBackslash)
  | escape means _ ih => exact ih.cons (stands_of_means means)

theorem Open.of_plain {quote b : Byte} {rest : Bytes} (isOpen : Open quote (b :: rest))
    (noBackslash : b ≠ Byte.backslash) : b ≠ quote ∧ Open quote rest := by
  cases isOpen with
  | plain noQuote _ later => exact ⟨noQuote, later⟩
  | pair => exact absurd rfl noBackslash

theorem Open.of_backslash {quote b : Byte} {rest : Bytes}
    (isOpen : Open quote (Byte.backslash :: b :: rest)) : Open quote rest := by
  cases isOpen with
  | plain _ noBackslash => exact absurd rfl noBackslash
  | pair later => exact later

theorem Open.of_append {quote : Byte} {left right : Bytes}
    (plain : ∀ b ∈ left, b ≠ quote ∧ b ≠ Byte.backslash) (isOpen : Open quote (left ++ right)) :
    Open quote right := by
  induction left with
  | nil => exact isOpen
  | cons b left ih =>
    obtain ⟨⟨_, noBackslash⟩, plain'⟩ := List.forall_mem_cons.mp plain
    exact ih plain' (isOpen.of_plain noBackslash).2

/-- Forms that leave the literal open read as their meanings. -/
theorem Spelled.reads {quote : Byte} (isQuote : IsQuote quote) {body content : Bytes}
    (spelled : Spelled body content) (isOpen : Open quote body) : Reads quote body content := by
  obtain ⟨forms, all, rfl, rfl⟩ := spelled
  induction forms with
  | nil => exact .nil
  | cons form forms ih =>
    obtain ⟨stands, all'⟩ := List.forall_mem_cons.mp all
    rw [List.flatMap_cons] at isOpen ⊢
    rw [List.flatMap_cons]
    rcases stands.cases with
      ⟨b, noBackslash, form_eq, meant_eq⟩ | ⟨first, inside, form_eq, means, unclosing⟩
    · rw [form_eq] at isOpen ⊢
      rw [meant_eq]
      obtain ⟨noQuote, behind⟩ := isOpen.of_plain noBackslash
      exact .plain noQuote noBackslash (ih all' behind)
    · rw [form_eq] at isOpen ⊢
      have behind := isOpen.of_backslash.of_append fun d membership =>
        plain_of_escape isQuote (unclosing d membership)
      exact .escape means (ih all' behind)

/-- What the scan of a literal gives if it comes to the closing quote without a fault. -/
def content? (inside : Quoted) : Option Bytes :=
  if inside.closed && inside.findings.isEmpty then some inside.content else none

theorem content?_eq_some_iff {inside : Quoted} {content : Bytes} :
    inside.content? = some content ↔
      inside.closed = true ∧ inside.findings = [] ∧ inside.content = content := by
  unfold content?
  by_cases succeeds : inside.closed = true ∧ inside.findings = []
  · simp [succeeds]
  · rw [if_neg (by simpa using succeeds)]
    simp only [reduceCtorEq, false_iff]
    exact fun ⟨closed, faultless, _⟩ => succeeds ⟨closed, faultless⟩

theorem Reads.content?_eq {quote : Byte} (isQuote : IsQuote quote) {body content : Bytes}
    (reads : Reads quote body content) (after : Bytes) :
    (scan quote (body ++ quote :: after)).content? = some content := by
  rw [scan, reads.scanFrom_eq isQuote]
  rfl

theorem exists_reads {quote : Byte} {rest content : Bytes}
    (succeeds : (scan quote rest).content? = some content) :
    ∃ body after, rest = body ++ quote :: after ∧ Reads quote body content ∧
      (scan quote rest).length = body.length + 1 := by
  obtain ⟨closed, faultless, content_eq⟩ := content?_eq_some_iff.mp succeeds
  obtain ⟨body, after, rest_eq, length_eq, quiet⟩ := exists_body quote 0 [] [] rest closed
  obtain ⟨_, content', reads, content_eq'⟩ := quiet faultless
  have same : (scan quote rest).content = content' := content_eq'
  rw [Nat.zero_add] at length_eq
  exact ⟨body, after, rest_eq, content_eq.symm.trans same ▸ reads, length_eq⟩

/-- A scan succeeds exactly if there is a closing quote and forms make up what stands before it. -/
theorem content?_scan {quote : Byte} (isQuote : IsQuote quote) {rest content : Bytes} :
    (scan quote rest).content? = some content ↔
      ∃ n, closingQuote? quote rest = some n ∧ Spelled (rest.take n) content := by
  constructor
  · intro succeeds
    obtain ⟨body, after, rest_eq, reads, length_eq⟩ := exists_reads succeeds
    cases ends_scan isQuote rest with
    | atEnd _ unclosed =>
      have closed := (content?_eq_some_iff.mp succeeds).1
      cases unclosed.symm.trans closed
    | @atQuote n found _ length_eq' =>
      have n_eq : n = body.length := by omega
      refine ⟨n, found, ?_⟩
      rw [n_eq, rest_eq, List.take_left]
      exact reads.spelled
  · rintro ⟨n, found, spelled⟩
    obtain ⟨isOpen, closes⟩ := open_of_closingQuote? found
    have succeeds := (spelled.reads isQuote isOpen).content?_eq isQuote (rest.drop (n + 1))
    rwa [← closes, List.take_append_drop] at succeeds

end Quoted

namespace Piece

open Quoted

variable {source rest content : Bytes} {piece : Piece} {quote : Byte}

/-- What the scan of a literal succeeds with, and what becomes of the literal then and otherwise. -/
structure Decodes (file : UInt32) (piece : Piece) (quote : Byte) (rest : Bytes) : Prop where
  /-- The body stands between the opening quote and the closing one, where the literal ends. -/
  closed : ∀ n, closingQuote? quote rest = some n → piece.bytes = quote :: rest.take n ++ [quote]
  /-- The scan succeeds exactly if there is a closing quote and forms make up the body, and gives
  the meanings of the forms. -/
  succeeds_iff : ∀ content, (Quoted.scan quote rest).content? = some content ↔
    ∃ n, closingQuote? quote rest = some n ∧ Spelled (rest.take n) content
  string : quote = Byte.doubleQuote → ∀ content, (Quoted.scan quote rest).content? = some content →
    piece.segment.token? = some (.string content) ∧ piece.reports file = []
  /-- Nothing is left to report but the number of characters. -/
  character : quote = Byte.apostrophe → ∀ content,
    (Quoted.scan quote rest).content? = some content →
      piece.Judged content (Quoted.character content)
  refused : (Quoted.scan quote rest).content? = none →
    piece.segment.token? = none ∧ piece.reports file ≠ []

theorem Opens.closed (opens : piece.Opens source quote rest) {n : Nat}
    (found : closingQuote? quote rest = some n) :
    piece.bytes = quote :: rest.take n ++ [quote] := by
  have closes := (open_of_closingQuote? found).2
  rw [opens.segment_eq.2, (Segment.quoted_of_closingQuote? opens.isQuote found).1, List.take_add,
    closes, List.take_succ_cons, List.take_zero]
  rfl

theorem Opens.decodes (opens : piece.Opens source quote rest) (file : UInt32) :
    piece.Decodes file quote rest := by
  obtain ⟨segment_eq, bytes_eq⟩ := opens.segment_eq
  have isQuote := opens.isQuote
  refine ⟨fun n => opens.closed, fun content => content?_scan isQuote, ?_, ?_, ?_⟩
  · rintro rfl content succeeds
    obtain ⟨body, after, rfl, reads, _⟩ := exists_reads succeeds
    rw [Segment.quoted_of_reads isQuote reads, if_pos rfl] at segment_eq
    rw [reports, segment_eq]
    exact ⟨rfl, rfl⟩
  · rintro rfl content succeeds
    obtain ⟨n, found, spelled⟩ := (content?_scan isQuote).mp succeeds
    exact judged opens.membership (opens.closed found)
      (spelled.reads isQuote (open_of_closingQuote? found).1)
  · intro fails
    rcases Segment.quoted_cases isQuote rest with ⟨body, content, after, rfl, reads⟩ | refused
    · cases fails.symm.trans (reads.content?_eq isQuote after)
    · rw [reports, segment_eq]
      exact ⟨refused.1, fun none => refused.2.1 (List.map_eq_nil_iff.mp none)⟩

end Piece

namespace Session

/-- A run over a source in which literals are read by their grammar. -/
structure KeepsGrammar (session : Session) (file : UInt32) (source : Bytes)
    (all : Array Scanned) : Prop extends session.Finds file source all where
  literals : ∀ (piece : Piece) quote rest, piece.Opens source quote rest →
    piece.Decodes file quote rest

/-- Quoted literals have exactly the contents that their forms mean. -/
theorem absorbAll_decodes (session : Session) (file : UInt32) (source : Bytes) :
    session.KeepsGrammar file source (Lexer.ofSource file source).run.1 where
  toFinds := session.finds_run file source
  literals _ _ _ opens := opens.decodes file

/-- Escapes of each form with leading zeros among them, then a code that is not the code of a
character. -/
theorem absorbAll_decodes_leading_zeros :
    let source := Utf8.ofString "\"\\X41\\u\x7b0000000e9\x7d\\T\\\"\" '\\u\x7b100000041\x7d'"
    let all := (Lexer.ofSource 1 source).run.1
    all.toList.map (fun s => s.token) =
        [.string (Utf8.ofString "Aé\t\""), .symbol .endOfSource] ∧
      (initial.absorbAll all).log.entries.toList.map (fun d => (d.message, d.location)) =
        [(Fault.invalidEscape.message, ⟨1, 1, 39⟩)] ∧
      initial.KeepsGrammar 1 source all := by
  intro source all
  exact ⟨by decide +kernel, by decide +kernel, absorbAll_decodes initial 1 source⟩

end Session

end AssemblyLexer
