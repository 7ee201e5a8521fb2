import AssemblyLexer.Proofs.Content
import AssemblyLexer.Proofs.FaultPlace
import AssemblyLexer.Proofs.SelfDelimiting

/-!
What quoted literals give, and what tokens carry. A literal that reads as some
content gives a token or a single fault about its content, and any other literal
gives faults of its escapes or of its end. What a token carries stands in its
bytes, beside bytes of ASCII.
-/

set_option autoImplicit false

namespace AssemblyLexer

/-- The content of a string or character literal. -/
def Token.content? : Token → Option Bytes
  | .string content => some content
  | .character _ content => some content
  | _ => none

namespace Quoted

open Utf8

/-- Character literals are for exactly one character. -/
def single : List Char → Except Fault Char
  | [] => .error .emptyCharacter
  | [c] => .ok c
  | _ :: _ :: _ => .error .characterTooLong

theorem single_ne_characterNotUtf8 (characters : List Char) :
    single characters ≠ .error .characterNotUtf8 := by
  match characters with
  | [] => simp [single]
  | [_] => simp [single]
  | _ :: _ :: _ => simp [single]

theorem character_eq {content : Bytes} (nonempty : content ≠ []) :
    character content =
      match decode? content with
      | none => .error .characterNotUtf8
      | some (c, length) => if length = content.length then .ok c else .error .characterTooLong := by
  cases content with
  | nil => exact absurd rfl nonempty
  | cons => rfl

theorem character_of_decodes {content : Bytes} {characters : List Char}
    (decodes : Decodes content characters) : character content = single characters := by
  cases decodes with
  | nil => rfl
  | @cons content c length characters decoded later =>
    obtain ⟨⟨rest, rfl⟩, rfl⟩ := decode?_eq_some_iff.mp decoded
    rw [List.drop_left] at later
    have nonempty : encode c ++ rest ≠ [] := by
      intro empty
      rw [empty] at decoded
      cases decoded
    rw [character_eq nonempty, decoded]
    dsimp only
    rw [List.length_append]
    cases later with
    | nil => exact if_pos rfl
    | @cons rest d _ more decoded' _ =>
      have positive : 0 < rest.length := by
        cases rest with
        | nil => cases decoded'
        | cons => exact Nat.succ_pos _
      exact if_neg (Nat.ne_of_lt (Nat.lt_add_of_pos_right positive))

end Quoted

/-- The faults of a literal that does not read as any content. -/
def Fault.isUnread (fault : Fault) : Bool :=
  fault = .unterminatedLiteral || fault = .unknownEscape || fault = .invalidEscape ||
    fault = .incompleteEscape

theorem Escape.FaultAt.isUnread {bytes : Bytes} {fault : Fault} {offset : Nat}
    (faultAt : FaultAt bytes fault offset) : fault.isUnread := by
  cases faultAt <;> rfl

namespace Segment

open Quoted Utf8

variable {quote : Byte}

theorem quoted_of_reads (isQuote : IsQuote quote) {body content : Bytes}
    (reads : Reads quote body content) (after : Bytes) :
    quoted quote (body ++ quote :: after) =
      if quote = Byte.doubleQuote then token .quoted (body.length + 1) (.string content)
      else
        match character content with
        | .ok c => token .quoted (body.length + 1) (.character c content)
        | .error fault => faulty .quoted (body.length + 1) fault := by
  have inside : Quoted.scan quote (body ++ quote :: after) = ⟨true, body.length + 1, content, []⟩ := by
    rw [Quoted.scan, reads.scanFrom_eq isQuote]
    simp
  rw [quoted, inside]
  rfl

/-- A literal reads as some content, or gives no token but faults of its escapes and of its end. -/
theorem quoted_cases (isQuote : IsQuote quote) (rest : Bytes) :
    (∃ body content after, rest = body ++ quote :: after ∧ Reads quote body content) ∨
      (quoted quote rest).token? = none ∧ (quoted quote rest).findings ≠ [] ∧
        ∀ finding ∈ (quoted quote rest).findings, finding.fault.isUnread := by
  have ofEscape : ∀ finding ∈ (Quoted.scan quote rest).findings, finding.fault.isUnread := by
    intro finding found
    obtain ⟨⟨_, _, _, _, _, faultAt, _⟩, _⟩ := Quoted.scan_finding isQuote found
    exact faultAt.isUnread
  unfold quoted
  dsimp only
  cases closed : (Quoted.scan quote rest).closed with
  | false =>
    right
    refine ⟨rfl, by simp, ?_⟩
    intro finding found
    rcases List.mem_append.mp found with escape | whole
    · exact ofEscape finding escape
    · rw [List.mem_singleton.mp whole]
      rfl
  | true =>
    obtain ⟨body, after, rest_eq, _, quiet⟩ := exists_body quote 0 [] [] rest closed
    by_cases faultless : (Quoted.scan quote rest).findings = []
    · obtain ⟨_, content, reads, _⟩ := quiet faultless
      exact .inl ⟨body, content, after, rest_eq, reads⟩
    · right
      have faulty : (!(Quoted.scan quote rest).findings.isEmpty) = true := by simpa using faultless
      rw [if_neg (by simp), if_pos faulty]
      exact ⟨rfl, faultless, ofEscape⟩

/-- The bytes of a token, and what it carries. -/
inductive Carries : Bytes → Token → Prop
  | identifier {name : Bytes} : Carries name (.identifier name)
  | label {name suffix : Bytes} {scope : LabelScope} :
      Carries (name ++ Byte.colon :: suffix) (.label name scope)
  | parameter {name : Bytes} : Carries (Byte.dollar :: name) (.parameter name)
  | string {body content : Bytes} (reads : Reads Byte.doubleQuote body content) :
      Carries (Byte.doubleQuote :: body ++ [Byte.doubleQuote]) (.string content)
  | character {body content : Bytes} {c : Char} (reads : Reads Byte.apostrophe body content)
      (isSingle : character content = .ok c) :
      Carries (Byte.apostrophe :: body ++ [Byte.apostrophe]) (.character c content)
  | plain {bytes : Bytes} {t : Token} (nameless : t.name? = none) (empty : t.content? = none) :
      Carries bytes t

theorem Carries.valid {bytes : Bytes} {t : Token} (carries : Carries bytes t) (valid : Valid bytes) :
    (∀ name ∈ t.name?, Valid name) ∧ ∀ content ∈ t.content?, Valid content := by
  have ofNone : ∀ text ∈ (none : Option Bytes), Valid text := fun _ isNone => nomatch isNone
  have ofSome : ∀ {text : Bytes}, Valid text → ∀ same ∈ some text, Valid same := by
    rintro text valid _ ⟨⟩
    exact valid
  cases carries with
  | identifier => exact ⟨ofSome valid, ofNone⟩
  | label => exact ⟨ofSome (valid.split rfl).1, ofNone⟩
  | parameter => exact ⟨ofSome (valid.tail rfl), ofNone⟩
  | string reads => exact ⟨ofNone, ofSome (reads.valid_content rfl valid)⟩
  | character reads => exact ⟨ofNone, ofSome (reads.valid_content rfl valid)⟩
  | plain nameless empty =>
    rw [nameless, empty]
    exact ⟨ofNone, ofNone⟩

theorem carries_number {form : SegmentForm} {tail : Nat} {scan : NumberScan} {t : Token}
    (found : (number form tail scan).token? = some t) (bytes : Bytes) : Carries bytes t := by
  unfold number at found
  split at found
  all_goals
    cases found
    try exact .plain rfl rfl

theorem carries_word {fresh : Bool} {first : Byte} {rest : Bytes} {t : Token}
    (found : (word fresh first rest).token? = some t) :
    Carries (first :: rest.take (word fresh first rest).tail) t := by
  have words := words_word fresh first rest
  generalize word fresh first rest = s at words found ⊢
  cases words with
  | identifier =>
    cases found
    rw [token, List.take_left]
    exact .identifier
  | number => exact carries_number found _
  | invalid => cases found
  | @label more =>
    cases found
    rw [token, Nat.add_assoc, List.take_length_add_append, Nat.add_comm 1, List.take_succ_cons]
    exact @Carries.label (first :: more) _ _

theorem carries_parameter {rest : Bytes} {t : Token} (found : (parameter rest).token? = some t) :
    Carries (Byte.dollar :: rest.take (parameter rest).tail) t := by
  obtain ⟨name, behind, rfl, _, _, name_eq, _⟩ := exists_stretch Byte.isNamePart rest
  cases found
  rw [parameter, name_eq, List.take_left]
  exact .parameter

theorem carries_quoted (isQuote : IsQuote quote) {rest : Bytes} {t : Token}
    (found : (quoted quote rest).token? = some t) :
    Carries (quote :: rest.take (quoted quote rest).tail) t := by
  rcases quoted_cases isQuote rest with ⟨body, content, after, rfl, reads⟩ | ⟨none, _⟩
  · rw [quoted_of_reads isQuote reads] at found ⊢
    by_cases isString : quote = Byte.doubleQuote
    · subst isString
      cases found
      rw [if_pos rfl, token, List.take_length_add_append]
      exact .string reads
    · obtain rfl := isQuote.resolve_left isString
      rw [if_neg isString] at found ⊢
      cases isSingle : character content with
      | error fault =>
        rw [isSingle] at found
        cases found
      | ok c =>
        rw [isSingle] at found
        cases found
        simp only [token, List.take_length_add_append]
        exact .character reads isSingle
  · cases none.symm.trans found

theorem carries_operator {first : Byte} {rest : Bytes} {t : Token}
    (found : (operator first rest).token? = some t) (bytes : Bytes) : Carries bytes t := by
  unfold operator at found
  split at found
  all_goals
    cases found
    try exact .plain rfl rfl

theorem carries_lineBreak {fresh : Bool} {first : Byte} {rest : Bytes} {t : Token}
    (found : (lineBreak fresh first rest).token? = some t) (bytes : Bytes) : Carries bytes t := by
  cases fresh with
  | true => cases found
  | false =>
    cases found
    exact .plain rfl rfl

theorem carries_scan {fresh : Bool} {first : Byte} {rest : Bytes} {t : Token}
    (found : (scan fresh first rest).token? = some t) :
    Carries (first :: rest.take (scan fresh first rest).tail) t := by
  have selects := selects_scan fresh first
  generalize scan fresh first = scanner at selects found ⊢
  cases selects with
  | blank => cases found
  | word => exact carries_word found
  | decimal => exact carries_number found _
  | lineBreak => exact carries_lineBreak found _
  | comment => cases found
  | backslash =>
    rw [token?_backslash] at found
    cases found
  | semicolon =>
    cases found
    exact .plain rfl rfl
  | parameter => exact carries_parameter found
  | quoted isQuote => exact carries_quoted isQuote found
  | operator => exact carries_operator found _

end Segment

end AssemblyLexer
