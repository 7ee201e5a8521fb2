import AssemblyLexer.Proofs.Literal
import AssemblyLexer.Proofs.PieceToken

/-!
Where quoted literals end. The closing quote is the first one that is found when
a backslash is skipped together with the byte behind it. The lexer ends a literal
there, however many bytes its escapes take and whether or not they can be read.
-/

set_option autoImplicit false

namespace AssemblyLexer

namespace Quoted

/-- The number of bytes before the closing quote, given the bytes behind the opening one. -/
def closingQuote? (quote : Byte) : Bytes → Option Nat
  | [] => none
  | b :: rest =>
    if b = quote then some 0
    else if b = Byte.backslash then
      match rest with
      | [] => none
      | _ :: later => (closingQuote? quote later).map (· + 2)
    else (closingQuote? quote rest).map (· + 1)

variable {quote : Byte}

@[simp]
theorem closingQuote?_nil : closingQuote? quote [] = none := rfl

@[simp]
theorem closingQuote?_quote (rest : Bytes) : closingQuote? quote (quote :: rest) = some 0 := by
  cases rest <;> simp [closingQuote?]

theorem closingQuote?_plain {b : Byte} (noQuote : b ≠ quote) (noBackslash : b ≠ Byte.backslash)
    (rest : Bytes) : closingQuote? quote (b :: rest) = (closingQuote? quote rest).map (· + 1) := by
  cases rest <;> simp [closingQuote?, noQuote, noBackslash]

theorem closingQuote?_backslash (isQuote : IsQuote quote) (b : Byte) (rest : Bytes) :
    closingQuote? quote (Byte.backslash :: b :: rest) =
      (closingQuote? quote rest).map (· + 2) := by
  rw [closingQuote?, if_neg isQuote.ne_backslash, if_pos rfl]

theorem closingQuote?_append {left : Bytes} (plain : ∀ b ∈ left, b ≠ quote ∧ b ≠ Byte.backslash)
    (right : Bytes) :
    closingQuote? quote (left ++ right) = (closingQuote? quote right).map (· + left.length) := by
  induction left with
  | nil => simp
  | cons b left ih =>
    obtain ⟨⟨noQuote, noBackslash⟩, plain'⟩ := List.forall_mem_cons.mp plain
    rw [List.cons_append, closingQuote?_plain noQuote noBackslash, ih plain', Option.map_map]
    rfl

/-- However many bytes an escape takes, no quote among them could close the literal. An escape that
takes nothing leaves a line break, which cannot do so either. -/
theorem closingQuote?_escape (isQuote : IsQuote quote) (rest : Bytes) :
    closingQuote? quote (Byte.backslash :: rest) =
      (closingQuote? quote (rest.drop (Escape.scan rest).length)).map
        (· + (1 + (Escape.scan rest).length)) := by
  have within := Escape.scan_length_le rest
  rcases Escape.scan_takes rest with ⟨nothing, isBreak⟩ | ⟨b, inside, takes, plain⟩
  · rw [nothing, List.drop_zero]
    cases rest with
    | nil => simp [closingQuote?, isQuote.ne_backslash]
    | cons b later =>
      have isBreak' := isBreak b rfl
      have noQuote : b ≠ quote := by
        rintro rfl
        rcases isQuote with rfl | rfl <;> cases isBreak'
      have noBackslash : b ≠ Byte.backslash := by
        rintro rfl
        cases isBreak'
      rw [closingQuote?_backslash isQuote, closingQuote?_plain noQuote noBackslash, Option.map_map]
      rfl
  · have length_eq : (Escape.scan rest).length = inside.length + 1 := by
      rw [← List.length_cons, ← takes, List.length_take_of_le within]
    have rest_eq : rest = b :: (inside ++ rest.drop (Escape.scan rest).length) := by
      rw [← List.cons_append, ← takes, List.take_append_drop]
    have unclosing : ∀ d ∈ inside, d ≠ quote ∧ d ≠ Byte.backslash :=
      fun d membership => plain_of_escape isQuote (plain d membership)
    calc closingQuote? quote (Byte.backslash :: rest)
        = closingQuote? quote
            (Byte.backslash :: b :: (inside ++ rest.drop (Escape.scan rest).length)) := by
          rw [← rest_eq]
      _ = _ := by
          rw [closingQuote?_backslash isQuote, closingQuote?_append unclosing, Option.map_map,
            length_eq]
          congr 1
          funext n
          simp only [Function.comp_apply]
          omega

/-- The byte that is found is a quote, and those before it leave the literal open. -/
theorem open_of_closingQuote? {rest : Bytes} {n : Nat}
    (found : closingQuote? quote rest = some n) :
    Open quote (rest.take n) ∧ rest.drop n = quote :: rest.drop (n + 1) := by
  fun_induction closingQuote? quote rest generalizing n with
  | case1 => cases found
  | case2 rest =>
    cases found
    exact ⟨.nil, rfl⟩
  | case3 => cases found
  | case4 _ b later ih =>
    obtain ⟨m, found', rfl⟩ := Option.map_eq_some_iff.mp found
    obtain ⟨isOpen, closes⟩ := ih found'
    exact ⟨.pair isOpen, closes⟩
  | case5 b rest noQuote noBackslash ih =>
    obtain ⟨m, found', rfl⟩ := Option.map_eq_some_iff.mp found
    obtain ⟨isOpen, closes⟩ := ih found'
    exact ⟨.plain noQuote noBackslash isOpen, closes⟩

/-- A scan comes to an end at the closing quote, or at the end of the bytes if there is none. Some
bytes have been taken before the given ones. -/
inductive Ends (quote : Byte) (taken : Nat) (bytes : Bytes) (inside : Quoted) : Prop
  | atQuote {n : Nat} (found : closingQuote? quote bytes = some n) (closed : inside.closed = true)
      (length_eq : inside.length = taken + n + 1)
  | atEnd (none : closingQuote? quote bytes = none) (unclosed : inside.closed = false)
      (length_eq : inside.length = taken + bytes.length)

/-- Bytes before which the closing quote cannot stand only add to the distances. -/
theorem Ends.after {taken passed count : Nat} {bytes later : Bytes} {inside : Quoted}
    (ends : Ends quote passed later inside) (passed_eq : passed = taken + count)
    (found_eq : closingQuote? quote bytes = (closingQuote? quote later).map (· + count))
    (length_eq : bytes.length = later.length + count) : Ends quote taken bytes inside := by
  cases ends with
  | @atQuote n found closed stop_eq =>
    rw [found, Option.map_some] at found_eq
    exact .atQuote found_eq closed (by omega)
  | atEnd none unclosed stop_eq =>
    rw [none] at found_eq
    exact .atEnd found_eq unclosed (by omega)

theorem ends_scanFrom (isQuote : IsQuote quote) (taken : Nat) (content : Bytes)
    (findings : List Finding) (bytes : Bytes) :
    Ends quote taken bytes (scanFrom quote taken content findings bytes) := by
  fun_induction scanFrom quote taken content findings bytes with
  | case1 => exact .atEnd closingQuote?_nil rfl rfl
  | case2 => exact .atQuote (closingQuote?_quote _) rfl rfl
  | case3 taken content findings rest escape after meant _ _ ih =>
    have within : escape.length ≤ rest.length := Escape.scan_length_le rest
    apply ih.after (Nat.add_assoc _ _ _) (closingQuote?_escape isQuote rest)
    simp only [after, List.length_drop, List.length_cons]
    omega
  | case4 taken content findings rest escape after failed _ new _ ih =>
    have within : escape.length ≤ rest.length := Escape.scan_length_le rest
    apply ih.after (Nat.add_assoc _ _ _) (closingQuote?_escape isQuote rest)
    simp only [after, List.length_drop, List.length_cons]
    omega
  | case5 taken content findings b rest noQuote noBackslash ih =>
    exact ih.after rfl (closingQuote?_plain noQuote noBackslash rest) rfl

theorem ends_scan (isQuote : IsQuote quote) (rest : Bytes) :
    Ends quote 0 rest (scan quote rest) :=
  ends_scanFrom isQuote 0 [] [] rest

end Quoted

theorem Escape.FaultAt.ne_unterminatedLiteral {bytes : Bytes} {fault : Fault} {offset : Nat}
    (faultAt : FaultAt bytes fault offset) : fault ≠ .unterminatedLiteral := by
  cases faultAt <;> simp

namespace Segment

open Quoted

variable {quote : Byte} {rest : Bytes}

theorem quoted_of_closingQuote? (isQuote : IsQuote quote) {n : Nat}
    (found : closingQuote? quote rest = some n) :
    (quoted quote rest).tail = n + 1 ∧
      ∀ finding ∈ (quoted quote rest).findings, finding.fault ≠ .unterminatedLiteral := by
  cases ends_scan isQuote rest with
  | atEnd none => cases none.symm.trans found
  | atQuote found' closed length_eq =>
    obtain rfl := Option.some.inj (found'.symm.trans found)
    constructor
    · rw [tail_quoted, length_eq, Nat.zero_add]
    · unfold quoted
      dsimp only
      rw [if_neg (by simp [closed])]
      intro finding isFinding
      split at isFinding
      · obtain ⟨⟨_, _, _, _, _, faultAt, _⟩, _⟩ := scan_finding isQuote isFinding
        exact faultAt.ne_unterminatedLiteral
      · split at isFinding
        · cases isFinding
        · split at isFinding
          · cases isFinding
          · next refused =>
            obtain rfl := List.mem_singleton.mp isFinding
            rintro rfl
            have wrong := character_error refused
            simp at wrong

theorem quoted_of_unclosed (isQuote : IsQuote quote) (none : closingQuote? quote rest = none) :
    (quoted quote rest).tail = rest.length ∧ (quoted quote rest).token? = .none ∧
      ⟨0, .unterminatedLiteral⟩ ∈ (quoted quote rest).findings := by
  cases ends_scan isQuote rest with
  | atQuote found => cases none.symm.trans found
  | atEnd _ unclosed length_eq =>
    have quoted_eq : quoted quote rest = ⟨.quoted, (Quoted.scan quote rest).length, .none,
        (Quoted.scan quote rest).findings ++ [⟨0, .unterminatedLiteral⟩]⟩ :=
      if_pos (by simp [unclosed])
    rw [quoted_eq]
    exact ⟨length_eq.trans (Nat.zero_add _), rfl, List.mem_append_right _ List.mem_cons_self⟩

end Segment

namespace Piece

open Quoted

/-- A piece of a source that is a quoted literal, with its opening quote and all that follows in the
source. -/
structure Opens (source : Bytes) (piece : Piece) (quote : Byte) (rest : Bytes) : Prop where
  membership : piece ∈ ofSource source
  isQuote : IsQuote quote
  source_eq : source.drop piece.position.offset = quote :: rest

variable {source rest : Bytes} {piece : Piece} {quote : Byte}

theorem Opens.segment_eq (opens : piece.Opens source quote rest) :
    piece.segment = Segment.quoted quote rest ∧
      piece.bytes = quote :: rest.take (Segment.quoted quote rest).tail := by
  obtain ⟨passed, first, rest', stands⟩ := stands_of_mem_ofSource opens.membership
  have source_eq := opens.source_eq
  rw [stands.offset_eq, stands.source_eq, List.drop_left] at source_eq
  obtain ⟨rfl, rfl⟩ := List.cons.inj source_eq
  have scan_eq : Segment.scan piece.fresh first rest' = Segment.quoted first rest' := by
    rcases opens.isQuote with rfl | rfl <;> rfl
  have segment_eq := stands.segment_eq.trans scan_eq
  exact ⟨segment_eq, segment_eq ▸ stands.bytes_eq⟩

/-- Where a literal ends, and what it comes to if there is no end to it. -/
structure InSync (file : UInt32) (piece : Piece) (quote : Byte) (rest : Bytes) : Prop where
  /-- A literal ends just behind its closing quote. -/
  closed : ∀ n, closingQuote? quote rest = some n → piece.bytes = quote :: rest.take (n + 1)
  /-- It goes on to the end of the source, is reported there and gives no token, exactly if it has
  no closing quote. -/
  unclosed_iff : closingQuote? quote rest = none ↔
    piece.bytes = quote :: rest ∧ piece.segment.token? = none ∧
      ⟨piece.position.location file, .unterminatedLiteral⟩ ∈ piece.reports file

theorem Opens.inSync (opens : piece.Opens source quote rest) (file : UInt32) :
    piece.InSync file quote rest := by
  obtain ⟨segment_eq, bytes_eq⟩ := opens.segment_eq
  constructor
  · intro n found
    rw [bytes_eq, (Segment.quoted_of_closingQuote? opens.isQuote found).1]
  · constructor
    · intro none
      obtain ⟨tail_eq, silent, reported⟩ := Segment.quoted_of_unclosed opens.isQuote none
      rw [tail_eq, List.take_length] at bytes_eq
      rw [← segment_eq] at silent reported
      exact ⟨bytes_eq, silent, List.mem_map.mpr ⟨_, reported, rfl⟩⟩
    · rintro ⟨_, _, reported⟩
      obtain ⟨finding, isFinding, report_eq⟩ := List.mem_map.mp reported
      cases found : closingQuote? quote rest with
      | none => rfl
      | some n =>
        rw [segment_eq] at isFinding
        have other := (Segment.quoted_of_closingQuote? opens.isQuote found).2 finding isFinding
        exact absurd (congrArg Report.fault report_eq) other

end Piece

namespace Session

/-- A run over a source in which every literal ends where its closing quote stands. -/
structure KeepsInSync (session : Session) (file : UInt32) (source : Bytes)
    (all : Array Scanned) : Prop extends session.Finds file source all where
  literals : ∀ (piece : Piece) quote rest, piece.Opens source quote rest → piece.InSync file quote rest

/-- The escapes of a literal have no say in where it ends. -/
theorem absorbAll_inSync (session : Session) (file : UInt32) (source : Bytes) :
    session.KeepsInSync file source (Lexer.ofSource file source).run.1 where
  toFinds := session.finds_run file source
  literals _ _ _ opens := opens.inSync file

/-- An escape that breaks off at the closing quote of its literal, and a literal without one. -/
theorem absorbAll_inSync_broken_escape :
    let source := Utf8.ofString "\"\\u\x7b12\" 'b"
    Quoted.closingQuote? Byte.doubleQuote (source.drop 1) = some 5 ∧
      Quoted.closingQuote? Byte.apostrophe (source.drop 9) = none ∧
      (Piece.ofSource source).map Piece.bytes = [source.take 7, [Byte.space], source.drop 8] ∧
      initial.KeepsInSync 1 source (Lexer.ofSource 1 source).run.1 := by
  intro source
  exact ⟨by decide +kernel, by decide +kernel, by decide +kernel, absorbAll_inSync initial 1 source⟩

end Session

end AssemblyLexer
