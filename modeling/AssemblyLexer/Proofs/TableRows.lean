import AssemblyLexer.Proofs.Completion
import AssemblyLexer.Proofs.Visible

/-!
The lines of a dump. A table has one line for each token between those of its frame, because
nothing that a row shows can break a line.
-/

set_option autoImplicit false

namespace AssemblyLexer

open Printable (Visible visible_ofString)

namespace Table

/-- The digits of a number behind as many spaces as make up a width. -/
def numeric (width n : Nat) : Bytes :=
  let digits := (Nat.toDigits 10 n).map Char.toUInt8
  List.replicate (width - digits.length) Byte.space ++ digits

/-- A text before as many spaces as make up a width. -/
def textual (width : Nat) (text : Bytes) : Bytes :=
  text ++ List.replicate (width - text.length) Byte.space

/-- What stands for a token in the column for values. Behind a recording it is the text. -/
def valueOf (memoize : Bool) (s : Scanned) : Bytes :=
  if memoize then Printable.ofBytes s.place.text else Row.valueOf s.token

/-- The line of a token has cells between bars for where the token starts and how long it is, for what
it is and stands for, and in a traced table for its text. The last two are cut to the width of their
cells, and no byte in them is a control byte. -/
structure Describes (options : DumpOptions) (s : Scanned) (value text line : Bytes) : Prop where
  value_eq : value = (valueOf options.memoize s).take 20
  text_eq : text = (Printable.ofBytes s.place.text).take 20
  line_eq : line =
    Utf8.ofString "│ " ++ numeric 4 s.place.location.line.toNat ++
    Utf8.ofString " │ " ++ numeric 6 s.place.span.start ++
    Utf8.ofString " │ " ++ numeric 6 (s.place.span.stop - s.place.span.start) ++
    Utf8.ofString " │ " ++ textual 5 (Utf8.ofString s.token.kind.spelling) ++
    Utf8.ofString " │ " ++ textual 20 value ++
    (if options.trace then Utf8.ofString " │ " ++ textual 20 text else []) ++
    Utf8.ofString " │"
  length_le : value.length ≤ 20 ∧ text.length ≤ 20
  visible : ∀ b ∈ value ++ text, ¬(b < 0x20 ∨ b = 0x7F)

/-- A dump of tokens has four lines with its path and its heading, a line for each token that describes
it, and one line more. -/
structure Shows (options : DumpOptions) (path : Bytes) (tokens : List Scanned) (output : Bytes)
    (lines : List Bytes) : Prop where
  output_eq : output = lines.flatMap fun line => line ++ [Byte.lineFeed]
  unbroken : ∀ line ∈ lines, Byte.lineFeed ∉ line
  length_eq : lines.length = 5 + tokens.length
  count_eq : output.count Byte.lineFeed = 5 + tokens.length
  heading_eq : lines.take 4 =
    [[0x5B] ++ path ++ Utf8.ofString ":tokens]", Utf8.ofString (top options.trace),
      Utf8.ofString (heading options.trace), Utf8.ofString (rule options.trace)]
  describes : ∀ (i : Nat) (s : Scanned), tokens[i]? = some s →
    ∃ value text line, lines[4 + i]? = some line ∧ Describes options s value text line
  bottom_eq : lines[4 + tokens.length]? = some (Utf8.ofString (bottom options.trace))

end Table

theorem Row.ofToken_eq (memoize : Bool) (s : Scanned) :
    ofToken memoize s = { ofScanned s with value := Table.valueOf memoize s } := by
  cases memoize <;> rfl

theorem Row.visible_ofToken {s : Scanned} (proper : s.token.Proper) (memoize : Bool) :
    Visible (ofToken memoize s).value := by
  cases memoize with
  | true => exact Printable.visible_ofBytes _
  | false => exact visible_valueOf proper.visible

namespace Table

theorem toUpper_of_isDigit {c : Char} (isDigit : c.isDigit) : c.toUpper = c := by
  rw [Char.isDigit, Bool.and_eq_true, decide_eq_true_eq, decide_eq_true_eq] at isDigit
  refine dif_neg fun isLower => ?_
  have crossed : ('a' : Char).val ≤ ('9' : Char).val := UInt32.le_trans isLower.1 isDigit.2
  exact absurd crossed (by decide)

theorem numeric_eq (width n : Nat) : numeric width n = Printable.padLeft width (Numeral.decimal n) := by
  have digits_eq : Numeral.decimal n = (Nat.toDigits 10 n).map Char.toUInt8 := by
    apply List.map_congr_left
    intro c isDigit
    rw [toUpper_of_isDigit (Nat.isDigit_of_mem_toDigits (by decide) (Nat.le_refl 10) isDigit)]
  rw [Printable.padLeft, digits_eq]
  rfl

variable {row : Row}

theorem visible_spelling (kind : TokenKind) : Visible (Utf8.ofString kind.spelling) := by
  cases kind <;> exact visible_ofString (by decide)

theorem visible_cells (seen : Visible row.value) (traced : Bool) :
    ∀ cell ∈ cells traced row, Visible cell := by
  have number (width n : Nat) : Visible (Printable.padLeft width (Numeral.decimal n)) :=
    (Numeral.visible_decimal n).padLeft width
  have wide {content : Bytes} (seen : Visible content) : Visible (Printable.fit valueWidth content) :=
    (seen.take _).padRight _
  have kind := (visible_spelling row.kind).padRight 5
  have text := wide (Printable.visible_ofBytes row.text)
  cases traced with
  | true => simp [cells, number, kind, wide seen, text]
  | false => simp [cells, number, kind, wide seen]

theorem visible_intercalate {separator : Bytes} (seen : Visible separator) {texts : List Bytes}
    (all : ∀ text ∈ texts, Visible text) : Visible (separator.intercalate texts) := by
  induction texts with
  | nil => simp
  | cons text texts ih =>
    obtain ⟨first, others⟩ := List.forall_mem_cons.mp all
    cases texts with
    | nil => simpa using first
    | cons next texts =>
      rw [List.intercalate_cons_cons]
      simp [first, seen, ih others]

theorem visible_renderRow (seen : Visible row.value) (traced : Bool) :
    Visible (renderRow traced row) := by
  have edges : Visible (Utf8.ofString "│ ") ∧ Visible (Utf8.ofString " │") :=
    ⟨visible_ofString (by decide), visible_ofString (by decide)⟩
  have between : Visible (Utf8.ofString " │ ") := visible_ofString (by decide)
  have inside := visible_intercalate between (visible_cells seen traced)
  simp [renderRow, edges, inside]

set_option maxRecDepth 1024 in
/-- Each line of a frame takes one line, below a path that does. -/
theorem lineFeed_notMem_lines {path : Bytes} (oneLine : Byte.lineFeed ∉ path) {rows : List Row}
    (seen : ∀ row ∈ rows, Visible row.value) (traced : Bool) :
    ∀ line ∈ lines traced path rows, Byte.lineFeed ∉ line := by
  have top_seen : Visible (Utf8.ofString (top traced)) := by
    cases traced <;> exact visible_ofString (by decide +kernel)
  have heading_seen : Visible (Utf8.ofString (heading traced)) := by
    cases traced <;> exact visible_ofString (by decide +kernel)
  have rule_seen : Visible (Utf8.ofString (rule traced)) := by
    cases traced <;> exact visible_ofString (by decide +kernel)
  have bottom_seen : Visible (Utf8.ofString (bottom traced)) := by
    cases traced <;> exact visible_ofString (by decide +kernel)
  have title : Byte.lineFeed ∉ [0x5B] ++ path ++ Utf8.ofString ":tokens]" := by
    have before : Byte.lineFeed ∉ ([0x5B] : Bytes) := by decide
    have behind : Visible (Utf8.ofString ":tokens]") := visible_ofString (by decide)
    rw [List.mem_append, List.mem_append, not_or, not_or]
    exact ⟨⟨before, oneLine⟩, behind.lineFeed_notMem⟩
  intro line membership
  simp only [lines, List.mem_append, List.mem_cons, List.not_mem_nil, or_false, List.mem_map]
    at membership
  rcases membership with ((rfl | rfl | rfl | rfl) | ⟨row, isRow, rfl⟩) | rfl
  · exact title
  · exact top_seen.lineFeed_notMem
  · exact heading_seen.lineFeed_notMem
  · exact rule_seen.lineFeed_notMem
  · exact (visible_renderRow (seen row isRow) traced).lineFeed_notMem
  · exact bottom_seen.lineFeed_notMem

theorem length_lines (traced : Bool) (path : Bytes) (rows : List Row) :
    (lines traced path rows).length = 5 + rows.length := by
  simp [lines]
  omega

theorem getElem?_lines (traced : Bool) (path : Bytes) {rows : List Row} {i : Nat}
    (isRow : rows[i]? = some row) :
    (lines traced path rows)[4 + i]? = some (renderRow traced row) := by
  have within := (List.getElem?_eq_some_iff.mp isRow).1
  rw [lines, List.getElem?_append_left (by simp; omega), List.getElem?_append_right (by simp)]
  simp [isRow]

theorem getElem?_lines_bottom (traced : Bool) (path : Bytes) (rows : List Row) :
    (lines traced path rows)[4 + rows.length]? = some (Utf8.ofString (bottom traced)) := by
  rw [lines, List.getElem?_append_right (by simp; omega)]
  simp [Nat.add_comm 4]

/-- The rendered table has a line feed for each of its lines. -/
theorem count_lineFeed {lines : List Bytes} (oneLine : ∀ line ∈ lines, Byte.lineFeed ∉ line) :
    (lines.flatMap fun line => line ++ [Byte.lineFeed]).count Byte.lineFeed = lines.length := by
  induction lines with
  | nil => rfl
  | cons line lines ih =>
    obtain ⟨first, later⟩ := List.forall_mem_cons.mp oneLine
    rw [List.flatMap_cons, List.count_append, List.count_append, ih later,
      List.count_eq_zero_of_not_mem first]
    simp
    omega

/-- The line of a row describes the token that the row is of. -/
theorem describes_renderRow {source : Bytes} {s : Scanned} (small : source.length < UInt64.size)
    (within : s.place.Within source) (proper : s.token.Proper) (options : DumpOptions) :
    Describes options s ((valueOf options.memoize s).take 20)
      ((Printable.ofBytes s.place.text).take 20)
      (renderRow options.trace (Row.ofToken options.memoize s)) := by
  have seen : Visible (valueOf options.memoize s) := by
    have shown := Row.visible_ofToken proper options.memoize
    rwa [Row.ofToken_eq] at shown
  constructor
  case value_eq => rfl
  case text_eq => rfl
  case length_le => exact ⟨List.length_take_le _ _, List.length_take_le _ _⟩
  case visible =>
    intro b inside
    have text_seen := Printable.visible_ofBytes s.place.text
    have visible := Printable.visible_append.mpr ⟨seen.take 20, text_seen.take 20⟩
    simpa [Byte.isControl] using visible b inside
  case line_eq =>
    have start_eq := toNat_offset small (Nat.le_trans within.start_le within.stop_le)
    have length_eq := toNat_offset small (Nat.le_trans (Nat.sub_le _ s.place.span.start) within.stop_le)
    rw [Row.ofToken_eq, renderRow, cells]
    dsimp only [Row.ofScanned, Span.length]
    rw [start_eq, length_eq, numeric_eq, numeric_eq, numeric_eq]
    cases options.trace with
    | true => simp [List.intercalate_cons_cons, Printable.fit, Printable.padRight, textual, valueWidth]
    | false => simp [List.intercalate_cons_cons, Printable.fit, Printable.padRight, textual, valueWidth]

theorem shows_render {path source : Bytes} {tokens : List Scanned} (oneLine : Byte.lineFeed ∉ path)
    (small : source.length < UInt64.size) (within : ∀ s ∈ tokens, s.place.Within source)
    (proper : ∀ s ∈ tokens, s.token.Proper) (options : DumpOptions) :
    let rows := tokens.map (Row.ofToken options.memoize)
    Shows options path tokens (render options.trace path rows) (lines options.trace path rows) := by
  intro rows
  have rows_length : rows.length = tokens.length := List.length_map _
  have unbroken : ∀ line ∈ lines options.trace path rows, Byte.lineFeed ∉ line := by
    apply lineFeed_notMem_lines oneLine
    intro row isRow
    obtain ⟨s, isToken, rfl⟩ := List.mem_map.mp isRow
    exact Row.visible_ofToken (proper s isToken) options.memoize
  have length_eq : (lines options.trace path rows).length = 5 + tokens.length := by
    rw [length_lines, rows_length]
  refine ⟨rfl, unbroken, length_eq, (count_lineFeed unbroken).trans length_eq, rfl, ?_,
    rows_length ▸ getElem?_lines_bottom options.trace path rows⟩
  intro i s isToken
  have membership := List.mem_of_getElem? isToken
  have isRow : rows[i]? = some (Row.ofToken options.memoize s) := by
    rw [List.getElem?_map, isToken]
    rfl
  exact ⟨_, _, _, getElem?_lines options.trace path isRow,
    describes_renderRow small (within s membership) (proper s membership) options⟩

end Table

namespace Lexer

theorem line_passAll_lineFeeds {p : Position} (whole : p.afterReturn = false) (n : Nat) :
    (p.passAll (List.replicate n Byte.lineFeed)).line = p.line + n := by
  induction n generalizing p with
  | zero => rfl
  | succ n ih =>
    have passed : p.pass Byte.lineFeed = ⟨p.offset + 1, p.line + 1, p.offset + 1, false⟩ := by
      rw [Position.pass, if_neg (by decide), if_pos rfl, whole, if_neg Bool.false_ne_true]
    rw [List.replicate_succ, Position.passAll, List.foldl_cons, ← Position.passAll, passed, ih rfl,
      Nat.add_assoc, Nat.add_comm 1]

/-- Line feeds at the start of a statement are passed over one by one. -/
theorem exists_skips_lineFeeds {lexer : Lexer} (fresh : lexer.fresh) {n : Nat}
    (rest_eq : lexer.rest = List.replicate n Byte.lineFeed) :
    ∃ skipped last, lexer.Skips skipped last ∧ last.rest = [] := by
  induction n generalizing lexer with
  | zero => exact ⟨[], lexer, .done lexer, rest_eq⟩
  | succ n ih =>
    let rest := List.replicate n Byte.lineFeed
    have segment_eq : (lexer.piece Byte.lineFeed rest).segment =
        Segment.lineBreak true Byte.lineFeed rest := by
      rw [piece, fresh]
      rfl
    have behind_eq : (lexer.behind Byte.lineFeed rest).rest = rest :=
      congrArg (fun segment : Segment => rest.drop segment.tail) segment_eq
    obtain ⟨skipped, last, skips, atEnd⟩ :=
      ih (show (lexer.behind Byte.lineFeed rest).fresh from fresh) behind_eq
    exact ⟨_, last, .skip rest_eq (congrArg Segment.token? segment_eq) skips, atEnd⟩

/-- A source of line feeds has no token but its end, in the line behind the last of them. -/
theorem exists_runs_lineFeeds (file : UInt32) (n : Nat) :
    ∃ s after, (ofSource file (List.replicate n Byte.lineFeed)).Runs [s] after ∧
      s.token = .symbol .endOfSource ∧ s.place.location.line = UInt32.ofNat (1 + n) := by
  obtain ⟨skipped, last, skips, atEnd⟩ :=
    exists_skips_lineFeeds (show (ofSource file (List.replicate n Byte.lineFeed)).fresh from rfl) rfl
  refine ⟨_, _, .last (.intro skips atEnd), rfl, ?_⟩
  have join_eq : Piece.join skipped = List.replicate n Byte.lineFeed := by
    rw [← List.append_nil (Piece.join skipped), ← atEnd, ← skips.rest_eq]
    rfl
  have position_eq : last.position = Position.initial.passAll (List.replicate n Byte.lineFeed) := by
    rw [skips.position_eq, join_eq]
    rfl
  rw [scanned, placeOf, position_eq, Position.location, line_passAll_lineFeeds rfl]
  rfl

end Lexer

namespace Session

variable {path source : Bytes}

/-- The dump of a source under a path of one line has a line for each token up to and including the
end of the source, and five lines besides. The session needs a number for each name, and a recording
goes through sources with no more lines than 32 bits count. -/
theorem dump_lines {session : Session} (rooted : session.names.Rooted) (options : DumpOptions)
    (file : UInt32) (oneLine : Byte.lineFeed ∉ path) (small : source.length < UInt64.size)
    (counted : options.memoize = true → ¬Overlong source)
    (granted : session.Grants (Lexer.ofSource file source).run.1.toList) :
    let tokens := (Lexer.ofSource file source).run.1.toList
    (∃ front last, tokens = front ++ [last] ∧ last.token.kind = .endOfSource ∧
      ∀ s ∈ front, s.token.kind ≠ .endOfSource) ∧
    ∃ output lines, session.dumpInPlace options path source file =
        .ok (session.absorbAll tokens.toArray, output) ∧
      Table.Shows options path tokens output lines := by
  intro tokens
  have runs := (Lexer.ofSource file source).run_runs
  obtain ⟨front, last, tokens_eq, inside, atEnd⟩ := runs.exists_last
  have within := runs.within (Lexer.reads_ofSource file source)
  have dumped := (dumpInPlace_cases rooted options path file small granted).resolve_right
    fun refused => counted refused.1 refused.2
  refine ⟨⟨front, last, tokens_eq, atEnd, inside⟩, _, _, ?_,
    Table.shows_render oneLine small within runs.proper options⟩
  rw [dumped]

/-- A parameter and a string with a tab and a delete byte make eight lines with the end. -/
theorem dump_lines_of_escapes :
    let path : Bytes := [0x61]
    let source : Bytes := [0x24, 0x80, 0x20, 0x22, 0x09, 0x7F, 0x22]
    let options : DumpOptions := ⟨true, true⟩
    initial.names.Rooted ∧ Byte.lineFeed ∉ path ∧ source.length < UInt64.size ∧ ¬Overlong source ∧
      initial.Grants (Lexer.ofSource 1 source).run.1.toList ∧
      ∃ session output, initial.dumpInPlace options path source 1 = .ok (session, output) ∧
        output.count Byte.lineFeed = 8 := by
  intro path source options
  have oneLine : Byte.lineFeed ∉ path := by decide
  have small : source.length < UInt64.size := by decide
  have fewLines : ¬Overlong source := by
    rw [Overlong]
    decide
  have count_eq : (Lexer.ofSource 1 source).run.1.toList.length = 3 := by decide +kernel
  have granted : initial.Grants (Lexer.ofSource 1 source).run.1.toList := by
    rw [← (Lexer.ofSource 1 source).run_runs.firstSteps_eq]
    exact Lexer.grants_ofSource names_initial 1 (by decide) _
  obtain ⟨_, output, _, dumped, shows⟩ :=
    dump_lines rooted_initial options 1 oneLine small (fun _ => fewLines) granted
  refine ⟨rooted_initial, oneLine, small, fewLines, granted, _, output, dumped, ?_⟩
  rw [shows.count_eq, count_eq]

/-- The end of a source is refused by the recording when the count of its lines has started over. -/
theorem dumpInPlace_lineFeeds {session : Session} (rooted : session.names.Rooted) (trace : Bool)
    (path : Bytes) (file : UInt32) {n : Nat} (startsOver : UInt32.ofNat (1 + n) < 1) :
    session.dumpInPlace ⟨trace, true⟩ path (List.replicate n Byte.lineFeed) file =
      .error (.recording .earlierLine) := by
  obtain ⟨s, _, runs, token_eq, line_eq⟩ := Lexer.exists_runs_lineFeeds file n
  have granted : session.Grants [s] := by
    exact ⟨Scanner.not_refuses_of_unnamed (congrArg Token.name? token_eq), trivial⟩
  have refused : (Recording.ofOrigin 1 0).pushAll ([s].map Scanned.recorded) = .error .earlierLine := by
    have earlier : s.recorded.line < (Recording.ofOrigin 1 0).line := by
      rw [Scanned.recorded, line_eq]
      exact startsOver
    have push_eq : (Recording.ofOrigin 1 0).push s.recorded = .error .earlierLine := if_pos earlier
    rw [List.map_singleton, Recording.pushAll, List.foldlM_cons, push_eq]
    rfl
  exact dumpInPlace_refused runs rooted granted refused trace path

/-- A source of as many line feeds as the greatest number of 32 bits cannot be recorded, since its end
is in line zero. A new name breaks the dump off where there are no numbers left. -/
theorem dump_not_lines :
    initial.dumpInPlace ⟨false, true⟩ [0x61] (List.replicate (UInt32.size - 1) Byte.lineFeed) 1 =
        .error (.recording .earlierLine) ∧
      ∃ texts, let session := { initial with names := NameTable.predefined.addAll texts }
        session.dumpInPlace ⟨false, false⟩ [0x61] [0x71, 0x71] 1 = .error .namesExhausted := by
  constructor
  · exact dumpInPlace_lineFeeds rooted_initial false [0x61] 1 (by decide)
  · have unknown : [0x71, 0x71] ∉ predefinedNames.map Utf8.ofString := by decide +kernel
    obtain ⟨texts, refuses⟩ := NameTable.represents_predefined.exists_refuses unknown
    refine ⟨texts, ?_⟩
    intro session
    have rooted : session.names.Rooted :=
      NameTable.rooted_predefined.grows (NameTable.grows_addAll _ texts)
    have named : (Lexer.ofSource 1 [0x71, 0x71]).next.1.token.name? = some [0x71, 0x71] := by decide +kernel
    obtain ⟨c, ends, _⟩ := (Scanner.follows_ofBuffer 1 ⟨0, [0x71, 0x71]⟩).call_refused rooted named refuses
    have called : (Scanner.ofBuffer 1 ⟨0, [0x71, 0x71]⟩).call session = .error .namesExhausted := by
      rw [Scanner.call, ends.next_eq]
    simp only [dumpInPlace, if_neg Bool.false_ne_true, Scanner.callAll, called, bind, Except.bind]

end Session

end AssemblyLexer
