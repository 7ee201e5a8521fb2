import AssemblyLexer.Number.Scan
import AssemblyLexer.Segment.Quoted
import AssemblyLexer.Token.Basic
import AssemblyLexer.Token.Operator

/-!
Segments: a source text falls into pieces, each of which is a token, a stretch
that separates tokens, or something faulty. The segment at a place is determined
by the bytes from there on and by whether a statement starts there; where in the
file it stands plays no part. Every segment takes at least one byte.
-/

set_option autoImplicit false

namespace AssemblyLexer

inductive SegmentForm
  | blank
  | comment
  | continuation
  | strayBackslash
  | unexpected
  | lineBreak
  | semicolon
  | operator
  | word
  | parameter
  | number
  | quoted
  deriving DecidableEq, Repr

structure Segment where
  form : SegmentForm
  /-- The number of bytes after the first. -/
  tail : Nat
  token? : Option Token
  /-- What is wrong, at distances from the first byte. -/
  findings : List Finding

namespace Segment

def length (s : Segment) : Nat :=
  s.tail + 1

/-- The segment spells out a name, be it one that is returned, a specifier or no name at all. -/
def spellsName (s : Segment) : Bool :=
  s.form = .word || s.form = .parameter

def skipped (form : SegmentForm) (tail : Nat) : Segment :=
  ⟨form, tail, none, []⟩

def token (form : SegmentForm) (tail : Nat) (t : Token) : Segment :=
  ⟨form, tail, some t, []⟩

/-- A fault of the segment as a whole stands at its first byte. -/
def faulty (form : SegmentForm) (tail : Nat) (fault : Fault) : Segment :=
  ⟨form, tail, none, [⟨0, fault⟩]⟩

/-- A carriage return and the line feed after it are one break. -/
def breakTail (first : Byte) (rest : Bytes) : Nat :=
  if first = Byte.carriageReturn ∧ rest.head? = some Byte.lineFeed then 1 else 0

/-- A line break ends the statement unless none has begun. -/
def lineBreak (fresh : Bool) (first : Byte) (rest : Bytes) : Segment :=
  ⟨.lineBreak, breakTail first rest, if fresh then none else some (.symbol .endOfStatement), []⟩

def comment (rest : Bytes) : Segment :=
  skipped .comment (rest.takeWhile fun b => !b.isLineBreak).length

/-- A backslash must be followed by a line break, which it cancels. -/
def backslash : Bytes → Segment
  | [] => faulty .strayBackslash 0 .strayBackslash
  | b :: rest =>
    if b.isLineBreak then skipped .continuation (breakTail b rest + 1)
    else faulty .strayBackslash 0 .strayBackslash

/-- A parameter without a name is a fault but still a token. -/
def parameter (rest : Bytes) : Segment :=
  let name := rest.takeWhile Byte.isNamePart
  ⟨.parameter, name.length, some (.parameter name),
    if name.isEmpty then [⟨0, .emptyParameter⟩] else []⟩

def number (form : SegmentForm) (tail : Nat) (scan : NumberScan) : Segment :=
  match scan.status with
  | .integer => token form tail (.integer scan.literal)
  | .float => token form tail (.float scan.literal)
  | .noDigits => faulty form tail .numberWithoutDigits
  | .overflow | .exponentOverflow => faulty form tail .numericOverflow
  | .malformed => faulty form tail .malformedNumber

/-- The scope given by what follows a name and its first colon, with the number of bytes taken. -/
def labelScope (name after : Bytes) : LabelScope × Nat :=
  let inner := name.head? == some Byte.dot
  if after.head? = some Byte.colon then
    (if inner then .hiddenLabel else .publicLabel, 1)
  else if after.head? = some Byte.question then
    (.weakLabel, 1)
  else
    (if inner then .localLabel else .privateLabel, 0)

/-- A name before an apostrophe gives the base of a number. At the start of a statement a name
before a colon is a label. -/
def word (fresh : Bool) (first : Byte) (rest : Bytes) : Segment :=
  let more := rest.takeWhile Byte.isNamePart
  let name := first :: more
  match rest.drop more.length with
  | [] => token .word more.length (.identifier name)
  | next :: after =>
    if next = Byte.apostrophe then
      match Radix.ofSpecifier? name with
      | some radix =>
        let scan := NumberScan.scan radix after
        number .word (more.length + 1 + scan.length) scan
      | none => faulty .word (more.length + 1) (.invalidSpecifier name)
    else if fresh ∧ next = Byte.colon then
      let (scope, taken) := labelScope name after
      token .word (more.length + 1 + taken) (.label name scope)
    else
      token .word more.length (.identifier name)

def decimal (first : Byte) (rest : Bytes) : Segment :=
  let scan := NumberScan.scan .decimal (first :: rest)
  number .number (scan.length - 1) scan

def quoted (quote : Byte) (rest : Bytes) : Segment :=
  let inside := Quoted.scan quote rest
  if !inside.closed then
    ⟨.quoted, inside.length, none, inside.findings ++ [⟨0, .unterminatedLiteral⟩]⟩
  else if !inside.findings.isEmpty then
    ⟨.quoted, inside.length, none, inside.findings⟩
  else if quote = Byte.doubleQuote then
    token .quoted inside.length (.string inside.content)
  else
    match Quoted.character inside.content with
    | .ok c => token .quoted inside.length (.character c inside.content)
    | .error fault => faulty .quoted inside.length fault

def operator (first : Byte) (rest : Bytes) : Segment :=
  match TokenKind.ofByte? first with
  | some kind =>
    let (final, taken) := kind.grown rest
    token .operator taken (.symbol final)
  | none => faulty .unexpected 0 .unexpectedCharacter

/-- The segment that starts with the given byte. A fresh place is one where no token has been
produced since the start of the source or the last end of a statement. -/
def scan (fresh : Bool) (first : Byte) (rest : Bytes) : Segment :=
  if first.isBlank then skipped .blank 0
  else if first.isNameStart then word fresh first rest
  else if first.isDecimalDigit then decimal first rest
  else if first.isLineBreak then lineBreak fresh first rest
  else if first = Byte.hash then comment rest
  else if first = Byte.backslash then backslash rest
  else if first = Byte.semicolon then token .semicolon 0 (.symbol .endOfStatement)
  else if first = Byte.dollar then parameter rest
  else if first = Byte.doubleQuote ∨ first = Byte.apostrophe then quoted first rest
  else operator first rest

theorem tail_number (form : SegmentForm) (tail : Nat) (scan : NumberScan) :
    (number form tail scan).tail = tail := by
  unfold number
  split <;> rfl

theorem breakTail_le (first : Byte) (rest : Bytes) : breakTail first rest ≤ rest.length := by
  unfold breakTail
  split
  · next both =>
    cases rest with
    | nil => simp at both
    | cons => simp
  · exact Nat.zero_le _

theorem labelScope_le (name after : Bytes) : (labelScope name after).2 ≤ after.length := by
  unfold labelScope
  cases after with
  | nil => simp
  | cons =>
    dsimp only
    split
    · simp
    · split <;> simp

theorem word_tail_le (fresh : Bool) (first : Byte) (rest : Bytes) :
    (word fresh first rest).tail ≤ rest.length := by
  have within : (rest.takeWhile Byte.isNamePart).length ≤ rest.length :=
    (List.takeWhile_sublist _).length_le
  unfold word
  dsimp only
  split
  · exact within
  · next next after remaining =>
    have lengths := congrArg List.length remaining
    rw [List.length_drop, List.length_cons] at lengths
    split
    · split
      · next radix _ =>
        have scanned := NumberScan.length_le radix after
        rw [tail_number]
        omega
      · simp only [faulty]
        omega
    · split
      · have suffix := labelScope_le (first :: rest.takeWhile Byte.isNamePart) after
        simp only [token]
        omega
      · exact within

theorem decimal_tail_le (first : Byte) (rest : Bytes) :
    (decimal first rest).tail ≤ rest.length := by
  have scanned := NumberScan.length_le .decimal (first :: rest)
  rw [List.length_cons] at scanned
  unfold decimal
  dsimp only
  rw [tail_number]
  omega

theorem backslash_tail_le (rest : Bytes) : (backslash rest).tail ≤ rest.length := by
  unfold backslash
  split
  · exact Nat.le_refl _
  · next b after =>
    split
    · exact Nat.succ_le_succ (breakTail_le b after)
    · exact Nat.zero_le _

theorem quoted_tail_le (quote : Byte) (rest : Bytes) :
    (quoted quote rest).tail ≤ rest.length := by
  have inside := Quoted.length_le quote rest
  unfold quoted
  dsimp only
  repeat' split
  all_goals exact inside

theorem operator_tail_le (first : Byte) (rest : Bytes) :
    (operator first rest).tail ≤ rest.length := by
  unfold operator
  split
  · next kind _ => exact TokenKind.grown_le kind rest
  · exact Nat.zero_le _

/-- A segment takes bytes that are there. -/
theorem scan_tail_le (fresh : Bool) (first : Byte) (rest : Bytes) :
    (scan fresh first rest).tail ≤ rest.length := by
  unfold scan
  split
  · exact Nat.zero_le _
  split
  · exact word_tail_le fresh first rest
  split
  · exact decimal_tail_le first rest
  split
  · exact breakTail_le first rest
  split
  · exact (List.takeWhile_sublist _).length_le
  split
  · exact backslash_tail_le rest
  split
  · exact Nat.zero_le _
  split
  · exact (List.takeWhile_sublist _).length_le
  split
  · exact quoted_tail_le first rest
  · exact operator_tail_le first rest

end Segment

end AssemblyLexer
