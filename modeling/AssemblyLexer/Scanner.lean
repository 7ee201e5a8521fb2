import AssemblyLexer.Input.Cursor
import AssemblyLexer.Session
import AssemblyLexer.Token.OperatorState

/-!
Scanners are lexers that go through a buffer in place and use a session as they
go. A call takes turns: each looks at the byte under the cursor, and a table says
what is to be done about the byte in the mode that the turn before has left.
Lines are counted where a line break is passed, in code or in a literal, and a
token keeps the line and the column that are under the cursor where it starts.
Names are spelled out in the pending text of the session's table, numbers are
left to a reader that the cursor catches up with, and faults go to the log when
they are met.
-/

set_option autoImplicit false

namespace AssemblyLexer

/-- Why a scanner cannot go on. -/
inductive ScannerError
  | cursor (error : CursorError)
  /-- The first byte is asked of a label's name that has none. -/
  | emptyName
  /-- A token starts behind the end of the buffer. -/
  | textOutOfRange
  deriving DecidableEq, Repr

/-- The modes of a scanner. Those at the start of a line are for statements without a token so far. -/
inductive ScannerMode
  | lineStart
  | lineStartComment
  /-- Behind a backslash at the start of a line. -/
  | lineStartBackslash
  | normal
  | comment
  /-- Behind a backslash. -/
  | backslash
  /-- Inside an operator, whose kind the number selects when it ends. -/
  | operator (state : OperatorState) (variant : Nat)
  deriving DecidableEq, Repr

/-- What is done about the byte under the cursor. -/
inductive ScannerAction
  /-- Take the byte and go on. -/
  | take
  /-- Take the byte, which completes the token. -/
  | produce (kind : TokenKind)
  /-- Leave the byte to what comes behind the token. -/
  | yield (kind : TokenKind)
  /-- Take a line break and go on. -/
  | lineBreak
  /-- Take a line break, which ends the statement. -/
  | endStatement
  | number
  | quoted (quote : Byte)
  | word
  | parameter
  /-- Report the byte and take it. -/
  | unexpected
  /-- Report the backslash before the byte and leave the byte. -/
  | stray
  | endOfSource
  deriving DecidableEq, Repr

structure ScannerTransition where
  action : ScannerAction
  /-- The mode after an action that completes no token. -/
  next : ScannerMode := .normal
  /-- A token starts with the byte. -/
  starts : Bool := false
  deriving DecidableEq, Repr

namespace ScannerMode

/-- What leads on in an operator or completes it. -/
def ofMove (variant : Nat) (starts : Bool) : OperatorMove → ScannerTransition
  | .go next more => { action := .take, next := .operator next (variant ||| more), starts := starts }
  | .produce kind => { action := .produce (kind.select variant), starts := starts }
  | .yield kind => { action := .yield (kind.select variant), starts := starts }

/-- The row of the table for where a token may start. -/
def tokenStarts : Option Byte → ScannerTransition
  | none => { action := .endOfSource, starts := true }
  | some b =>
    if b.isBlank then { action := .take }
    else if b.isNameStart then { action := .word, starts := true }
    else if b.isDecimalDigit then { action := .number, starts := true }
    else if b.isLineBreak then { action := .endStatement, next := .lineStart, starts := true }
    else if b = Byte.hash then { action := .take, next := .comment }
    else if b = Byte.backslash then { action := .take, next := .backslash, starts := true }
    else if b = Byte.semicolon then { action := .produce .endOfStatement, starts := true }
    else if b = Byte.dollar then { action := .parameter, starts := true }
    else if b = Byte.doubleQuote ∨ b = Byte.apostrophe then { action := .quoted b, starts := true }
    else
      match OperatorMove.ofFirst? b with
      | some move => ofMove 0 true move
      | none => { action := .unexpected }

/-- The row for the start of a line is the same but for what stands before a statement. -/
def lineStarts (b? : Option Byte) : ScannerTransition :=
  let usual := tokenStarts b?
  match b? with
  | none => usual
  | some b =>
    if b.isBlank then { usual with next := .lineStart }
    else if b.isLineBreak then { action := .lineBreak, next := .lineStart }
    else if b = Byte.hash then { usual with next := .lineStartComment }
    else if b = Byte.backslash then { usual with next := .lineStartBackslash }
    else if usual.action = .unexpected then { usual with next := .lineStart }
    else usual

/-- The table: what the byte under the cursor, or the end of the buffer, leads to in each mode. -/
def transition (mode : ScannerMode) (b? : Option Byte) : ScannerTransition :=
  match mode with
  | lineStart => lineStarts b?
  | normal => tokenStarts b?
  | lineStartComment =>
    match b? with
    | none => { action := .endOfSource, starts := true }
    | some b =>
      if b.isLineBreak then { action := .lineBreak, next := .lineStart }
      else { action := .take, next := .lineStartComment }
  | comment =>
    match b? with
    | none => { action := .endOfSource, starts := true }
    | some b =>
      if b.isLineBreak then { action := .endStatement, next := .lineStart, starts := true }
      else { action := .take, next := .comment }
  | lineStartBackslash =>
    if b?.any Byte.isLineBreak then { action := .lineBreak, next := .lineStart }
    else { action := .stray, next := .lineStart }
  | backslash =>
    if b?.any Byte.isLineBreak then { action := .lineBreak } else { action := .stray }
  | operator state variant => ofMove variant false (state.move b?)

/-- The mode behind something that should have become a token and did not. -/
def resumed (mode : ScannerMode) : ScannerMode :=
  if mode = lineStart then lineStart else normal

end ScannerMode

structure Scanner where
  file : UInt32
  cursor : Cursor
  /-- The next token is the first of its statement. -/
  opens : Bool
  /-- The number of the line under the cursor. -/
  nextLine : UInt32
  /-- The offset where that line starts. -/
  lineStart : Nat
  /-- The offset where the last token starts, with its line and its column. -/
  start : Nat
  line : UInt32
  column : UInt32
  /-- The offset where the last token ends. -/
  stop : Nat

namespace Session

def mapNames (s : Session) (change : NameTable → NameTable) : Session :=
  { s with names := change s.names }

/-- Turn the pending text into a name, if there is a number for it. -/
def internPending? (s : Session) : Option (Session × Name) :=
  s.names.internPending?.map fun (names, name) => ({ s with names := names }, name)

end Session

namespace Scanner

/-- Where a call has come to: another turn is to be taken, a token is complete, or no number is left
for a name, which is then still pending. -/
inductive Stage
  | again (session : Session) (scanner : Scanner) (mode : ScannerMode)
  | done (session : Session) (scanner : Scanner) (token : Token) (name? : Option Name)
  | refused (session : Session) (scanner : Scanner)

def ofBuffer (file : UInt32) (buffer : Buffer) : Scanner where
  file := file
  cursor := .ofBuffer buffer
  opens := true
  nextLine := 1
  lineStart := 0
  start := 0
  line := 1
  column := 1
  stop := 0

def rest (c : Scanner) : Bytes :=
  c.cursor.buffer.bytes.drop c.cursor.position

/-- The span of the last token. -/
def span (c : Scanner) : Span :=
  ⟨c.start, c.stop⟩

/-- Where the last token starts. -/
def location (c : Scanner) : Location :=
  ⟨c.file, c.line, c.column⟩

/-- The bytes of the last token. -/
def text (c : Scanner) : Except ScannerError Bytes :=
  if c.span.start ≤ c.cursor.buffer.size then
    .ok ((c.cursor.buffer.bytes.drop c.span.start).take c.span.length)
  else .error .textOutOfRange

def place (c : Scanner) : Except ScannerError Place :=
  c.text.map fun text => ⟨c.location, c.span, text⟩

/-- The mode in which a call starts. -/
def startMode (c : Scanner) : ScannerMode :=
  if c.opens then .lineStart else .normal

/-- The location of an offset in the line under the cursor. -/
def locationAt (c : Scanner) (offset : Nat) : Location :=
  ⟨c.file, c.nextLine, UInt32.ofNat (offset - c.lineStart + 1)⟩

/-- Move past the byte under the cursor, if there is one. -/
def advance (c : Scanner) : Scanner :=
  { c with cursor := c.cursor.advance }

/-- Move past the byte under the cursor if it is the given one, and tell whether it was. -/
def advanceIf (c : Scanner) (b : Byte) : Bool × Scanner :=
  let (moved, cursor) := c.cursor.advanceIf b
  (moved, { c with cursor := cursor })

/-- Move past so many bytes. -/
def advanceBy (c : Scanner) : Nat → Scanner
  | 0 => c
  | count + 1 => c.advance.advanceBy count

/-- Another line starts under the cursor. -/
def newLine (c : Scanner) : Scanner :=
  { c with nextLine := c.nextLine + 1, lineStart := c.cursor.position }

/-- Move past a carriage return, a line feed or both. -/
def passBreak (c : Scanner) : Scanner :=
  let isReturn := c.cursor.peek? = some Byte.carriageReturn
  let c := c.advance
  let c := if isReturn then (c.advanceIf Byte.lineFeed).2 else c
  c.newLine

/-- The token starts under the cursor. -/
def mark (c : Scanner) : Scanner :=
  { c with
    start := c.cursor.position
    line := c.nextLine
    column := (c.locationAt c.cursor.position).column }

/-- The token ends before the cursor. -/
def close (c : Scanner) (token : Token) : Scanner :=
  { c with stop := c.cursor.position, opens := token.kind = .endOfStatement }

def finish (c : Scanner) (s : Session) (token : Token) (name? : Option Name) : Stage :=
  .done s (c.close token) token name?

/-- Report a fault of the token as a whole. -/
def report (c : Scanner) (s : Session) (fault : Fault) : Session :=
  s.recordAll #[⟨c.location, fault⟩]

/-- Report a fault at an offset in the line under the cursor. -/
def reportAt (c : Scanner) (s : Session) (offset : Nat) (fault : Fault) : Session :=
  s.recordAll #[⟨c.locationAt offset, fault⟩]

/-- What comes of the scan of a number, with the cursor behind it. -/
def numbered (c : Scanner) (s : Session) (resume : ScannerMode) (scan : NumberScan) : Stage :=
  match scan.status with
  | .integer => c.finish s (.integer scan.literal) none
  | .float => c.finish s (.float scan.literal) none
  | .noDigits => .again (c.report s .numberWithoutDigits) c resume
  | .overflow | .exponentOverflow => .again (c.report s .numericOverflow) c resume
  | .malformed => .again (c.report s .malformedNumber) c resume

def number (c : Scanner) (s : Session) (resume : ScannerMode) (radix : Radix) :
    Except ScannerError Stage :=
  let (scan, reader) := c.cursor.reader.scanNumber radix
  match c.cursor.adopt reader with
  | .error error => .error (.cursor error)
  | .ok cursor => .ok (numbered { c with cursor := cursor } s resume scan)

/-- Move past the part of a name, given the bytes under the cursor, and append it to the pending
text. -/
def spell (c : Scanner) (s : Session) : Bytes → Session × Scanner
  | [] => (s, c)
  | b :: rest =>
    if b.isNamePart then
      c.advance.spell (s.mapNames fun names => names.pushPending [b]) rest
    else (s, c)

/-- The scope of a label, from what follows the first colon and the first byte of the name. -/
def labelScope (c : Scanner) (inner : Bool) : LabelScope × Scanner :=
  let (doubled, c) := c.advanceIf Byte.colon
  if doubled then (if inner then .hiddenLabel else .publicLabel, c)
  else
    let (questioned, c) := c.advanceIf Byte.question
    if questioned then (.weakLabel, c)
    else (if inner then .localLabel else .privateLabel, c)

/-- A name, with the cursor behind it, which may be a label where it is the first of a statement. -/
def named (c : Scanner) (s : Session) (begins : Bool) (name : Name) : Except ScannerError Stage :=
  let text := s.names.get name
  if !begins then .ok (c.finish s (.identifier text) (some name))
  else
    let (isLabel, c) := c.advanceIf Byte.colon
    if !isLabel then .ok (c.finish s (.identifier text) (some name))
    else
      match text.head? with
      | none => .error .emptyName
      | some first =>
        let (scope, c) := c.labelScope (first = Byte.dot)
        .ok (c.finish s (.label text scope) (some name))

/-- A name, or the base of a number before an apostrophe. -/
def word (c : Scanner) (s : Session) (mode : ScannerMode) : Except ScannerError Stage :=
  let (s, c) := c.spell (s.mapNames .clearPending) c.rest
  if c.cursor.peek? = some Byte.apostrophe then
    let specifier := s.names.pending
    let s := s.mapNames .clearPending
    let c := c.advance
    match Radix.ofSpecifier? specifier with
    | some radix => c.number s mode.resumed radix
    | none => .ok (.again (c.report s (.invalidSpecifier specifier)) c mode.resumed)
  else
    match s.internPending? with
    | some (s, name) => c.named s (mode = .lineStart) name
    | none => .ok (.refused s c)

def parameter (c : Scanner) (s : Session) : Stage :=
  let c := c.advance
  let (s, c) := c.spell (s.mapNames .clearPending) c.rest
  match s.internPending? with
  | some (s, name) =>
    let s := if name.isEmpty then c.report s .emptyParameter else s
    c.finish s (.parameter (s.names.get name)) (some name)
  | none => .refused s c

/-- What has been found of a literal behind its opening quote. -/
structure Inside where
  session : Session
  scanner : Scanner
  /-- A closing quote was found. -/
  closed : Bool
  /-- No escape is at fault. -/
  intact : Bool
  content : Bytes

/-- Move past a byte of a literal that stands for itself. A line feed behind a carriage return counts
no further line. -/
def passVerbatim (c : Scanner) (b : Byte) (afterReturn : Bool) : Scanner :=
  let isReturn := b = Byte.carriageReturn
  let isFeed := b = Byte.lineFeed
  let c := c.advance
  let c := if isReturn ∨ isFeed ∧ !afterReturn then { c with nextLine := c.nextLine + 1 } else c
  if isReturn ∨ isFeed then { c with lineStart := c.cursor.position } else c

/-- Move to the end of a literal, given the bytes under the cursor. -/
def inside (quote : Byte) (c : Scanner) (s : Session) (afterReturn intact : Bool)
    (content : Bytes) : Bytes → Inside
  | [] => ⟨s, c, false, intact, content⟩
  | b :: rest =>
    if b = quote then ⟨s, c.advance, true, intact, content⟩
    else if b = Byte.backslash then
      let c := c.advance
      let escape := Escape.scan rest
      let behind := rest.drop escape.length
      match escape.outcome with
      | .ok meant =>
        inside quote (c.advanceBy escape.length) s false intact (content ++ meant) behind
      | .error finding =>
        let s := c.reportAt s (c.cursor.position + finding.offset) finding.fault
        inside quote (c.advanceBy escape.length) s false false content behind
    else
      inside quote (c.passVerbatim b afterReturn) s (b = Byte.carriageReturn) intact
        (content ++ [b]) rest
termination_by bytes => bytes.length

def quoted (c : Scanner) (s : Session) (resume : ScannerMode) (quote : Byte) : Stage :=
  let c := c.advance
  let ⟨s, c, closed, intact, content⟩ := inside quote c s false true [] c.rest
  if !closed then .again (c.report s .unterminatedLiteral) c resume
  else if !intact then .again s c resume
  else if quote = Byte.doubleQuote then c.finish s (.string content) none
  else
    match Quoted.character content with
    | .ok value => c.finish s (.character value content) none
    | .error fault => .again (c.report s fault) c resume

/-- Do what the table says about the byte under the cursor. -/
def turn (c : Scanner) (s : Session) (mode : ScannerMode) : Except ScannerError Stage :=
  let transition := mode.transition c.cursor.peek?
  let c := if transition.starts then c.mark else c
  match transition.action with
  | .take => .ok (.again s c.advance transition.next)
  | .produce kind => .ok (c.advance.finish s (.symbol kind) none)
  | .yield kind => .ok (c.finish s (.symbol kind) none)
  | .lineBreak => .ok (.again s c.passBreak transition.next)
  | .endStatement => .ok (c.passBreak.finish s (.symbol .endOfStatement) none)
  | .number => c.number s mode.resumed .decimal
  | .quoted quote => .ok (c.quoted s mode.resumed quote)
  | .word => c.word s mode
  | .parameter => .ok (c.parameter s)
  | .unexpected =>
    .ok (.again (c.reportAt s c.cursor.position .unexpectedCharacter) c.advance transition.next)
  | .stray => .ok (.again (c.report s .strayBackslash) c transition.next)
  | .endOfSource => .ok (c.finish s (.symbol .endOfSource) none)

/-- Take a turn unless the call is at its end. -/
def Stage.step : Stage → Except ScannerError Stage
  | .again s c mode => c.turn s mode
  | .done s c token name? => .ok (.done s c token name?)
  | .refused s c => .ok (.refused s c)

def Stage.steps (stage : Stage) : Nat → Except ScannerError Stage
  | 0 => .ok stage
  | count + 1 => do
    let next ← stage.step
    next.steps count

def Stage.session : Stage → Session
  | .again s _ _ => s
  | .done s _ _ _ => s
  | .refused s _ => s

def Stage.scanner : Stage → Scanner
  | .again _ c _ => c
  | .done _ c _ _ => c
  | .refused _ c => c

/-- A call takes turns until a token is complete. Each turn takes a byte, but for one that leaves a
byte to the next turn and the one that completes the token, so that the given number is enough. -/
def next (c : Scanner) (s : Session) : Except ScannerError Stage :=
  (Stage.again s c c.startMode).steps (2 * c.rest.length + 1)

/-- The scanner after so many calls, each in a session of its own. -/
def afterCalls (c : Scanner) (sessions : Nat → Session) : Nat → Except ScannerError Scanner
  | 0 => .ok c
  | n + 1 => do
    let c ← c.afterCalls sessions n
    let stage ← c.next (sessions n)
    return stage.scanner

end Scanner

end AssemblyLexer
