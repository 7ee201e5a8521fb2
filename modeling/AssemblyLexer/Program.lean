import AssemblyLexer.CommandLine
import AssemblyLexer.Scanner

/-!
The program in place, with everything that could break it off. A scanner goes
through the loaded source call by call, in a session of its own; where a call
fails, or a recording, or the text of a token, nothing catches the failure.
-/

set_option autoImplicit false

namespace AssemblyLexer

/-- What breaks the program off. -/
inductive Abort
  | scanner (error : ScannerError)
  | recording (error : RecordingError)
  /-- A call does not come to an end, or the calls do not. -/
  | endless
  /-- A predefined name does not get the number that it should have. -/
  | namesOutOfOrder
  /-- No number is left for a name. -/
  | namesExhausted
  /-- A token that is replayed starts behind the end of the source. -/
  | textOutOfRange
  deriving DecidableEq, Repr

namespace Scanner

/-- Call the scanner once. -/
def call (c : Scanner) (s : Session) : Except Abort (Session × Scanner × Token) :=
  match c.next s with
  | .error error => .error (.scanner error)
  | .ok (.again ..) => .error .endless
  | .ok (.refused ..) => .error .namesExhausted
  | .ok (.done s c token _) => .ok (s, c, token)

/-- Call the scanner up to the end of the source, at most so many times, and see to each token before
the next call. -/
def callAll {State : Type} (visit : State → Scanner → Token → Except Abort State) (c : Scanner)
    (s : Session) (state : State) : Nat → Except Abort (Session × State)
  | 0 => .error .endless
  | count + 1 => do
    let (s, c, token) ← c.call s
    let state ← visit state c token
    if token.kind = .endOfSource then return (s, state)
    callAll visit c s state count

/-- Put the row of the last token below the others. -/
def list (rows : List Row) (c : Scanner) (token : Token) : Except Abort (List Row) :=
  match c.place with
  | .error error => .error (.scanner error)
  | .ok place => .ok (rows ++ [.ofScanned ⟨token, place, #[], false⟩])

/-- Record the last token, which asks for no text. -/
def record (recording : Recording) (c : Scanner) (token : Token) : Except Abort Recording :=
  let recorded : RecordedToken := {
    kind := token.kind
    line := c.line
    start := UInt64.ofNat c.span.start
    stop := UInt64.ofNat c.span.stop }
  (recording.push recorded).mapError .recording

end Scanner

/-- The row of a token that is replayed, if its text can be taken from the source. -/
def Row.replayed (source : Array Byte) (t : RecordedToken) : Except Abort Row :=
  if t.start.toNat ≤ source.size then .ok (.ofRecorded source t) else .error .textOutOfRange

/-- The table of a source in place, with the session that is left behind it. -/
def Session.dumpInPlace (s : Session) (options : DumpOptions) (path source : Bytes) (file : UInt32) :
    Except Abort (Session × Bytes) := do
  let scanner := Scanner.ofBuffer file ⟨0, source⟩
  let calls := source.length + 1
  let render := Table.render options.trace path
  if options.memoize then
    let (s, recording) ← Scanner.callAll Scanner.record scanner s (.ofOrigin 1 0) calls
    let replayed ← recording.replay.run.mapError .recording
    let rows ← replayed.toList.mapM (Row.replayed source.toArray)
    return (s, render rows)
  else
    let (s, rows) ← Scanner.callAll Scanner.list scanner s [] calls
    return (s, render rows)

namespace CommandLine

def dumpInPlace (c : CommandLine) (source : LoadedSource) (registry : Registry) :
    Except Abort Outcome := do
  let registry := registry.setContents source.id source.contents
  let session := { Session.initial with registry := registry }
  let (session, output) ← session.dumpInPlace c.options c.source source.contents source.id
  return {
    status := if session.log.errors = 0 then 0 else 1
    output := output
    errors := session.log.render session.registry.path }

def executeInPlace (c : CommandLine) (input : Bytes) (find : Bytes → Found) :
    Except Abort Outcome :=
  if NameTable.predefined.count ≠ predefinedNames.length then .error .namesOutOfOrder
  else
    match c.load input find .empty with
    | (registry, .ok source) => c.dumpInPlace source registry
    | (_, .error e) => .ok ⟨1, [], e.diagnostic.render []⟩

/-- Run the program in place. -/
def runInPlace (arguments : List Bytes) (input : Bytes) (find : Bytes → Found) :
    Except Abort Outcome :=
  match parse? arguments with
  | some c => c.executeInPlace input find
  | none => .ok ⟨1, [], usage⟩

end CommandLine

end AssemblyLexer
