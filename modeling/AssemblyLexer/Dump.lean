import AssemblyLexer.Dump.Table
import AssemblyLexer.Session

/-!
Dumping a source as a table of its tokens, either directly or by way of a
recording of them.
-/

set_option autoImplicit false

namespace AssemblyLexer

structure DumpOptions where
  /-- Show the text of each token. -/
  trace : Bool
  /-- Record the tokens and show what the recording replays. -/
  memoize : Bool
  deriving DecidableEq, Repr

namespace Dump

def directRows (all : Array Scanned) : List Row :=
  all.toList.map Row.ofScanned

/-- The rows of the tokens that a recording replays. -/
def replayedRows (source : Bytes) (recording : Recording) : Except RecordingError (List Row) := do
  let tokens ← recording.replay.run
  let bytes := source.toArray
  return tokens.toList.map (Row.ofRecorded bytes)

end Dump

namespace Session

/-- Absorb the steps of a lexer up to the end of the source and record the token of each before the
next one is taken. A token that the recording refuses is the last. -/
def recordFrom (s : Session) (lexer : Lexer) (recording : Recording) :
    Session × Except RecordingError Recording :=
  let step := lexer.next
  let after := (s.absorb step.1).1
  match recording.push step.1.recorded with
  | .error error => (after, .error error)
  | .ok recording =>
    if _h : step.1.token = .symbol .endOfSource then (after, .ok recording)
    else after.recordFrom step.2 recording
termination_by lexer.rest.length
decreasing_by exact (Lexer.scanFrom_rest_length lexer #[] false).resolve_left _h

/-- The table of a source, with the session that has absorbed its tokens. -/
def dump (s : Session) (options : DumpOptions) (path source : Bytes) (file : UInt32) :
    Session × Except RecordingError Bytes :=
  let lexer := Lexer.ofSource file source
  let render := Table.render options.trace path
  if options.memoize then
    let (after, recorded) := s.recordFrom lexer (.ofOrigin 1 0)
    (after, (recorded.bind (Dump.replayedRows source)).map render)
  else
    let all := lexer.run.1
    (s.absorbAll all, .ok (render (Dump.directRows all)))

end Session

end AssemblyLexer
