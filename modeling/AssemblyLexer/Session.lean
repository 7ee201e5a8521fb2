import AssemblyLexer.Diagnostic.Log
import AssemblyLexer.Lexer
import AssemblyLexer.Name.Predefined
import AssemblyLexer.Source.Loader

/-!
A session is what any number of lexers share: the names, the log and the
registry of sources. A lexer's step is first taken by itself and then absorbed,
which gives its name a number and puts its reports into the log.
-/

set_option autoImplicit false

namespace AssemblyLexer

structure Session where
  names : NameTable
  log : Log
  registry : Registry

def Report.diagnostic (r : Report) : Diagnostic :=
  ⟨.error, r.fault.message, r.location⟩

namespace Session

def initial : Session where
  names := .predefined
  log := .empty
  registry := .empty

def record (s : Session) (d : Diagnostic) : Session :=
  { s with log := s.log.record d }

def recordAll (s : Session) (reports : Array Report) : Session :=
  { s with log := reports.foldl (fun log report => log.record report.diagnostic) s.log }

/-- Names are spelled out in the pending text of the table, which is empty afterwards. -/
def internName (s : Session) (scanned : Scanned) : Session × Option Name :=
  let names := if scanned.spelledName then s.names.clearPending else s.names
  match scanned.token.name? with
  | some text =>
    let (names, name) := names.add text
    ({ s with names := names }, some name)
  | none => ({ s with names := names }, none)

/-- The session after a step of a lexer, and the name of its token. -/
def absorb (s : Session) (scanned : Scanned) : Session × Option Name :=
  (s.recordAll scanned.reports).internName scanned

def absorbAll (s : Session) (all : Array Scanned) : Session :=
  all.foldl (fun s scanned => (s.absorb scanned).1) s

/-- The next token of a lexer, with its name. -/
def next (s : Session) (lexer : Lexer) : Session × Lexer × Scanned × Option Name :=
  let (scanned, lexer) := lexer.next
  let (s, name) := s.absorb scanned
  (s, lexer, scanned, name)

/-- Register a path. When no number is left the answer is zero and a complaint to be printed. -/
def addFile (s : Session) (path : Bytes) : Session × UInt32 × Bytes :=
  match s.registry.register? path with
  | some (id, registry) => ({ s with registry := registry }, id, [])
  | none => (s, 0, LoadError.noIdentifier.diagnostic.render [])

end Session

end AssemblyLexer
