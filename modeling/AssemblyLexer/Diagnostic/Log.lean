import AssemblyLexer.Diagnostic.Basic

/-!
The diagnostics of a session in the order of their arrival, with running counts
of errors and warnings.
-/

set_option autoImplicit false

namespace AssemblyLexer

structure Log where
  entries : Array Diagnostic
  errors : Nat
  warnings : Nat

namespace Log

def empty : Log := ⟨#[], 0, 0⟩

/-- Notes are kept but not counted. -/
def record (log : Log) (d : Diagnostic) : Log where
  entries := log.entries.push d
  errors := if d.severity = .error then log.errors + 1 else log.errors
  warnings := if d.severity = .warning then log.warnings + 1 else log.warnings

/-- All diagnostics, each with the path that its file has. -/
def render (log : Log) (pathOf : UInt32 → Bytes) : Bytes :=
  log.entries.toList.flatMap fun d => d.render (pathOf d.location.file)

end Log

end AssemblyLexer
