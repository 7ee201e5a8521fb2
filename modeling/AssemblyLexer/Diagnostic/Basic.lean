import AssemblyLexer.Position
import AssemblyLexer.Text.Numeral
import AssemblyLexer.Text.Utf8

/-!
Diagnostics and how they are printed: whatever is known of the location, then
the severity and the message, on a line of their own.
-/

set_option autoImplicit false

namespace AssemblyLexer

inductive Severity
  | note
  | warning
  | error
  deriving DecidableEq, Repr

def Severity.spelling : Severity → String
  | note => "note"
  | warning => "warning"
  | error => "error"

structure Diagnostic where
  severity : Severity
  message : Bytes
  location : Location
  deriving DecidableEq

/-- A location names a file. -/
def Location.isKnown (l : Location) : Bool :=
  l.file != 0

/-- Line and column, without the parts that are not known. -/
def Location.render (l : Location) : Bytes :=
  if l.line = 0 then []
  else if l.column = 0 then Numeral.decimal l.line.toNat
  else Numeral.decimal l.line.toNat ++ Byte.colon :: Numeral.decimal l.column.toNat

namespace Diagnostic

/-- The path of the file, where there is one, with line and column behind it. -/
def renderPlace (path : Bytes) (location : Location) : Bytes :=
  let inFile := location.render
  if path.isEmpty then inFile
  else if inFile.isEmpty then path
  else path ++ Byte.colon :: inFile

/-- The line that reports a diagnostic in the file with the given path. An empty path stands for
a file that is not known. -/
def render (path : Bytes) (d : Diagnostic) : Bytes :=
  let place := renderPlace path d.location
  (if place.isEmpty then [] else place ++ [Byte.colon, Byte.space]) ++
    Utf8.ofString d.severity.spelling ++ [Byte.colon, Byte.space] ++
    d.message ++ [Byte.lineFeed]

end Diagnostic

end AssemblyLexer
