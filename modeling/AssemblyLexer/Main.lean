import AssemblyLexer.CommandLine

/-!
The program itself: arguments, standard input and files are read here, and what
a run leaves behind is written out.
-/

set_option autoImplicit false

namespace AssemblyLexer

/-- What a path leads to on disk. A directory can be opened but not read. -/
def findOnDisk (path : String) : IO Found := do
  match ← (IO.FS.Handle.mk path .read).toBaseIO with
  | .error _ => return .nothing
  | .ok handle =>
    match ← handle.readBinToEnd.toBaseIO with
    | .error _ => return .directory
    | .ok contents => return .file contents.toList

def write (stream : IO.FS.Stream) (bytes : Bytes) : IO Unit := do
  stream.write ⟨bytes.toArray⟩
  stream.flush

def readInput : IO Bytes := do
  let stream ← IO.getStdin
  let mut bytes := #[]
  repeat
    let block ← stream.read 65536
    if block.isEmpty then break
    bytes := bytes ++ block.data
  return bytes.toList

/-- Only what the arguments ask for is read: standard input or the file that they name. -/
def execute (arguments : List String) : IO Outcome := do
  let arguments := arguments.map Utf8.ofString
  match CommandLine.parse? arguments with
  | none => return CommandLine.run arguments [] fun _ => .nothing
  | some command =>
    if command.source = CommandLine.dash then
      return CommandLine.run arguments (← readInput) fun _ => .nothing
    else
      let path := String.fromUTF8? ⟨command.source.toArray⟩
      let found ← findOnDisk (path.getD "")
      return CommandLine.run arguments [] fun _ => found

end AssemblyLexer

def main (arguments : List String) : IO UInt32 := do
  let outcome ← AssemblyLexer.execute arguments
  AssemblyLexer.write (← IO.getStdout) outcome.output
  AssemblyLexer.write (← IO.getStderr) outcome.errors
  return outcome.status.toUInt32
