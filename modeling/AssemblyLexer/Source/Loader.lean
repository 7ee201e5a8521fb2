import AssemblyLexer.Diagnostic.Basic
import AssemblyLexer.Source.Registry

/-!
Loading sources: what a path leads to is read whole and its name registered.
-/

set_option autoImplicit false

namespace AssemblyLexer

/-- What a path leads to. -/
inductive Found
  | nothing
  | directory
  | file (contents : Bytes)

inductive LoadError
  | unableToOpen (path : Bytes)
  | tooLarge (name : Bytes)
  | noIdentifier
  deriving DecidableEq, Repr

namespace LoadError

def message : LoadError → Bytes
  | unableToOpen path => Utf8.ofString "unable to open " ++ path
  | tooLarge name => Utf8.ofString "source file too large: " ++ name ++
      Utf8.ofString " (limit: 256 MB)"
  | noIdentifier => Utf8.ofString "source manager exhausted file identifier space"

def diagnostic (e : LoadError) : Diagnostic :=
  ⟨.error, e.message, .unknown⟩

end LoadError

/-- A source that has been read and has a number. -/
structure LoadedSource where
  id : UInt32
  contents : Bytes

namespace Registry

/-- The greatest size of a source. -/
def sizeLimit : Nat := 256 * 1024 * 1024

/-- Register a source under its name. Zero is the number of no file, so a source that gets it is
not loaded, but its path stays in the registry. -/
def load (r : Registry) (name contents : Bytes) : Registry × Except LoadError LoadedSource :=
  if sizeLimit < contents.length then (r, .error (.tooLarge name))
  else
    match r.register? name with
    | some (id, r) => (r, if id = 0 then .error .noIdentifier else .ok ⟨id, contents⟩)
    | none => (r, .error .noIdentifier)

/-- A directory can be opened but has no size that could be read. -/
def loadFound (r : Registry) (path : Bytes) :
    Found → Registry × Except LoadError LoadedSource
  | .nothing => (r, .error (.unableToOpen path))
  | .directory => (r, .error (.tooLarge path))
  | .file contents => r.load path contents

end Registry

end AssemblyLexer
