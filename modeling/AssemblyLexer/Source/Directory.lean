import AssemblyLexer.Source.Loader

/-!
A directory held in memory, as the files below it with their paths. It answers
what a path leads to: every component but the last must be a directory,
also where a later step to the parent takes it back.
-/

set_option autoImplicit false

namespace AssemblyLexer

structure Directory where
  /-- The components of the path of each file, with its contents. -/
  files : List (List Bytes × Bytes)

namespace Directory

def ofFiles (files : List (Bytes × Bytes)) : Directory :=
  ⟨files.map fun (path, contents) => (Path.components path, contents)⟩

def isDirectory (d : Directory) (place : List Bytes) : Bool :=
  place.isEmpty || d.files.any fun (path, _) => place.isPrefixOf path && place != path

/-- Where components lead from outside the directory. Of what is there only the parents are known,
which are directories. -/
def walkOutside (components : List Bytes) : Found :=
  if components.all fun c => c = [] || c = Path.current || c = Path.parent then .directory
  else .nothing

/-- What stands at a place in the directory. -/
def lookup (d : Directory) (place : List Bytes) : Found :=
  match d.files.lookup place with
  | some contents => .file contents
  | none => if d.isDirectory place then .directory else .nothing

/-- Where the components lead from a place in the directory. -/
def walk (d : Directory) (place : List Bytes) : List Bytes → Found
  | [] => d.lookup place
  | component :: rest =>
    if !d.isDirectory place then .nothing
    else if component = [] ∨ component = Path.current then d.walk place rest
    else if component = Path.parent then
      if place.isEmpty then walkOutside rest else d.walk place.dropLast rest
    else d.walk (place ++ [component]) rest

def find (d : Directory) (path : Bytes) : Found :=
  if path.isEmpty then .nothing
  else if path.head? = some Byte.slash then walkOutside (Path.components path)
  else d.walk [] (Path.components path)

end Directory

end AssemblyLexer
