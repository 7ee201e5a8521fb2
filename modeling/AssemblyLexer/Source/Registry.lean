import AssemblyLexer.Source.Path

/-!
The registry of source files. A file gets its number when its path, in normal
form, is first registered; zero is the number of no file. What is known of a
file is found under its place in the registry, which is its number for as long
as numbers are given in sequence.
-/

set_option autoImplicit false

namespace AssemblyLexer

structure SourceFile where
  path : Bytes
  id : UInt32
  contents : Bytes

structure Registry where
  files : List SourceFile
  nextId : Nat

namespace Registry

def empty : Registry := ⟨[], 1⟩

/-- The greatest number of a file. -/
def greatestId : Nat := UInt32.size - 1

def fileCount (r : Registry) : Nat :=
  r.files.length

/-- The number of a path, with the registry that knows it. There is none for a new path once all
numbers have been given. -/
def register? (r : Registry) (path : Bytes) : Option (UInt32 × Registry) :=
  let path := Path.normalize path
  match r.files.find? fun file => file.path == path with
  | some file => some (file.id, r)
  | none =>
    if greatestId < r.nextId then none
    else
      let id := UInt32.ofNat r.nextId
      some (id, ⟨r.files ++ [⟨path, id, []⟩], r.nextId + 1⟩)

/-- The place of a file in the registry. -/
def place? (r : Registry) (id : UInt32) : Option Nat :=
  if id = 0 ∨ r.files.length < id.toNat then none else some (id.toNat - 1)

def file? (r : Registry) (id : UInt32) : Option SourceFile := do
  r.files[← r.place? id]?

/-- The path of a file, which is empty for an unknown one. -/
def path (r : Registry) (id : UInt32) : Bytes :=
  match r.file? id with
  | some file => file.path
  | none => []

/-- The contents of a file, which are empty for an unknown one. -/
def contents (r : Registry) (id : UInt32) : Bytes :=
  match r.file? id with
  | some file => file.contents
  | none => []

/-- Replace the contents of a file. Nothing happens for an unknown one. -/
def setContents (r : Registry) (id : UInt32) (contents : Bytes) : Registry :=
  match r.place? id with
  | some place =>
    { r with files := r.files.modify place fun file => { file with contents := contents } }
  | none => r

end Registry

end AssemblyLexer
