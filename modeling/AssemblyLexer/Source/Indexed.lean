import AssemblyLexer.Source.Loader

/-!
Registries in place. What is known of the files stands in the order of their registration, their
numbers are found by path, and the next number is counted apart from both.
-/

set_option autoImplicit false

namespace AssemblyLexer

structure FileEntry where
  path : Bytes
  contents : Bytes
  deriving DecidableEq, Repr

structure IndexedRegistry where
  entries : List FileEntry
  /-- The number of each path in normal form. -/
  numbers : List (Bytes × UInt32)
  nextId : UInt64
  deriving DecidableEq, Repr

/-- What comes of registering a path. -/
structure Registration where
  id : UInt32
  /-- What is told to the user. -/
  reported : List Diagnostic
  registry : IndexedRegistry

inductive RegistryOperation
  | register (path : Bytes)
  | setContents (id : UInt32) (contents : Bytes)
  deriving DecidableEq, Repr

namespace RegistryOperation

/-- The path that the operation registers. -/
def path? : RegistryOperation → Option Bytes
  | register path => some path
  | setContents _ _ => none

/-- The normal forms of the paths that a history registers, each where it first comes. -/
def registered (normalize : Bytes → Bytes) (history : List RegistryOperation) : List Bytes :=
  ((history.filterMap path?).map normalize).eraseDups

end RegistryOperation

namespace IndexedRegistry

def empty : IndexedRegistry := ⟨[], [], 1⟩

def fileCount (r : IndexedRegistry) : Nat :=
  r.entries.length

/-- The number of a path in normal form. -/
def number? (r : IndexedRegistry) (path : Bytes) : Option UInt32 :=
  r.numbers.lookup path

/-- Find the number of a path or give it the next one. A new path has the number zero once all numbers
have been given. -/
def register (normalize : Bytes → Bytes) (r : IndexedRegistry) (path : Bytes) : Registration :=
  let path := normalize path
  match r.number? path with
  | some id => ⟨id, [], r⟩
  | none =>
    if 0xFFFFFFFF < r.nextId then ⟨0, [LoadError.noIdentifier.diagnostic], r⟩
    else
      let id := r.nextId.toUInt32
      ⟨id, [], ⟨r.entries ++ [⟨path, []⟩], (path, id) :: r.numbers, r.nextId + 1⟩⟩

/-- The place of a file among the entries. -/
def place? (r : IndexedRegistry) (id : UInt32) : Option Nat :=
  if id = 0 ∨ r.entries.length < id.toNat then none else some (id.toNat - 1)

def file? (r : IndexedRegistry) (id : UInt32) : Option FileEntry := do
  r.entries[← r.place? id]?

def path (r : IndexedRegistry) (id : UInt32) : Bytes :=
  ((r.file? id).map FileEntry.path).getD []

def contents (r : IndexedRegistry) (id : UInt32) : Bytes :=
  ((r.file? id).map FileEntry.contents).getD []

/-- Replace the contents of a file and give them back. Nothing happens for an unknown one. -/
def setContents (r : IndexedRegistry) (id : UInt32) (contents : Bytes) : Bytes × IndexedRegistry :=
  match r.place? id with
  | some place =>
    (contents, { r with
      entries := r.entries.modify place fun entry => { entry with contents := contents } })
  | none => ([], r)

def apply (normalize : Bytes → Bytes) (r : IndexedRegistry) : RegistryOperation → IndexedRegistry
  | .register path => (r.register normalize path).registry
  | .setContents id contents => (r.setContents id contents).2

def after (normalize : Bytes → Bytes) (r : IndexedRegistry) (history : List RegistryOperation) :
    IndexedRegistry :=
  history.foldl (apply normalize) r

end IndexedRegistry

namespace Registry

/-- The registry after an operation. It stays as it is when no number is left. -/
def apply (r : Registry) : RegistryOperation → Registry
  | .register path => ((r.register? path).map Prod.snd).getD r
  | .setContents id contents => r.setContents id contents

def after (r : Registry) (history : List RegistryOperation) : Registry :=
  history.foldl apply r

end Registry

end AssemblyLexer
