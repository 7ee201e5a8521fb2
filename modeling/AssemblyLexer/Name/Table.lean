import AssemblyLexer.Name.Storage
import AssemblyLexer.Text.Utf8

/-!
The table of names. A name is the number of its text in order of first arrival,
and the empty text has number zero in every table. Texts are found through an
index of their own. Beside the names the table keeps a pending text, which is
built up piece by piece and then turned into a name.
-/

set_option autoImplicit false

namespace AssemblyLexer

structure Name where
  index : Nat
  deriving DecidableEq, Repr

def Name.empty : Name := ⟨0⟩

def Name.isEmpty (n : Name) : Bool :=
  n = Name.empty

/-- A text with the place where it is stored. The empty text takes no place. -/
structure NameEntry where
  text : Bytes
  placement? : Option Placement
  deriving DecidableEq

structure NameTable where
  /-- The names in the order of their numbers. -/
  entries : List NameEntry
  /-- The names by their texts. -/
  index : List (Bytes × Name)
  storage : Storage
  pending : Bytes

namespace NameTable

def empty : NameTable where
  entries := [⟨[], none⟩]
  index := [([], .empty)]
  storage := .empty
  pending := []

def count (t : NameTable) : Nat :=
  t.entries.length

/-- The number of bytes that the names take. -/
def size (t : NameTable) : Nat :=
  t.storage.size

def arenaCount (t : NameTable) : Nat :=
  t.storage.chunkCount

def find? (t : NameTable) (text : Bytes) : Option Name :=
  (t.index.find? fun entry => entry.1 == text).map Prod.snd

def contains (t : NameTable) (text : Bytes) : Bool :=
  (t.find? text).isSome

/-- The text of a name, which is empty for a name that was never issued. -/
def get (t : NameTable) (name : Name) : Bytes :=
  match t.entries[name.index]? with
  | some entry => entry.text
  | none => []

/-- The number of names that there can be. Their numbers have 32 bits, and the last is not given. -/
def limit : Nat := UInt32.size - 1

/-- No number is left. -/
def isFull (t : NameTable) : Bool :=
  limit ≤ t.count

/-- Store a text that the table does not have, and enter it in the index under the next number. -/
def insert (t : NameTable) (text : Bytes) : NameTable × Name :=
  let (storage, placement) := t.storage.store text
  let name : Name := ⟨t.count⟩
  ({ t with
      entries := t.entries ++ [⟨text, some placement⟩]
      index := t.index ++ [(text, name)]
      storage := storage },
    name)

/-- The name of a text, which is new only if the text is. There is none for a new text when no number
is left. -/
def add? (t : NameTable) (text : Bytes) : Option (NameTable × Name) :=
  match t.find? text with
  | some name => some (t, name)
  | none => if t.isFull then none else some (t.insert text)

/-- The name of a text as long as numbers are left. -/
def add (t : NameTable) (text : Bytes) : NameTable × Name :=
  match t.find? text with
  | some name => (t, name)
  | none => t.insert text

/-- Another word for adding. -/
def intern (t : NameTable) (text : Bytes) : NameTable × Name :=
  t.add text

def addAll (t : NameTable) (texts : List Bytes) : NameTable :=
  texts.foldl (fun t text => (t.add text).1) t

def pushPending (t : NameTable) (text : Bytes) : NameTable :=
  { t with pending := t.pending ++ text }

/-- Append a character by its code. A code that is no scalar value is ignored. -/
def pushPendingCode (t : NameTable) (code : Nat) : NameTable :=
  match Utf8.scalar? code with
  | some c => t.pushPending (Utf8.encode c)
  | none => t

def clearPending (t : NameTable) : NameTable :=
  { t with pending := [] }

/-- Turn the pending text into a name. It is dropped if it has one already, and stays pending if no
number is left for it. -/
def internPending? (t : NameTable) : Option (NameTable × Name) :=
  match t.find? t.pending with
  | some name => some (t.clearPending, name)
  | none => (t.add? t.pending).map fun (t, name) => (t.clearPending, name)

/-- Turn the pending text into a name as long as numbers are left. -/
def internPending (t : NameTable) : NameTable × Name :=
  match t.find? t.pending with
  | some name => (t.clearPending, name)
  | none =>
    let (t, name) := t.add t.pending
    (t.clearPending, name)

end NameTable

end AssemblyLexer
