import AssemblyLexer.Name.Predefined

/-!
Histories of a table of names: operations one after another. Which texts they
intern, and what they leave pending, is known without any table.
-/

set_option autoImplicit false

namespace AssemblyLexer

inductive NameOperation
  | add (text : Bytes)
  | intern (text : Bytes)
  | find (text : Bytes)
  | get (name : Name)
  | contains (text : Bytes)
  | pushPending (text : Bytes)
  | pushPendingCode (code : Nat)
  | clearPending
  | internPending
  deriving DecidableEq, Repr

namespace NameOperation

/-- The text that the operation interns, given the pending text. -/
def interned? (pending : Bytes) : NameOperation → Option Bytes
  | add text => some text
  | intern text => some text
  | internPending => some pending
  | _ => none

def pendingAfter (pending : Bytes) : NameOperation → Bytes
  | pushPending text => pending ++ text
  | pushPendingCode code => pending ++ ((Utf8.scalar? code).map Utf8.encode).getD []
  | clearPending => []
  | internPending => []
  | _ => pending

/-- The texts that operations intern one after another, repetitions included. -/
def internedAll (pending : Bytes) : List NameOperation → List Bytes
  | [] => []
  | operation :: later =>
    (operation.interned? pending).toList ++ internedAll (operation.pendingAfter pending) later

def pendingAfterAll (pending : Bytes) (history : List NameOperation) : Bytes :=
  history.foldl pendingAfter pending

/-- The operations that fill an empty table with the predefined names. -/
def predefining : List NameOperation :=
  predefinedNames.map fun name => add (Utf8.ofString name)

end NameOperation

namespace NameTable

/-- The texts of the names, in the order of their numbers. -/
def texts (t : NameTable) : List Bytes :=
  t.entries.map NameEntry.text

/-- What an operation leaves of the table. -/
def apply (t : NameTable) : NameOperation → NameTable
  | .add text => (t.add text).1
  | .intern text => (t.intern text).1
  | .find _ => t
  | .get _ => t
  | .contains _ => t
  | .pushPending text => t.pushPending text
  | .pushPendingCode code => t.pushPendingCode code
  | .clearPending => t.clearPending
  | .internPending => t.internPending.1

def after (t : NameTable) (history : List NameOperation) : NameTable :=
  history.foldl apply t

/-- Write a text down unless it has been written down before. -/
def enter (texts : List Bytes) (text : Bytes) : List Bytes :=
  if text ∈ texts then texts else texts ++ [text]

end NameTable

end AssemblyLexer
