import AssemblyLexer.Proofs.NameGrowth
import AssemblyLexer.Proofs.Piece
import AssemblyLexer.Scanner

/-!
What absorbing a step leaves in a session, piece by piece: each piece clears the
pending text if it spells out a name and reports its faults, and then the token
gets its name.
-/

set_option autoImplicit false

namespace AssemblyLexer

/-- Segments of the form spell out a name. -/
def SegmentForm.spells (form : SegmentForm) : Bool :=
  form = .word || form = .parameter

namespace Session

def clearWhen (s : Session) (spelled : Bool) : Session :=
  if spelled then s.mapNames .clearPending else s

/-- The session behind a piece, apart from the name of its token. -/
def afterPiece (file : UInt32) (s : Session) (piece : Piece) : Session :=
  (s.clearWhen piece.segment.spellsName).recordAll (piece.reports file).toArray

/-- The session with the name of a token. -/
def give (s : Session) (token : Token) : Session × Option Name :=
  match token.name? with
  | some text => ({ s with names := (s.names.add text).1 }, some (s.names.add text).2)
  | none => (s, none)

/-- No number is left for the name of the token. -/
def Refuses (s : Session) (token : Token) : Prop :=
  ∃ text ∈ token.name?, s.names.Refuses text

instance (s : Session) (token : Token) : Decidable (s.Refuses token) :=
  inferInstanceAs (Decidable (∃ text ∈ token.name?, s.names.Refuses text))

/-- The session in which a name has been spelled out. -/
def spelling (s : Session) (text : Bytes) : Session :=
  s.mapNames fun names => names.clearPending.pushPending text

/-- Spelling out a text and turning it into a name is the same as adding it to a table whose
pending text is empty, unless the table refuses it. -/
theorem internPending?_spelling (s : Session) (text : Bytes) :
    (s.spelling text).internPending? =
      if s.names.Refuses text then none
      else some ({ s with names := (s.names.clearPending.add text).1 },
        (s.names.clearPending.add text).2) := by
  have pending_eq : (s.names.clearPending.pushPending text).pending = text := List.nil_append text
  have refuses_iff : (s.names.clearPending.pushPending text).Refuses text ↔ s.names.Refuses text := Iff.rfl
  rw [internPending?, spelling]
  dsimp only [mapNames]
  rw [NameTable.internPending?_eq, pending_eq, NameTable.internPending_pushPending]
  simp only [refuses_iff]
  split <;> rfl

theorem give_spelled (s : Session) {token : Token} {text : Bytes} (named : token.name? = some text) :
    (s.clearWhen true).give token =
      ({ s with names := (s.names.clearPending.add text).1 },
        some (s.names.clearPending.add text).2) := by
  rw [give, named]
  rfl

theorem clearWhen_clearWhen (s : Session) (first second : Bool) :
    (s.clearWhen first).clearWhen second = s.clearWhen (first || second) := by
  cases first <;> cases second <;> rfl

@[simp]
theorem recordAll_nil (s : Session) : s.recordAll #[] = s := by
  simp [recordAll]

theorem recordAll_recordAll (s : Session) (first second : Array Report) :
    (s.recordAll first).recordAll second = s.recordAll (first ++ second) := by
  simp [recordAll]

theorem clearWhen_recordAll (s : Session) (reports : Array Report) (spelled : Bool) :
    (s.recordAll reports).clearWhen spelled = (s.clearWhen spelled).recordAll reports := by
  cases spelled <;> rfl

theorem foldl_afterPiece (file : UInt32) (s : Session) (found : List Piece) :
    found.foldl (afterPiece file) s =
      (s.clearWhen (found.any fun piece => piece.segment.spellsName)).recordAll
        (found.flatMap (Piece.reports file)).toArray := by
  induction found generalizing s with
  | nil => exact (recordAll_nil s).symm
  | cons piece found ih =>
    rw [List.foldl_cons, ih, afterPiece, clearWhen_recordAll, clearWhen_clearWhen, recordAll_recordAll,
      List.any_cons, List.flatMap_cons, ← List.append_toArray]

theorem absorb_scanned (s : Session) (token : Token) (place : Place) (file : UInt32)
    (found : List Piece) :
    s.absorb (Lexer.scanned token place file found) = (found.foldl (afterPiece file) s).give token := by
  rw [foldl_afterPiece, absorb, internName, give, Lexer.scanned]
  cases found.any fun piece => piece.segment.spellsName <;> cases token.name? <;> rfl

end Session

end AssemblyLexer
