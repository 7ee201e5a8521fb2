import AssemblyLexer.Proofs.Solo
import Mathlib.Data.List.Forall2

/-!
Lexers that go through different sources side by side. When two lexers are alike
before each pair of pieces, and so are the pieces, all that they find is alike.
-/

set_option autoImplicit false

namespace AssemblyLexer

/-- What it is for two lexers to be alike, for the places of a token that both find, and for the
locations of a fault. -/
structure Likeness where
  lexers : Lexer → Lexer → Prop
  places : Token → Place → Place → Prop
  locations : Location → Location → Prop

namespace Likeness

structure Reports (alike : Likeness) (r r' : Report) : Prop where
  fault_eq : r'.fault = r.fault
  located : alike.locations r.location r'.location

structure Steps (alike : Likeness) (s s' : Scanned) : Prop where
  token_eq : s'.token = s.token
  spelledName_eq : s'.spelledName = s.spelledName
  placed : alike.places s.token s.place s'.place
  reports : List.Forall₂ alike.Reports s.reports.toList s'.reports.toList

structure Diagnostics (alike : Likeness) (d d' : Diagnostic) : Prop where
  severity_eq : d'.severity = d.severity
  message_eq : d'.message = d.message
  located : alike.locations d.location d'.location

structure Answers (alike : Likeness) (a a' : Sharing.Answer) : Prop where
  token_eq : a'.token = a.token
  placed : alike.places a.token a.place a'.place
  added : List.Forall₂ alike.Diagnostics a.added a'.added

/-- The next pieces of two lexers are alike, and so are the lexers behind them. -/
structure Pieces (alike : Likeness) (l l' : Lexer) (first first' : Byte) (rest rest' : Bytes) :
    Prop where
  token?_eq : (l'.piece first' rest').segment.token? = (l.piece first rest).segment.token?
  spellsName_eq :
    (l'.piece first' rest').segment.spellsName = (l.piece first rest).segment.spellsName
  reports : List.Forall₂ alike.Reports ((l.piece first rest).reports l.file)
    ((l'.piece first' rest').reports l'.file)
  placed : ∀ token, (l.piece first rest).segment.token? = some token →
    alike.places token (l.placeOf (l.piece first rest).bytes)
      (l'.placeOf (l'.piece first' rest').bytes)
  behind : alike.lexers
    { l.behind first rest with fresh := (l.piece first rest).segment.freshAfter l.fresh }
    { l'.behind first' rest' with fresh := (l'.piece first' rest').segment.freshAfter l'.fresh }

/-- Lexers that are alike stay alike from piece to piece, and come to their ends together. -/
structure Kept (alike : Likeness) : Prop where
  replace {l l' : Lexer} (both : alike.lexers l l') (place place' : Place) :
    alike.lexers { l with place := place } { l' with place := place' }
  finish {l l' : Lexer} (both : alike.lexers l l') (atEnd : l.rest = []) :
    l'.rest = [] ∧ alike.places (.symbol .endOfSource) (l.placeOf []) (l'.placeOf [])
  piece {l l' : Lexer} {first : Byte} {rest : Bytes} (both : alike.lexers l l')
    (remaining : l.rest = first :: rest) :
    ∃ first' rest', l'.rest = first' :: rest' ∧ alike.Pieces l l' first first' rest rest'

variable {alike : Likeness}

/-- The same findings, at locations that are alike, are reported alike. -/
theorem reports_of_findings {piece piece' : Piece} {file file' : UInt32}
    (same : piece'.segment.findings = piece.segment.findings)
    (located : ∀ finding ∈ piece.segment.findings, alike.locations
      ((piece.position.passAll (piece.bytes.take finding.offset)).location file)
      ((piece'.position.passAll (piece'.bytes.take finding.offset)).location file')) :
    List.Forall₂ alike.Reports (piece.reports file) (piece'.reports file') := by
  simp only [Piece.reports, same, List.forall₂_map_left_iff, List.forall₂_map_right_iff,
    List.forall₂_same]
  exact fun finding isFinding => ⟨rfl, located finding isFinding⟩

theorem Kept.scanFrom (kept : alike.Kept) {l l' : Lexer} (both : alike.lexers l l')
    {found found' : Array Report}
    (reported : List.Forall₂ alike.Reports found.toList found'.toList) (spelledName : Bool) :
    alike.Steps (l.scanFrom found spelledName).1 (l'.scanFrom found' spelledName).1 ∧
      alike.lexers (l.scanFrom found spelledName).2 (l'.scanFrom found' spelledName).2 := by
  cases remaining : l.rest with
  | nil =>
    obtain ⟨atEnd, placed⟩ := kept.finish both remaining
    rw [Lexer.scanFrom_nil remaining, Lexer.scanFrom_nil atEnd]
    exact ⟨⟨rfl, rfl, placed, reported⟩, kept.replace both _ _⟩
  | cons first rest =>
    obtain ⟨first', rest', remaining', pieces⟩ := kept.piece both remaining
    have reported' : List.Forall₂ alike.Reports
        (found ++ (l.piece first rest).reports l.file).toList
        (found' ++ (l'.piece first' rest').reports l'.file).toList := by
      rw [Array.toList_appendList, Array.toList_appendList]
      exact List.rel_append reported pieces.reports
    have behind := pieces.behind
    rw [Lexer.scanFrom_cons remaining, Lexer.scanFrom_cons remaining', pieces.token?_eq,
      pieces.spellsName_eq]
    rw [Segment.freshAfter, Segment.freshAfter, pieces.token?_eq] at behind
    cases found_eq : (l.piece first rest).segment.token? with
    | some token =>
      rw [found_eq] at behind
      exact ⟨⟨rfl, rfl, pieces.placed token found_eq, reported'⟩, kept.replace behind _ _⟩
    | none =>
      rw [found_eq] at behind
      exact kept.scanFrom behind reported' _
termination_by l.rest.length
decreasing_by
  simp only [Lexer.behind, Lexer.pass, Lexer.piece, remaining, List.length_drop, List.length_cons]
  omega

variable {l l' : Lexer}

theorem Kept.next (kept : alike.Kept) (both : alike.lexers l l') :
    alike.Steps l.next.1 l'.next.1 ∧ alike.lexers l.next.2 l'.next.2 :=
  kept.scanFrom both .nil false

theorem Kept.firstSteps (kept : alike.Kept) (both : alike.lexers l l') (n : Nat) :
    List.Forall₂ alike.Steps (l.firstSteps n) (l'.firstSteps n) := by
  induction n generalizing l l' with
  | zero => exact .nil
  | succ n ih =>
    obtain ⟨steps, both'⟩ := kept.next both
    exact .cons steps (ih both')

theorem Steps.answers {s s' : Scanned} (steps : alike.Steps s s') :
    alike.Answers (Sharing.answer s) (Sharing.answer s') where
  token_eq := steps.token_eq
  placed := steps.placed
  added := by
    apply List.rel_map _ steps.reports
    rintro r r' ⟨fault_eq, located⟩
    exact ⟨rfl, congrArg Fault.message fault_eq, located⟩

theorem answers_of_steps {steps steps' : List Scanned}
    (same : List.Forall₂ alike.Steps steps steps') :
    List.Forall₂ alike.Answers (steps.map Sharing.answer) (steps'.map Sharing.answer) :=
  List.rel_map (fun _ _ step => step.answers) same

/-- Answers that are alike come with names of the same text, each in its own table. -/
theorem names_of_answers {names names' : NameTable}
    {given given' : List (Sharing.Answer × Option Name)}
    (same : List.Forall₂ alike.Answers (given.map Prod.fst) (given'.map Prod.fst))
    (named : ∀ one ∈ given, names.Calls one.1.token.name? one.2)
    (named' : ∀ one ∈ given', names'.Calls one.1.token.name? one.2) :
    List.Forall₂ (fun one one' =>
      alike.Answers one.1 one'.1 ∧ one.2.map names.get = one'.2.map names'.get) given given' := by
  rw [List.forall₂_map_left_iff, List.forall₂_map_right_iff] at same
  apply List.forall₂_iff_zip.mpr
  refine ⟨same.length_eq, ?_⟩
  intro one one' together
  obtain ⟨isGiven, isGiven'⟩ := List.of_mem_zip together
  have answers := List.forall₂_zip same together
  have text_eq := (named one isGiven).text_eq
  have text_eq' := (named' one' isGiven').text_eq
  rw [answers.token_eq] at text_eq'
  exact ⟨answers, text_eq.symm.trans text_eq'⟩

end Likeness

end AssemblyLexer
