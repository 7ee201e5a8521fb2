import AssemblyLexer.Lexer

/-!
The pieces of a source. The lexer goes through a source segment by segment, and
a piece is a segment at the place where the source has it. A step of the lexer
skips pieces that are no tokens and then takes one that is, unless the source
ends first; `Takes` and `Finishes` say everything that such a step can do.
-/

set_option autoImplicit false

namespace AssemblyLexer

/-- Whether a statement starts behind a segment, given whether one starts before it. -/
def Segment.freshAfter (s : Segment) (fresh : Bool) : Bool :=
  match s.token? with
  | some token => token.kind = .endOfStatement
  | none => fresh

/-- A segment at its place in a source. -/
structure Piece where
  position : Position
  /-- A statement starts here. -/
  fresh : Bool
  bytes : Bytes
  segment : Segment

namespace Piece

def reports (file : UInt32) (piece : Piece) : List Report :=
  piece.segment.findings.map fun finding =>
    ⟨(piece.position.passAll (piece.bytes.take finding.offset)).location file, finding.fault⟩

/-- Cut bytes into the pieces that the lexer finds in them. -/
def cut (fresh : Bool) (position : Position) : Bytes → List Piece
  | [] => []
  | first :: rest =>
    let segment := Segment.scan fresh first rest
    let bytes := first :: rest.take segment.tail
    ⟨position, fresh, bytes, segment⟩ ::
      cut (segment.freshAfter fresh) (position.passAll bytes) (rest.drop segment.tail)
termination_by bytes => bytes.length

def ofSource (source : Bytes) : List Piece :=
  cut true .initial source

def join (pieces : List Piece) : Bytes :=
  pieces.flatMap Piece.bytes

@[simp]
theorem join_nil : join [] = [] := rfl

@[simp]
theorem join_cons (piece : Piece) (pieces : List Piece) :
    join (piece :: pieces) = piece.bytes ++ join pieces := rfl

@[simp]
theorem cut_nil (fresh : Bool) (position : Position) : cut fresh position [] = [] := by
  rw [cut]

/-- Nothing is lost between pieces. -/
theorem join_cut (fresh : Bool) (position : Position) (bytes : Bytes) :
    join (cut fresh position bytes) = bytes := by
  fun_induction cut fresh position bytes with
  | case1 => rfl
  | case2 fresh position first rest segment bytes ih =>
    rw [join_cons, ih, List.cons_append, List.take_append_drop]

/-- The segment of a piece was scanned where the source has the piece. -/
structure Stands (source : Bytes) (piece : Piece) (passed : Bytes) (first : Byte)
    (rest : Bytes) : Prop where
  source_eq : source = passed ++ first :: rest
  position_eq : piece.position = Position.initial.passAll passed
  segment_eq : piece.segment = Segment.scan piece.fresh first rest
  bytes_eq : piece.bytes = first :: rest.take piece.segment.tail

theorem Stands.offset_eq {source passed rest : Bytes} {piece : Piece} {first : Byte}
    (stands : piece.Stands source passed first rest) : piece.position.offset = passed.length := by
  rw [stands.position_eq, Position.offset_passAll_initial]

theorem stands_of_mem_cut {source : Bytes} {piece : Piece} (fresh : Bool) (position : Position)
    (bytes : Bytes) (membership : piece ∈ cut fresh position bytes) :
    ∀ passed, source = passed ++ bytes → position = Position.initial.passAll passed →
      ∃ passed first rest, piece.Stands source passed first rest := by
  fun_induction cut fresh position bytes with
  | case1 => simp at membership
  | case2 fresh position first rest segment bytes ih =>
    intro passed source_eq position_eq
    rcases List.mem_cons.mp membership with equality | later
    · subst piece
      exact ⟨passed, first, rest, source_eq, position_eq, rfl, rfl⟩
    · apply ih later (passed ++ bytes)
      · rw [source_eq, List.append_assoc, List.cons_append, List.take_append_drop]
      · rw [position_eq, Position.passAll_append]

theorem stands_of_mem_ofSource {source : Bytes} {piece : Piece}
    (membership : piece ∈ ofSource source) :
    ∃ passed first rest, piece.Stands source passed first rest :=
  stands_of_mem_cut true .initial source membership [] rfl rfl

end Piece

namespace Lexer

def piece (lexer : Lexer) (first : Byte) (rest : Bytes) : Piece where
  position := lexer.position
  fresh := lexer.fresh
  bytes := first :: rest.take (Segment.scan lexer.fresh first rest).tail
  segment := Segment.scan lexer.fresh first rest

/-- The lexer behind the piece that starts with the given bytes. -/
def behind (lexer : Lexer) (first : Byte) (rest : Bytes) : Lexer :=
  lexer.pass (lexer.piece first rest).bytes (rest.drop (lexer.piece first rest).segment.tail)

def pieces (lexer : Lexer) : List Piece :=
  Piece.cut lexer.fresh lexer.position lexer.rest

theorem pieces_eq_cons {lexer : Lexer} {first : Byte} {rest : Bytes}
    (remaining : lexer.rest = first :: rest) :
    lexer.pieces = lexer.piece first rest ::
      Piece.cut ((lexer.piece first rest).segment.freshAfter lexer.fresh)
        (lexer.behind first rest).position (lexer.behind first rest).rest := by
  rw [pieces, remaining, Piece.cut]
  rfl

theorem pieces_of_atEnd {lexer : Lexer} (atEnd : lexer.rest = []) : lexer.pieces = [] := by
  rw [pieces, atEnd, Piece.cut_nil]

theorem piece_bytes_append (lexer : Lexer) (first : Byte) (rest : Bytes) :
    (lexer.piece first rest).bytes ++ (lexer.behind first rest).rest = first :: rest := by
  simp [piece, behind, pass]

/-- From one lexer to another over pieces that are no tokens. -/
inductive Skips : Lexer → List Piece → Lexer → Prop
  | done (lexer : Lexer) : Skips lexer [] lexer
  | skip {lexer last : Lexer} {first : Byte} {rest : Bytes} {skipped : List Piece}
      (remaining : lexer.rest = first :: rest)
      (silent : (lexer.piece first rest).segment.token? = none)
      (later : Skips (lexer.behind first rest) skipped last) :
      Skips lexer (lexer.piece first rest :: skipped) last

namespace Skips

variable {lexer last : Lexer} {skipped : List Piece}

theorem file_eq (skips : lexer.Skips skipped last) : last.file = lexer.file := by
  induction skips with
  | done => rfl
  | skip _ _ _ ih => exact ih

theorem fresh_eq (skips : lexer.Skips skipped last) : last.fresh = lexer.fresh := by
  induction skips with
  | done => rfl
  | skip _ _ _ ih => exact ih

theorem rest_eq (skips : lexer.Skips skipped last) :
    lexer.rest = Piece.join skipped ++ last.rest := by
  induction skips with
  | done => rfl
  | @skip lexer last first rest skipped remaining _ _ ih =>
    rw [Piece.join_cons, List.append_assoc, ← ih, piece_bytes_append, remaining]

theorem position_eq (skips : lexer.Skips skipped last) :
    last.position = lexer.position.passAll (Piece.join skipped) := by
  induction skips with
  | done => rfl
  | skip _ _ _ ih =>
    rw [ih, Piece.join_cons, Position.passAll_append]
    rfl

theorem pieces_eq (skips : lexer.Skips skipped last) :
    lexer.pieces = skipped ++ last.pieces := by
  induction skips with
  | done => rfl
  | @skip lexer last first rest skipped remaining silent _ ih =>
    rw [pieces_eq_cons remaining, List.cons_append, ← ih, Segment.freshAfter, silent]
    rfl

theorem pieces_eq_of_atEnd (skips : lexer.Skips skipped last) (atEnd : last.rest = []) :
    lexer.pieces = skipped := by
  rw [skips.pieces_eq, pieces_of_atEnd atEnd, List.append_nil]

theorem pieces_eq_of_found {first : Byte} {rest : Bytes} {token : Token}
    (skips : lexer.Skips skipped last) (remaining : last.rest = first :: rest)
    (found : (last.piece first rest).segment.token? = some token) :
    lexer.pieces = skipped ++ [last.piece first rest] ++
      Piece.cut (token.kind = .endOfStatement) (last.behind first rest).position
        (last.behind first rest).rest := by
  rw [skips.pieces_eq, pieces_eq_cons remaining, Segment.freshAfter, found, List.append_assoc]
  rfl

end Skips

/-- What a step finds in pieces that it skips before one that ends it. -/
def scanned (token : Token) (place : Place) (file : UInt32) (found : List Piece) : Scanned where
  token := token
  place := place
  reports := (found.flatMap (Piece.reports file)).toArray
  spelledName := found.any fun piece => piece.segment.spellsName

inductive Takes : Lexer → Scanned → Lexer → Prop
  | intro {lexer last : Lexer} {skipped : List Piece} {first : Byte} {rest : Bytes}
      {token : Token}
      (skips : lexer.Skips skipped last)
      (remaining : last.rest = first :: rest)
      (found : (last.piece first rest).segment.token? = some token) :
      Takes lexer
        (scanned token (last.placeOf (last.piece first rest).bytes) last.file
          (skipped ++ [last.piece first rest]))
        { last.behind first rest with
          place := last.placeOf (last.piece first rest).bytes
          fresh := token.kind = .endOfStatement }

inductive Finishes : Lexer → Scanned → Lexer → Prop
  | intro {lexer last : Lexer} {skipped : List Piece}
      (skips : lexer.Skips skipped last)
      (atEnd : last.rest = []) :
      Finishes lexer
        (scanned (.symbol .endOfSource) (last.placeOf []) last.file skipped)
        { last with place := last.placeOf [] }

theorem scanFrom_nil {lexer : Lexer} (atEnd : lexer.rest = []) (found : Array Report)
    (spelledName : Bool) :
    lexer.scanFrom found spelledName =
      (⟨.symbol .endOfSource, lexer.placeOf [], found, spelledName⟩,
        { lexer with place := lexer.placeOf [] }) := by
  rw [scanFrom]
  split
  · rfl
  · simp_all

theorem scanFrom_cons {lexer : Lexer} {first : Byte} {rest : Bytes}
    (remaining : lexer.rest = first :: rest) (found : Array Report) (spelledName : Bool) :
    lexer.scanFrom found spelledName =
      match (lexer.piece first rest).segment.token? with
      | some token =>
        (⟨token, lexer.placeOf (lexer.piece first rest).bytes,
            found ++ (lexer.piece first rest).reports lexer.file,
            spelledName || (lexer.piece first rest).segment.spellsName⟩,
          { lexer.behind first rest with
            place := lexer.placeOf (lexer.piece first rest).bytes
            fresh := token.kind = .endOfStatement })
      | none =>
        (lexer.behind first rest).scanFrom (found ++ (lexer.piece first rest).reports lexer.file)
          (spelledName || (lexer.piece first rest).segment.spellsName) := by
  rw [scanFrom]
  split
  · simp_all
  · next first' rest' remaining' =>
    obtain ⟨rfl, rfl⟩ := List.cons.inj (remaining.symm.trans remaining')
    rfl

theorem Skips.scanFrom_eq {lexer last : Lexer} {skipped : List Piece}
    (skips : lexer.Skips skipped last) (found : Array Report) (spelledName : Bool) :
    lexer.scanFrom found spelledName =
      last.scanFrom (found ++ (skipped.flatMap (Piece.reports last.file)).toArray)
        (spelledName || skipped.any fun piece => piece.segment.spellsName) := by
  induction skips generalizing found spelledName with
  | done => simp
  | @skip lexer last first rest skipped remaining silent later ih =>
    have file_eq : last.file = lexer.file := later.file_eq
    rw [scanFrom_cons remaining, silent]
    dsimp only
    rw [ih, file_eq, List.any_cons, Bool.or_assoc, List.flatMap_cons]
    congr 1
    apply Array.ext'
    simp

theorem Takes.next_eq {lexer after : Lexer} {s : Scanned} (takes : lexer.Takes s after) :
    lexer.next = (s, after) := by
  cases takes with
  | intro skips remaining found =>
    rw [next, skips.scanFrom_eq, scanFrom_cons remaining, found]
    simp [scanned]

theorem Finishes.next_eq {lexer after : Lexer} {s : Scanned} (finishes : lexer.Finishes s after) :
    lexer.next = (s, after) := by
  cases finishes with
  | intro skips atEnd =>
    rw [next, skips.scanFrom_eq, scanFrom_nil atEnd]
    simp [scanned]

theorem exists_skips (lexer : Lexer) :
    ∃ skipped last, lexer.Skips skipped last ∧
      (last.rest = [] ∨ ∃ first rest token, last.rest = first :: rest ∧
        (last.piece first rest).segment.token? = some token) := by
  cases remaining : lexer.rest with
  | nil => exact ⟨[], lexer, .done lexer, .inl remaining⟩
  | cons first rest =>
    cases found : (lexer.piece first rest).segment.token? with
    | some token =>
      exact ⟨[], lexer, .done lexer, .inr ⟨first, rest, token, remaining, found⟩⟩
    | none =>
      obtain ⟨skipped, last, skips, stops⟩ := exists_skips (lexer.behind first rest)
      exact ⟨_, last, .skip remaining found skips, stops⟩
termination_by lexer.rest.length
decreasing_by
  simp only [behind, pass, piece, remaining, List.length_drop, List.length_cons]
  omega

/-- Every step takes a token or finishes. -/
theorem next_cases (lexer : Lexer) :
    lexer.Takes lexer.next.1 lexer.next.2 ∨ lexer.Finishes lexer.next.1 lexer.next.2 := by
  obtain ⟨skipped, last, skips, atEnd | ⟨first, rest, token, remaining, found⟩⟩ :=
    lexer.exists_skips
  · right
    have finishes := Finishes.intro skips atEnd
    rw [finishes.next_eq]
    exact finishes
  · left
    have takes := Takes.intro skips remaining found
    rw [takes.next_eq]
    exact takes

end Lexer

end AssemblyLexer
