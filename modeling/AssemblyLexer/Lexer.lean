import AssemblyLexer.Position
import AssemblyLexer.Segment

/-!
The lexer produces one token at a time from the bytes that are left. It keeps no
names and no log: each step returns the token, the faults met on the way to it,
and whether a name was spelled out.
-/

set_option autoImplicit false

namespace AssemblyLexer

/-- Where a token stands, with the bytes that it was read from. -/
structure Place where
  location : Location
  span : Span
  text : Bytes
  deriving DecidableEq

/-- A fault with its location. -/
structure Report where
  location : Location
  fault : Fault
  deriving DecidableEq

structure Lexer where
  file : UInt32
  /-- The bytes that have not been scanned. -/
  rest : Bytes
  position : Position
  /-- No token has been produced since the start of the source or the last end of a statement. -/
  fresh : Bool
  /-- The place of the last token, or of the start of the source before any. -/
  place : Place

/-- What one step of the lexer finds. -/
structure Scanned where
  token : Token
  place : Place
  reports : Array Report
  /-- A name was spelled out, whether or not the token carries one. -/
  spelledName : Bool

namespace Lexer

def ofSource (file : UInt32) (source : Bytes) : Lexer where
  file := file
  rest := source
  position := .initial
  fresh := true
  place := ⟨Position.initial.location file, ⟨0, 0⟩, []⟩

/-- The findings of a segment, located from the position where it starts. -/
def reports (lexer : Lexer) (bytes : Bytes) (findings : List Finding) : List Report :=
  findings.map fun finding =>
    ⟨(lexer.position.passAll (bytes.take finding.offset)).location lexer.file, finding.fault⟩

/-- The place of the given bytes at the current position. -/
def placeOf (lexer : Lexer) (bytes : Bytes) : Place where
  location := lexer.position.location lexer.file
  span := ⟨lexer.position.offset, lexer.position.offset + bytes.length⟩
  text := bytes

/-- Move behind the given bytes. -/
def pass (lexer : Lexer) (bytes rest : Bytes) : Lexer :=
  { lexer with rest := rest, position := lexer.position.passAll bytes }

/-- Scan segments until one of them is a token, adding to what has been found. -/
def scanFrom (lexer : Lexer) (found : Array Report) (spelledName : Bool) : Scanned × Lexer :=
  match _h : lexer.rest with
  | [] =>
    let place := lexer.placeOf []
    (⟨.symbol .endOfSource, place, found, spelledName⟩, { lexer with place := place })
  | first :: rest =>
    let segment := Segment.scan lexer.fresh first rest
    let bytes := first :: rest.take segment.tail
    let found := found ++ lexer.reports bytes segment.findings
    let spelledName := spelledName || segment.spellsName
    let next := lexer.pass bytes (rest.drop segment.tail)
    match segment.token? with
    | some token =>
      let place := lexer.placeOf bytes
      (⟨token, place, found, spelledName⟩,
        { next with place := place, fresh := token.kind = .endOfStatement })
    | none => next.scanFrom found spelledName
termination_by lexer.rest.length
decreasing_by
  simp only [pass, _h, List.length_drop, List.length_cons]
  omega

/-- The next token. At the end of the source every step finds the end again. -/
def next (lexer : Lexer) : Scanned × Lexer :=
  lexer.scanFrom #[] false

/-- A step that does not find the end takes at least one byte. -/
theorem scanFrom_rest_length (lexer : Lexer) (found : Array Report) (spelledName : Bool) :
    (lexer.scanFrom found spelledName).1.token = .symbol .endOfSource ∨
      (lexer.scanFrom found spelledName).2.rest.length < lexer.rest.length := by
  fun_induction scanFrom lexer found spelledName with
  | case1 => exact .inl rfl
  | case2 lexer _ _ first rest h segment bytes _ _ next =>
    right
    simp only [next, pass, h, List.length_drop, List.length_cons]
    omega
  | case3 lexer _ _ first rest h segment bytes found spelledName next _ ih =>
    have shorter : next.rest.length < lexer.rest.length := by
      simp only [next, pass, h, List.length_drop, List.length_cons]
      omega
    exact ih.imp_right fun less => Nat.lt_trans less shorter

/-- All tokens up to the end of the source, added to those found before. -/
def runFrom (lexer : Lexer) (before : Array Scanned) : Array Scanned × Lexer :=
  let result := lexer.next
  if _h : result.1.token = .symbol .endOfSource then (before.push result.1, result.2)
  else result.2.runFrom (before.push result.1)
termination_by lexer.rest.length
decreasing_by exact (scanFrom_rest_length lexer #[] false).resolve_left _h

/-- All tokens up to and including the end of the source. -/
def run (lexer : Lexer) : Array Scanned × Lexer :=
  lexer.runFrom #[]

end Lexer

end AssemblyLexer
