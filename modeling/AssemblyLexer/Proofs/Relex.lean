import AssemblyLexer.Proofs.Run
import AssemblyLexer.Proofs.SelfDelimiting
import AssemblyLexer.Proofs.SessionLog

/-!
Printing the tokens of a source and lexing them again. Faulty constructs,
comments and empty lines are gone, and the same tokens come back.
-/

set_option autoImplicit false

namespace AssemblyLexer

/-- A parameter without a name is at fault by itself. -/
def Token.ownFaults (t : Token) : List Fault :=
  if t = .parameter [] then [.emptyParameter] else []

namespace Lexer

/-- The texts of the tokens before the end of the source, with one space between each two. -/
def printed (all : List Scanned) : Bytes :=
  [Byte.space].intercalate
    ((all.takeWhile fun s => s.token.kind ≠ .endOfSource).map fun s => s.place.text)

theorem printed_cons_of_eq {s : Scanned} (atEnd : s.token.kind = .endOfSource)
    (all : List Scanned) : printed (s :: all) = [] := by
  simp [printed, atEnd]

/-- Behind a printed token stands nothing, or a space and the other tokens. -/
theorem printed_cons_of_ne {s : Scanned} (kind_ne : s.token.kind ≠ .endOfSource)
    (all : List Scanned) :
    ∃ lead, (lead = [] ∨ lead = [Byte.space]) ∧
      printed (s :: all) = s.place.text ++ (lead ++ printed all) ∧
      Separated (lead ++ printed all) := by
  have printed_eq : printed (s :: all) = [Byte.space].intercalate (s.place.text ::
      (all.takeWhile fun s => s.token.kind ≠ .endOfSource).map fun s => s.place.text) := by
    simp [printed, kind_ne]
  rw [printed_eq, printed]
  generalize List.map _ (all.takeWhile _) = texts
  cases texts with
  | nil => exact ⟨[], .inl rfl, by simp, by simp [Separated]⟩
  | cons text texts =>
    refine ⟨[Byte.space], .inr rfl, ?_, ?_⟩
    · rw [List.intercalate_cons_cons, List.append_assoc]
    · simp [Separated]

theorem exists_skips_lead {lexer : Lexer} {lead rest : Bytes}
    (isLead : lead = [] ∨ lead = [Byte.space]) (rest_eq : lexer.rest = lead ++ rest) :
    ∃ skipped last, lexer.Skips skipped last ∧ last.rest = rest ∧
      ∀ piece ∈ skipped, piece.segment.findings = [] := by
  rcases isLead with rfl | rfl
  · exact ⟨[], lexer, .done lexer, rest_eq, by simp⟩
  · refine ⟨_, _, .skip rest_eq rfl (.done _), rfl, ?_⟩
    intro piece membership
    rw [List.mem_singleton.mp membership]
    rfl

theorem faults_scanned (token : Token) (place : Place) (file : UInt32) (found : List Piece) :
    (scanned token place file found).reports.toList.map Report.fault =
      found.flatMap fun piece => piece.segment.findings.map Finding.fault := by
  simp [scanned, List.map_flatMap, Piece.reports, Function.comp_def]

theorem flatMap_findings_eq_nil {skipped : List Piece}
    (faultless : ∀ piece ∈ skipped, piece.segment.findings = []) :
    (skipped.flatMap fun piece => piece.segment.findings.map Finding.fault) = [] := by
  rw [List.flatMap_eq_nil_iff]
  intro piece membership
  rw [faultless piece membership, List.map_nil]

/-- The bytes of a token are the same piece wherever they are separated from what follows. -/
theorem piece_again {last last' : Lexer} {first : Byte} {rest following : Bytes}
    (found : (last.piece first rest).segment.token?.isSome) (separated : Separated following)
    (fresh_eq : last'.fresh = last.fresh)
    (rest_eq : last'.rest = (last.piece first rest).bytes ++ following) :
    ∃ rest', last'.rest = first :: rest' ∧
      (last'.piece first rest').bytes = (last.piece first rest).bytes ∧
      (last'.piece first rest').segment = (last.piece first rest).segment ∧
      (last'.behind first rest').rest = following := by
  have length_eq := List.length_take_of_le (Segment.scan_tail_le last.fresh first rest)
  have same := Segment.scan_take_append found separated
  refine ⟨_, rest_eq, ?_, ?_, ?_⟩
  · simp only [piece, fresh_eq, List.append_eq, same, List.take_left' length_eq]
  · simp only [piece, fresh_eq, List.append_eq, same]
  · simp only [behind, pass, piece, fresh_eq, List.append_eq, same, List.drop_left' length_eq]

theorem ownFaults_of_found {fresh : Bool} {first : Byte} {rest : Bytes} {token : Token}
    (found : (Segment.scan fresh first rest).token? = some token) :
    (Segment.scan fresh first rest).findings.map Finding.fault = token.ownFaults := by
  cases Segment.gives_scan fresh first rest with
  | token found' _ faults =>
    obtain rfl := Option.some.inj (found'.symm.trans found)
    rw [faults, Token.ownFaults]
    split <;> rfl
  | fault none => cases none.symm.trans found
  | silence none => cases none.symm.trans found

variable {lexer after other : Lexer} {s : Scanned} {all : List Scanned}

/-- A lexer that finds the bytes of a token takes that token. -/
theorem Takes.again (takes : lexer.Takes s after) {lead behind : Bytes}
    (fresh_eq : other.fresh = lexer.fresh) (isLead : lead = [] ∨ lead = [Byte.space])
    (rest_eq : other.rest = lead ++ (s.place.text ++ behind)) (separated : Separated behind) :
    ∃ s' after', other.Takes s' after' ∧ s'.token = s.token ∧ s'.place.text = s.place.text ∧
      s'.reports.toList.map Report.fault = s.token.ownFaults ∧
      after'.rest = behind ∧ after'.fresh = after.fresh := by
  obtain ⟨skipped', last', skips', rest_eq', faultless⟩ := exists_skips_lead isLead rest_eq
  cases takes with
  | @intro last skipped first rest token skips remaining found =>
    have fresh_eq' : last'.fresh = last.fresh := by
      rw [skips'.fresh_eq, fresh_eq, skips.fresh_eq]
    obtain ⟨rest', remaining', bytes_eq, segment_eq, behind_eq⟩ :=
      piece_again (Option.isSome_of_eq_some found) separated fresh_eq' rest_eq'
    refine ⟨_, _, .intro skips' remaining' (segment_eq ▸ found), rfl, bytes_eq, ?_, behind_eq, rfl⟩
    rw [faults_scanned, List.flatMap_append, flatMap_findings_eq_nil faultless, List.nil_append,
      List.flatMap_singleton, segment_eq]
    exact ownFaults_of_found found

theorem Runs.again (runs : lexer.Runs all after) :
    ∀ other : Lexer, ∀ lead : Bytes, other.fresh = lexer.fresh →
      lead = [] ∨ lead = [Byte.space] → other.rest = lead ++ printed all →
      ∃ again after', other.Runs again after' ∧
        again.map (fun s => (s.token, s.place.text)) = all.map (fun s => (s.token, s.place.text)) ∧
        ∀ s ∈ again, s.reports.toList.map Report.fault = s.token.ownFaults := by
  induction runs with
  | last finishes =>
    intro other lead _ isLead rest_eq
    cases finishes with
    | @intro last skipped skips atEnd =>
      rw [printed_cons_of_eq rfl] at rest_eq
      obtain ⟨skipped', last', skips', atEnd', faultless⟩ := exists_skips_lead isLead rest_eq
      refine ⟨_, _, .last (.intro skips' atEnd'), rfl, ?_⟩
      intro s membership
      rw [List.mem_singleton.mp membership, faults_scanned, flatMap_findings_eq_nil faultless]
      rfl
  | @more lexer middle after s all takes later ih =>
    intro other lead fresh_eq isLead rest_eq
    obtain ⟨lead', isLead', printed_eq, separated⟩ := printed_cons_of_ne takes.kind_ne all
    rw [printed_eq] at rest_eq
    obtain ⟨s', middle', takes', token_eq, text_eq, faults_eq, rest_eq', fresh_eq'⟩ :=
      takes.again fresh_eq isLead rest_eq separated
    obtain ⟨again, after', runs', same, faults⟩ := ih middle' lead' fresh_eq' isLead' rest_eq'
    refine ⟨s' :: again, after', .more takes' runs', ?_, ?_⟩
    · rw [List.map_cons, List.map_cons, same, token_eq, text_eq]
    · intro t membership
      rcases List.mem_cons.mp membership with rfl | membership
      · rw [faults_eq, token_eq]
      · exact faults t membership

end Lexer

end AssemblyLexer
