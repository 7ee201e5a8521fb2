import AssemblyLexer.Proofs.Likeness
import AssemblyLexer.Proofs.Lookahead
import AssemblyLexer.Proofs.Unbroken

/-!
The three line endings. A source that ends its lines with line feeds may as well
end them with carriage returns, or with both: outside of quoted literals nothing
but offsets comes to depend on the choice.
-/

set_option autoImplicit false

namespace AssemblyLexer

/-- What may stand for a line feed. -/
inductive LineEnding
  | carriageReturn
  | pair
  deriving DecidableEq, Repr

namespace LineEnding

def bytes : LineEnding → Bytes
  | carriageReturn => [Byte.carriageReturn]
  | pair => [Byte.carriageReturn, Byte.lineFeed]

/-- Write the line ending in place of every line feed. -/
def write (ending : LineEnding) (source : Bytes) : Bytes :=
  source.flatMap fun b => if b = Byte.lineFeed then ending.bytes else [b]

variable (ending : LineEnding)

@[simp]
theorem write_nil : ending.write [] = [] := rfl

@[simp]
theorem write_append (left right : Bytes) :
    ending.write (left ++ right) = ending.write left ++ ending.write right :=
  List.flatMap_append

@[simp]
theorem write_lineFeed (rest : Bytes) :
    ending.write (Byte.lineFeed :: rest) = ending.bytes ++ ending.write rest := rfl

theorem write_cons {b : Byte} (noFeed : b ≠ Byte.lineFeed) (rest : Bytes) :
    ending.write (b :: rest) = b :: ending.write rest := by
  simp [write, noFeed]

theorem write_of_unbroken {bytes : Bytes} (unbroken : Unbroken bytes) :
    ending.write bytes = bytes := by
  induction bytes with
  | nil => rfl
  | cons b rest ih =>
    obtain ⟨goesOn, unbroken'⟩ := unbroken_cons.mp unbroken
    have noFeed : b ≠ Byte.lineFeed := by
      rintro rfl
      cases goesOn
    rw [write_cons ending noFeed, ih unbroken']

/-- Where a line feed stood, the line ending is one break, whatever follows. -/
theorem exists_bytes_eq (rest : Bytes) : ∃ more, ending.bytes = Byte.carriageReturn :: more ∧
    Segment.breakTail Byte.carriageReturn (more ++ ending.write rest) = more.length := by
  cases ending with
  | pair => exact ⟨[Byte.lineFeed], rfl, rfl⟩
  | carriageReturn =>
    refine ⟨[], rfl, if_neg ?_⟩
    rintro ⟨_, isFeed⟩
    cases rest with
    | nil => cases isFeed
    | cons b rest =>
      by_cases isFeed' : b = Byte.lineFeed
      · subst isFeed'
        cases isFeed
      · simp only [List.nil_append, write_cons _ isFeed', List.head?_cons] at isFeed
        exact isFeed' (Option.some.inj isFeed)

theorem resembles_write {taken : Bytes} (noReturn : Byte.carriageReturn ∉ taken) (behind : Bytes) :
    Resembles taken behind (ending.write behind) := by
  cases behind with
  | nil => exact .sameHead rfl
  | cons b rest =>
    by_cases isFeed : b = Byte.lineFeed
    · subst isFeed
      obtain ⟨more, bytes_eq, _⟩ := ending.exists_bytes_eq rest
      have now : (ending.write (Byte.lineFeed :: rest)).head? = some Byte.carriageReturn := by
        simp [bytes_eq]
      exact .bothBreaks noReturn rfl now rfl rfl
    · apply Resembles.sameHead
      rw [write_cons ending isFeed]
      rfl

end LineEnding

/-- The same line and the same column, at different offsets. -/
structure Position.Rewritten (p p' : Position) : Prop where
  line_eq : p'.line = p.line
  inLine : ∃ distance, p.offset = p.lineStart + distance ∧ p'.offset = p'.lineStart + distance
  noReturn : p.afterReturn = false

namespace Position.Rewritten

variable {p p' : Position}

theorem location_eq (both : p.Rewritten p') (file : UInt32) :
    p'.location file = p.location file := by
  obtain ⟨distance, offset_eq, offset_eq'⟩ := both.inLine
  simp only [location, Position.column, both.line_eq, offset_eq, offset_eq',
    Nat.add_sub_cancel_left]

theorem pass_lineFeed (both : p.Rewritten p') (ending : LineEnding) :
    (p.pass Byte.lineFeed).Rewritten (p'.passAll ending.bytes) := by
  have line_eq : p'.line + 1 = p.line + 1 := congrArg (· + 1) both.line_eq
  have feed_eq : p.pass Byte.lineFeed = ⟨p.offset + 1, p.line + 1, p.offset + 1, false⟩ := by
    rw [Position.pass, both.noReturn]
    rfl
  rw [feed_eq]
  cases ending with
  | carriageReturn => exact ⟨line_eq, ⟨0, rfl, rfl⟩, rfl⟩
  | pair => exact ⟨line_eq, ⟨0, rfl, rfl⟩, rfl⟩

theorem pass {b : Byte} (both : p.Rewritten p') (noFeed : b ≠ Byte.lineFeed)
    (noReturn : b ≠ Byte.carriageReturn) : (p.pass b).Rewritten (p'.pass b) := by
  obtain ⟨distance, offset_eq, offset_eq'⟩ := both.inLine
  simp only [Position.pass, if_neg noReturn, if_neg noFeed]
  exact ⟨both.line_eq, ⟨distance + 1, congrArg (· + 1) offset_eq, congrArg (· + 1) offset_eq'⟩, rfl⟩

theorem passAll {bytes : Bytes} (both : p.Rewritten p') (ending : LineEnding)
    (noReturn : Byte.carriageReturn ∉ bytes) :
    (p.passAll bytes).Rewritten (p'.passAll (ending.write bytes)) := by
  induction bytes generalizing p p' with
  | nil => exact both
  | cons b rest ih =>
    have noReturn' : Byte.carriageReturn ∉ rest :=
      fun membership => noReturn (List.mem_cons_of_mem b membership)
    by_cases isFeed : b = Byte.lineFeed
    · subst isFeed
      simp only [ending.write_lineFeed, Position.passAll_append]
      exact ih (both.pass_lineFeed ending) noReturn'
    · rw [ending.write_cons isFeed]
      exact ih (both.pass isFeed fun isReturn => noReturn (isReturn ▸ List.mem_cons_self)) noReturn'

end Position.Rewritten

namespace Segment

/-- A segment and the one that it becomes, with the bytes that each takes. -/
structure Rewritten (ending : LineEnding) (taken taken' : Bytes) (s s' : Segment) : Prop where
  taken_eq : taken' = ending.write taken
  form_eq : s'.form = s.form
  token?_eq : s'.token? = s.token?
  findings_eq : s'.findings = s.findings
  breaks : Unbroken taken ∨ s.findings = [] ∧
    ∀ token, s.token? = some token → token = .symbol .endOfStatement ∧ taken = [Byte.lineFeed]

variable {fresh : Bool} {first : Byte} {rest : Bytes}

theorem exists_rewritten_unbroken (ending : LineEnding)
    (unbroken : Unbroken (first :: rest.take (scan fresh first rest).tail)) :
    ∃ first' rest', ending.write (first :: rest) = first' :: rest' ∧
      Rewritten ending (first :: rest.take (scan fresh first rest).tail)
        (first' :: rest'.take (scan fresh first' rest').tail)
        (scan fresh first rest) (scan fresh first' rest') := by
  have length_eq := List.length_take_of_le (scan_tail_le fresh first rest)
  have same := scan_resembling (ending.resembles_write unbroken.noReturn _)
  have written : ending.write (first :: rest) =
      first :: (rest.take (scan fresh first rest).tail ++
        ending.write (rest.drop (scan fresh first rest).tail)) :=
    calc ending.write (first :: rest)
        = ending.write (first :: rest.take (scan fresh first rest).tail ++
            rest.drop (scan fresh first rest).tail) := by
          rw [List.cons_append, List.take_append_drop]
      _ = first :: rest.take (scan fresh first rest).tail ++
            ending.write (rest.drop (scan fresh first rest).tail) := by
          rw [ending.write_append, ending.write_of_unbroken unbroken]
  refine ⟨first, _, written, ?_⟩
  rw [same, List.take_left' length_eq]
  exact ⟨(ending.write_of_unbroken unbroken).symm, rfl, rfl, rfl, .inl unbroken⟩

/-- The line feed of the source, and the break in its place. -/
theorem exists_rewritten_lineBreak (ending : LineEnding) (fresh : Bool) (rest : Bytes) :
    ∃ first' rest', ending.write (Byte.lineFeed :: rest) = first' :: rest' ∧
      Rewritten ending [Byte.lineFeed] (first' :: rest'.take (scan fresh first' rest').tail)
        (lineBreak fresh Byte.lineFeed rest) (scan fresh first' rest') := by
  obtain ⟨more, bytes_eq, tail_eq⟩ := ending.exists_bytes_eq rest
  have scanned : scan fresh Byte.carriageReturn (more ++ ending.write rest) =
      lineBreak fresh Byte.carriageReturn (more ++ ending.write rest) := rfl
  refine ⟨Byte.carriageReturn, more ++ ending.write rest, ?_, ?_⟩
  · simp only [ending.write_lineFeed, bytes_eq, List.cons_append]
  · simp only [scanned, lineBreak, tail_eq, List.take_left, ← bytes_eq]
    refine ⟨(List.append_nil _).symm, rfl, rfl, rfl, .inr ⟨rfl, ?_⟩⟩
    intro token found
    cases fresh with
    | true => cases found
    | false =>
      cases found
      exact ⟨rfl, rfl⟩

theorem exists_rewritten_continuation (ending : LineEnding) (fresh : Bool) (rest : Bytes) :
    ∃ first' rest', ending.write (Byte.backslash :: Byte.lineFeed :: rest) = first' :: rest' ∧
      Rewritten ending [Byte.backslash, Byte.lineFeed]
        (first' :: rest'.take (scan fresh first' rest').tail)
        (skipped .continuation 1) (scan fresh first' rest') := by
  obtain ⟨more, bytes_eq, tail_eq⟩ := ending.exists_bytes_eq rest
  have scanned : scan fresh Byte.backslash (Byte.carriageReturn :: (more ++ ending.write rest)) =
      skipped .continuation
        (breakTail Byte.carriageReturn (more ++ ending.write rest) + 1) := rfl
  refine ⟨Byte.backslash, Byte.carriageReturn :: (more ++ ending.write rest), ?_, ?_⟩
  · rw [ending.write_cons (by decide), ending.write_lineFeed, bytes_eq, List.cons_append]
  · simp only [scanned, skipped, tail_eq, List.take_succ_cons, List.take_left, ← bytes_eq]
    refine ⟨congrArg _ (List.append_nil _).symm, rfl, rfl, rfl, .inr ⟨rfl, ?_⟩⟩
    intro token found
    cases found

theorem exists_rewritten (ending : LineEnding) (noReturn : Byte.carriageReturn ∉ first :: rest)
    (inside : (scan fresh first rest).form = .quoted →
      Byte.lineFeed ∉ first :: rest.take (scan fresh first rest).tail) :
    ∃ first' rest', ending.write (first :: rest) = first' :: rest' ∧
      Rewritten ending (first :: rest.take (scan fresh first rest).tail)
        (first' :: rest'.take (scan fresh first' rest').tail)
        (scan fresh first rest) (scan fresh first' rest') := by
  have lineFeed_of_isBreak : ∀ b ∈ first :: rest, b.isLineBreak → b = Byte.lineFeed := by
    intro b membership isBreak
    apply (Byte.isLineBreak_iff.mp isBreak).resolve_right
    rintro rfl
    exact noReturn membership
  have takes := takes_scan fresh first rest
  generalize scan_eq : scan fresh first rest = s at takes inside ⊢
  cases takes with
  | unbroken unbroken =>
    subst scan_eq
    exact exists_rewritten_unbroken ending unbroken
  | quoted isQuoted =>
    subst scan_eq
    have noReturn' : Byte.carriageReturn ∉ first :: rest.take (scan fresh first rest).tail :=
      fun membership => noReturn ((List.take_prefix (_ + 1) (first :: rest)).subset membership)
    exact exists_rewritten_unbroken ending (unbroken_of_not_mem (inside isQuoted) noReturn')
  | lineBreak isBreak =>
    obtain rfl := lineFeed_of_isBreak first List.mem_cons_self isBreak
    exact exists_rewritten_lineBreak ending fresh rest
  | continuation isBreak =>
    obtain rfl := lineFeed_of_isBreak _ (List.mem_cons_of_mem _ List.mem_cons_self) isBreak
    exact exists_rewritten_continuation ending fresh _

end Segment

/-- A lexer and one whose source has the line ending in place of line feeds. -/
structure Lexer.Rewritten (ending : LineEnding) (lexer lexer' : Lexer) : Prop where
  file_eq : lexer'.file = lexer.file
  fresh_eq : lexer'.fresh = lexer.fresh
  rest_eq : lexer'.rest = ending.write lexer.rest
  position : lexer.position.Rewritten lexer'.position
  noReturn : Byte.carriageReturn ∉ lexer.rest
  inside : ∀ piece ∈ lexer.pieces, piece.segment.form = .quoted → Byte.lineFeed ∉ piece.bytes

/-- Places and locations are alike when only offsets differ, and the bytes of line breaks. -/
def Likeness.rewritten (ending : LineEnding) : Likeness where
  lexers := Lexer.Rewritten ending
  places token place place' := place'.location = place.location ∧
    (place'.text = place.text ∨ token = .symbol .endOfStatement ∧
      place.text = [Byte.lineFeed] ∧ place'.text = ending.bytes)
  locations location location' := location' = location

namespace Lexer.Rewritten

variable {ending : LineEnding} {lexer lexer' : Lexer} {first first' : Byte} {rest rest' : Bytes}

theorem exists_piece (both : lexer.Rewritten ending lexer')
    (remaining : lexer.rest = first :: rest) :
    ∃ first' rest', lexer'.rest = first' :: rest' ∧
      Segment.Rewritten ending (lexer.piece first rest).bytes (lexer'.piece first' rest').bytes
        (lexer.piece first rest).segment (lexer'.piece first' rest').segment := by
  have noReturn := both.noReturn
  have inside := both.inside
  rw [remaining] at noReturn
  rw [pieces_eq_cons remaining] at inside
  obtain ⟨first', rest', write_eq, rewritten⟩ :=
    Segment.exists_rewritten ending noReturn (inside _ List.mem_cons_self)
  refine ⟨first', rest', ?_, ?_⟩
  · rw [both.rest_eq, remaining, write_eq]
  · simpa only [piece, both.fresh_eq] using rewritten

variable (both : lexer.Rewritten ending lexer')
  (rewritten : Segment.Rewritten ending (lexer.piece first rest).bytes
    (lexer'.piece first' rest').bytes (lexer.piece first rest).segment
    (lexer'.piece first' rest').segment)

include both rewritten

theorem reports : List.Forall₂ (Likeness.rewritten ending).Reports
    ((lexer.piece first rest).reports lexer.file)
    ((lexer'.piece first' rest').reports lexer'.file) := by
  rw [both.file_eq]
  apply Likeness.reports_of_findings rewritten.findings_eq
  intro finding isFinding
  rcases rewritten.breaks with unbroken | ⟨quiet, _⟩
  · have unbroken' : Unbroken ((lexer.piece first rest).bytes.take finding.offset) :=
      fun b membership => unbroken b (List.mem_of_mem_take membership)
    have position := both.position.passAll ending unbroken'.noReturn
    rw [ending.write_of_unbroken unbroken'] at position
    rw [rewritten.taken_eq, ending.write_of_unbroken unbroken]
    exact position.location_eq lexer.file
  · rw [quiet] at isFinding
    cases isFinding

theorem placed (token : Token)
    (found : (lexer.piece first rest).segment.token? = some token) :
    (Likeness.rewritten ending).places token (lexer.placeOf (lexer.piece first rest).bytes)
      (lexer'.placeOf (lexer'.piece first' rest').bytes) := by
  constructor
  · simpa only [placeOf, both.file_eq] using both.position.location_eq lexer.file
  · have text_eq := rewritten.taken_eq
    rcases rewritten.breaks with unbroken | ⟨_, only⟩
    · rw [ending.write_of_unbroken unbroken] at text_eq
      exact .inl text_eq
    · obtain ⟨ends, isFeed⟩ := only token found
      rw [isFeed] at text_eq
      exact .inr ⟨ends, isFeed, text_eq.trans (List.append_nil _)⟩

theorem behind (remaining : lexer.rest = first :: rest) (remaining' : lexer'.rest = first' :: rest') :
    Lexer.Rewritten ending
      { lexer.behind first rest with
        fresh := (lexer.piece first rest).segment.freshAfter lexer.fresh }
      { lexer'.behind first' rest' with
        fresh := (lexer'.piece first' rest').segment.freshAfter lexer'.fresh } := by
  have noReturn := both.noReturn
  have inside := both.inside
  have rest_eq := both.rest_eq
  rw [remaining, ← piece_bytes_append] at noReturn
  rw [pieces_eq_cons remaining] at inside
  rw [remaining, remaining', ← piece_bytes_append, ← piece_bytes_append lexer, ending.write_append,
    rewritten.taken_eq] at rest_eq
  have noReturn' : Byte.carriageReturn ∉ (lexer.piece first rest).bytes :=
    fun membership => noReturn (List.mem_append_left _ membership)
  have position := both.position.passAll ending noReturn'
  rw [← rewritten.taken_eq] at position
  refine ⟨both.file_eq, ?_, List.append_cancel_left rest_eq, position, ?_, ?_⟩
  · simp only [Segment.freshAfter, rewritten.token?_eq, both.fresh_eq]
  · exact fun membership => noReturn (List.mem_append_right _ membership)
  · exact fun piece membership => inside piece (List.mem_cons_of_mem _ membership)

end Lexer.Rewritten

theorem Likeness.kept_rewritten (ending : LineEnding) : (Likeness.rewritten ending).Kept where
  replace both _ _ :=
    ⟨both.file_eq, both.fresh_eq, both.rest_eq, both.position, both.noReturn, both.inside⟩
  finish := by
    intro lexer lexer' both atEnd
    refine ⟨?_, ?_, .inl rfl⟩
    · rw [both.rest_eq, atEnd]
      exact ending.write_nil
    · simpa only [Lexer.placeOf, both.file_eq] using both.position.location_eq lexer.file
  piece := by
    intro lexer lexer' first rest both remaining
    obtain ⟨first', rest', remaining', rewritten⟩ := both.exists_piece remaining
    refine ⟨first', rest', remaining', rewritten.token?_eq, ?_, both.reports rewritten,
      both.placed rewritten, both.behind rewritten remaining remaining'⟩
    simp only [Segment.spellsName, rewritten.form_eq]

theorem Lexer.rewritten_ofSource (ending : LineEnding) (file : UInt32) {source : Bytes}
    (noReturn : Byte.carriageReturn ∉ source)
    (inside : ∀ piece ∈ Piece.ofSource source,
      piece.segment.form = .quoted → Byte.lineFeed ∉ piece.bytes) :
    (ofSource file source).Rewritten ending (ofSource file (ending.write source)) :=
  ⟨rfl, rfl, rfl, ⟨rfl, ⟨0, rfl, rfl⟩, rfl⟩, noReturn, inside⟩

namespace Sharing

/-- The answer is the same but for its span, and for its text if that is a line break. -/
structure Answer.Rewritten (ending : LineEnding) (a a' : Answer) : Prop where
  token_eq : a'.token = a.token
  location_eq : a'.place.location = a.place.location
  text_eq : a'.place.text = a.place.text ∨ a.token = .symbol .endOfStatement ∧
    a.place.text = [Byte.lineFeed] ∧ a'.place.text = ending.bytes
  added_eq : a'.added = a.added

variable {ending : LineEnding}

theorem reports_eq_of_rewritten {s s' : Scanned} (steps : (Likeness.rewritten ending).Steps s s') :
    s'.reports = s.reports := by
  apply Array.ext'
  have same : List.Forall₂ Eq s.reports.toList s'.reports.toList := by
    apply steps.reports.imp
    rintro ⟨location, fault⟩ ⟨location', fault'⟩ ⟨fault_eq, located⟩
    cases fault_eq
    cases located
    rfl
  rw [List.forall₂_eq_eq_eq] at same
  exact same.symm

/-- The steps leave the same session, so that the names have the same numbers and the same names are
refused. -/
theorem answers_rewritten {steps steps' : List Scanned}
    (same : List.Forall₂ (Likeness.rewritten ending).Steps steps steps') (session : Session) :
    List.Forall₂ (fun given given' => given.1.Rewritten ending given'.1 ∧ given'.2 = given.2)
      (session.answers (session.grantedSteps steps)) (session.answers (session.grantedSteps steps')) := by
  induction same generalizing session with
  | nil => exact .nil
  | @cons s s' steps steps' step _ ih =>
    have reports_eq := reports_eq_of_rewritten step
    have absorb_eq : session.absorb s' = session.absorb s := by
      simp only [Session.absorb, Session.internName, reports_eq, step.token_eq, step.spelledName_eq]
    obtain ⟨location_eq, text_eq⟩ := step.placed
    simp only [Session.grantedSteps, step.token_eq, absorb_eq]
    split
    · exact .nil
    · simp only [Session.answers, absorb_eq]
      refine .cons ⟨⟨step.token_eq, location_eq, text_eq, ?_⟩, rfl⟩ (ih _)
      rw [answer, answer, reports_eq]

/-- Carriage returns in place of the line feeds of a source, with or without line feeds behind them,
make no difference but to offsets and to the texts of line breaks, unless a literal has a line feed
inside. A source of less than 4 GiB is answered call by call. -/
theorem solo_rewritten (file : UInt32) (ending : LineEnding) {source : Bytes}
    (noReturn : Byte.carriageReturn ∉ source)
    (inside : ∀ piece ∈ Piece.ofSource source,
      piece.segment.form = .quoted → Byte.lineFeed ∉ piece.bytes) (calls : Nat) :
    ∃ session answers session' answers', solo file source calls = .ok (session, answers) ∧
      solo file (ending.write source) calls = .ok (session', answers') ∧
      (source.length < UInt32.size → answers.length = calls) ∧
      List.Forall₂ (fun given given' => given.1.Rewritten ending given'.1 ∧ given'.2 = given.2)
        answers answers' := by
  obtain ⟨session, solo_eq, _⟩ := solo_eq file source calls
  obtain ⟨session', solo_eq', _⟩ := Sharing.solo_eq file (ending.write source) calls
  have both := Lexer.rewritten_ofSource ending file noReturn inside
  have steps := (Likeness.kept_rewritten ending).firstSteps both calls
  exact ⟨session, _, session', _, solo_eq, solo_eq', fun short => length_answers file short calls,
    answers_rewritten steps _⟩

/-- A name, a literal, a cancelled line break and a parameter without a name, on three lines. -/
theorem solo_rewritten_continuation :
    let source : Bytes := [0x61, 0x0A, 0x22, 0x62, 0x22, 0x5C, 0x0A, 0x24]
    Byte.carriageReturn ∉ source ∧
      LineEnding.pair.write source =
        [0x61, 0x0D, 0x0A, 0x22, 0x62, 0x22, 0x5C, 0x0D, 0x0A, 0x24] ∧
      ∃ session answers session' answers', solo 1 source 5 = .ok (session, answers) ∧
        solo 1 (LineEnding.pair.write source) 5 = .ok (session', answers') ∧
        (source.length < UInt32.size → answers.length = 5) ∧
        List.Forall₂ (fun given given' => given.1.Rewritten .pair given'.1 ∧ given'.2 = given.2)
          answers answers' := by
  intro source
  have noReturn : Byte.carriageReturn ∉ source := by decide
  have inside : ∀ piece ∈ Piece.ofSource source,
      piece.segment.form = .quoted → Byte.lineFeed ∉ piece.bytes := by decide +kernel
  exact ⟨noReturn, by decide, solo_rewritten 1 .pair noReturn inside 5⟩

end Sharing

end AssemblyLexer
