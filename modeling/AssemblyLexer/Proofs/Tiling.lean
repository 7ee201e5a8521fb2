import AssemblyLexer.Proofs.Run
import AssemblyLexer.Proofs.SessionLog
import AssemblyLexer.Proofs.Stretch

/-!
Gaps and tokens tile a source. A run that finds no fault leaves nothing out but
blanks, comments, cancelled line breaks and line breaks between statements.
-/

set_option autoImplicit false

namespace AssemblyLexer

/-- One line break, given the bytes that follow it. -/
inductive IsBreak (after : Bytes) : Bytes → Prop
  | lineFeed : IsBreak after [Byte.lineFeed]
  | pair : IsBreak after [Byte.carriageReturn, Byte.lineFeed]
  | carriageReturn (alone : after.head? ≠ some Byte.lineFeed) : IsBreak after [Byte.carriageReturn]

/-- What may stand between tokens, given the bytes that follow it. Bare line breaks may do so only
in a loose gap. -/
inductive Gap (loose : Bool) (after : Bytes) : Bytes → Prop
  | nil : Gap loose after []
  | blank {b : Byte} {gap : Bytes} (isBlank : b.isBlank) (later : Gap loose after gap) :
      Gap loose after (b :: gap)
  | continuation {lineBreak gap : Bytes} (isBreak : IsBreak (gap ++ after) lineBreak)
      (later : Gap loose after gap) : Gap loose after (Byte.backslash :: lineBreak ++ gap)
  | comment {text gap : Bytes} (inside : ∀ b ∈ text, !b.isLineBreak)
      (ends : ∀ b ∈ (gap ++ after).head?, b.isLineBreak) (later : Gap loose after gap) :
      Gap loose after (Byte.hash :: text ++ gap)
  | lineBreak {lineBreak gap : Bytes} (isLoose : loose = true)
      (isBreak : IsBreak (gap ++ after) lineBreak) (later : Gap loose after gap) :
      Gap loose after (lineBreak ++ gap)

/-- Gaps and tokens alternate from an offset on, up to the end of the source. A gap is loose at the
start of the source and behind the end of a statement. -/
inductive Tiles : Bool → Nat → Bytes → List Scanned → Prop
  | last {loose : Bool} {offset : Nat} {gap : Bytes} {s : Scanned} (isGap : Gap loose [] gap)
      (token_eq : s.token = .symbol .endOfSource) (text_eq : s.place.text = [])
      (span_eq : s.place.span = ⟨offset + gap.length, offset + gap.length⟩) :
      Tiles loose offset gap [s]
  | token {loose : Bool} {offset : Nat} {gap source : Bytes} {s : Scanned} {all : List Scanned}
      (isGap : Gap loose (s.place.text ++ source) gap)
      (kind_ne : s.token.kind ≠ .endOfSource) (text_ne : s.place.text ≠ [])
      (span_eq : s.place.span =
        ⟨offset + gap.length, offset + gap.length + s.place.text.length⟩)
      (later : Tiles (s.token.kind = .endOfStatement) s.place.span.stop source all) :
      Tiles loose offset (gap ++ (s.place.text ++ source)) (s :: all)

namespace Tiles

variable {loose : Bool} {offset : Nat} {source : Bytes} {all : List Scanned}

theorem offset_le (tiles : Tiles loose offset source all) {s : Scanned} (membership : s ∈ all) :
    offset ≤ s.place.span.start := by
  induction tiles with
  | last _ _ _ span_eq =>
    obtain rfl := List.mem_singleton.mp membership
    rw [span_eq]
    exact Nat.le_add_right _ _
  | token _ _ _ span_eq _ ih =>
    rcases List.mem_cons.mp membership with rfl | later
    · rw [span_eq]
      exact Nat.le_add_right _ _
    · have stop_le := ih later
      rw [span_eq] at stop_le
      dsimp only at stop_le
      omega

theorem pairwise (tiles : Tiles loose offset source all) :
    all.Pairwise fun s t => s.place.span.stop ≤ t.place.span.start := by
  induction tiles with
  | last => exact List.pairwise_singleton _ _
  | token _ _ _ _ later ih =>
    exact List.pairwise_cons.mpr ⟨fun t membership => later.offset_le membership, ih⟩

end Tiles

namespace Segment

theorem isBreak_of_isLineBreak {first : Byte} (isBreak : first.isLineBreak) (rest : Bytes) :
    IsBreak (rest.drop (breakTail first rest)) (first :: rest.take (breakTail first rest)) := by
  rcases Byte.isLineBreak_iff.mp isBreak with rfl | rfl
  · exact .lineFeed
  · by_cases paired : rest.head? = some Byte.lineFeed
    · obtain ⟨rest, rfl⟩ := List.head?_eq_some_iff.mp paired
      exact .pair
    · rw [breakTail, if_neg fun both => paired both.2]
      exact .carriageReturn paired

theorem gap_of_silent {fresh : Bool} {first : Byte} {rest gap after : Bytes} {tail : Nat}
    (silent : Silent fresh first rest tail) (split : rest.drop tail = gap ++ after)
    (later : Gap fresh after gap) : Gap fresh after (first :: rest.take tail ++ gap) := by
  cases silent with
  | blank isBlank => exact .blank isBlank later
  | comment =>
    obtain ⟨text, behind, rest_eq, inside, ends, text_eq, behind_eq⟩ :=
      exists_stretch (fun b => !b.isLineBreak) rest
    rw [text_eq, behind_eq] at split
    rw [text_eq, rest_eq, List.take_left]
    apply Gap.comment inside _ later
    intro b isHead
    rw [← split] at isHead
    simpa using ends b isHead
  | @continuation b rest isBreak =>
    have stands := isBreak_of_isLineBreak isBreak rest
    rw [List.drop_succ_cons] at split
    rw [split] at stands
    rw [List.take_succ_cons]
    exact .continuation stands later
  | lineBreak begins isBreak =>
    have stands := isBreak_of_isLineBreak isBreak rest
    rw [split] at stands
    exact .lineBreak begins stands later

end Segment

namespace Lexer

variable {lexer last after : Lexer} {skipped : List Piece} {s : Scanned} {all : List Scanned}

theorem Skips.gap (skips : lexer.Skips skipped last)
    (faultless : ∀ piece ∈ skipped, piece.segment.findings = []) :
    Gap lexer.fresh last.rest (Piece.join skipped) := by
  induction skips with
  | done => exact .nil
  | @skip lexer last first rest skipped remaining silent later ih =>
    have none_found := faultless _ List.mem_cons_self
    have isGap := ih fun piece membership => faultless piece (List.mem_cons_of_mem _ membership)
    cases Segment.gives_scan lexer.fresh first rest with
    | token found => cases silent.symm.trans found
    | fault _ faults => exact absurd none_found faults
    | silence _ _ kept => exact Segment.gap_of_silent kept later.rest_eq isGap

theorem faultless_of_scanned {token : Token} {place : Place} {file : UInt32} {found : List Piece}
    (quiet : (scanned token place file found).reports = #[]) :
    ∀ piece ∈ found, piece.segment.findings = [] := by
  intro piece membership
  have none_reported : found.flatMap (Piece.reports file) = [] := by
    simpa [scanned] using quiet
  have reports_eq := List.flatMap_eq_nil_iff.mp none_reported piece membership
  simpa [Piece.reports] using reports_eq

theorem Skips.offset_eq (skips : lexer.Skips skipped last) :
    last.position.offset = lexer.position.offset + (Piece.join skipped).length := by
  rw [skips.position_eq, Position.offset_passAll]

theorem Runs.tiles (runs : lexer.Runs all after) (quiet : ∀ s ∈ all, s.reports = #[]) :
    Tiles lexer.fresh lexer.position.offset lexer.rest all := by
  induction runs with
  | last finishes =>
    cases finishes with
    | @intro last skipped skips atEnd =>
      have faultless := faultless_of_scanned (quiet _ List.mem_cons_self)
      have isGap := skips.gap faultless
      rw [skips.rest_eq, atEnd, List.append_nil]
      rw [atEnd] at isGap
      apply Tiles.last isGap rfl rfl
      rw [scanned, placeOf, skips.offset_eq]
      rfl
  | more takes later ih =>
    have kind_ne := takes.kind_ne
    cases takes with
    | @intro last skipped first rest token skips remaining found =>
      have faultless := faultless_of_scanned (quiet _ List.mem_cons_self)
      have isGap := skips.gap fun piece membership =>
        faultless piece (List.mem_append_left _ membership)
      have tiles := ih fun s membership => quiet s (List.mem_cons_of_mem _ membership)
      rw [remaining, ← piece_bytes_append] at isGap
      rw [skips.rest_eq, remaining, ← piece_bytes_append last first rest]
      apply Tiles.token isGap kind_ne (List.cons_ne_nil _ _)
      · rw [scanned, placeOf, skips.offset_eq]
      · have stop_eq : (last.behind first rest).position.offset =
            last.position.offset + (last.piece first rest).bytes.length :=
          Position.offset_passAll _ _
        dsimp only at tiles
        rw [stop_eq] at tiles
        exact tiles

end Lexer

/-- What a whole run adds to the log are errors. When it adds none, the source consists of the
texts of the tokens and of gaps between them, and the spans follow one another. -/
theorem Session.absorbAll_tiles (session : Session) (file : UInt32) (source : Bytes) :
    let all := (Lexer.ofSource file source).run.1
    ∃ added, (session.absorbAll all).log.entries.toList =
        session.log.entries.toList ++ added ∧
      (∀ diagnostic ∈ added, diagnostic.severity = .error) ∧
      (added = [] → Tiles true 0 source all.toList ∧
        all.toList.Pairwise fun s t => s.place.span.stop ≤ t.place.span.start) := by
  intro all
  refine ⟨_, session.log_entries_absorbAll all, ?_, ?_⟩
  · intro diagnostic membership
    obtain ⟨scanned, _, reported⟩ := List.mem_flatMap.mp membership
    obtain ⟨report, _, rfl⟩ := List.mem_map.mp reported
    rfl
  · intro none_added
    have quiet : ∀ s ∈ all.toList, s.reports = #[] := by
      intro s membership
      have none_mapped := List.flatMap_eq_nil_iff.mp none_added s membership
      exact Array.toList_eq_nil_iff.mp (List.map_eq_nil_iff.mp none_mapped)
    have tiles : Tiles true 0 source all.toList :=
      (Lexer.ofSource file source).run_runs.tiles quiet
    exact ⟨tiles, tiles.pairwise⟩

/-- A cancelled line break, a name, a comment, the end of a statement, and an empty line. -/
theorem Session.absorbAll_tiles_comment :
    let source : Bytes := [0x5C, 0x0D, 0x0A, 0x61, 0x20, 0x23, 0x24, 0x0A, 0x0D, 0x0A, 0x2B]
    let all := (Lexer.ofSource 1 source).run.1
    all.toList.map (fun scanned => scanned.place.text) = [[0x61], [0x0A], [0x2B], []] ∧
      Tiles true 0 source all.toList := by
  intro source all
  obtain ⟨added, entries_eq, _, tiles⟩ := absorbAll_tiles .initial 1 source
  have none_added : added = [] := by
    have unchanged : (initial.absorbAll all).log.entries.toList = initial.log.entries.toList := by
      decide +kernel
    exact List.self_eq_append_right.mp (unchanged.symm.trans entries_eq)
  exact ⟨by decide +kernel, (tiles none_added).1⟩

end AssemblyLexer
