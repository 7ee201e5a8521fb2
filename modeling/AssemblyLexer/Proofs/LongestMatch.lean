import AssemblyLexer.Proofs.Beside
import AssemblyLexer.Proofs.InPlaceCall
import AssemblyLexer.Proofs.Spelling

/-!
Operators are the longest ones. Each text that stands for an operator can be read byte
by byte from an operator of one byte, through operators all the way, so that growing an
operator for as long as there is a longer one does not stop before the longest text.
-/

set_option autoImplicit false

namespace AssemblyLexer

namespace TokenKind

/-- Every text that stands for an operator, for punctuation or for the end of a statement, with
its kind. -/
def spellings : List (Bytes × TokenKind) :=
  (catalogue.filter isPunctuator).map (fun kind => (Utf8.ofString kind.spelling, kind)) ++
    ([Byte.semicolon], endOfStatement) :: unpaired.map Prod.swap

/-- Of the texts that the bytes start with, the given one is the longest, and it has the given
kind. -/
structure LongestSpelling (bytes text : Bytes) (kind : TokenKind) : Prop where
  spelled : spellings.lookup text = some kind
  starts : text <+: bytes
  longest : ∀ entry ∈ spellings, entry.1 <+: bytes → entry.1.length ≤ text.length

theorem isPunctuator_of_ofByte? {b : Byte} {kind : TokenKind} (spelled : ofByte? b = some kind) :
    kind.isPunctuator := by
  have all : ∀ entry ∈ singles, entry.2.isPunctuator := by decide
  exact all (b, kind) (mem_singles spelled)

theorem isPunctuator_of_extended? {kind longer : TokenKind} {b : Byte}
    (extends' : kind.extended? b = some longer) : longer.isPunctuator := by
  have all : ∀ entry ∈ extensions, entry.2.2.isPunctuator := by decide
  exact all _ (mem_extensions extends')

theorem isPunctuator_grown {kind : TokenKind} (isPunctuator : kind.isPunctuator) (bytes : Bytes) :
    (kind.grown bytes).1.isPunctuator := by
  fun_induction grown kind bytes with
  | case1 => exact isPunctuator
  | case2 kind b rest longer extends' final taken grows ih =>
    rw [grows] at ih
    exact ih (isPunctuator_of_extended? extends')
  | case3 => exact isPunctuator

theorem mem_catalogue (kind : TokenKind) : kind ∈ catalogue :=
  List.mem_of_getElem? (ofOrdinal?_ordinal kind)

theorem lookup_spellings {kind : TokenKind} (isPunctuator : kind.isPunctuator) :
    ∀ text ∈ kind.texts, spellings.lookup text = some kind := by
  have all : ∀ kind ∈ catalogue, kind.isPunctuator →
      ∀ text ∈ kind.texts, spellings.lookup text = some kind := by
    decide
  exact all kind kind.mem_catalogue isPunctuator

/-- The operator that comes of appending one byte after another. -/
def ofText? : Bytes → Option TokenKind
  | [] => none
  | first :: more => (ofByte? first).bind (more.foldlM extended?)

theorem ofText?_isSome {entry : Bytes × TokenKind} (membership : entry ∈ spellings) :
    entry.1 = [Byte.semicolon] ∨ (ofText? entry.1).isSome := by
  have all : ∀ entry ∈ spellings, entry.1 = [Byte.semicolon] ∨ (ofText? entry.1).isSome := by
    decide
  exact all entry membership

theorem ne_nil_of_mem_spellings {entry : Bytes × TokenKind} (membership : entry ∈ spellings) :
    entry.1 ≠ [] := by
  rcases ofText?_isSome membership with isSemicolon | spelled
  · rw [isSemicolon]
    exact List.cons_ne_nil _ _
  · rintro isEmpty
    rw [isEmpty] at spelled
    cases spelled

/-- Growing takes whatever can be appended byte by byte. -/
theorem length_le_grown (kind : TokenKind) {more bytes : Bytes}
    (grows : (more.foldlM extended? kind).isSome) (starts : more <+: bytes) :
    more.length ≤ (kind.grown bytes).2 := by
  induction more generalizing kind bytes with
  | nil => exact Nat.zero_le _
  | cons b more ih =>
    obtain ⟨rest, rfl⟩ := starts
    rw [List.foldlM_cons] at grows
    cases extends' : kind.extended? b with
    | none =>
      rw [extends'] at grows
      cases grows
    | some longer =>
      rw [extends'] at grows
      rw [List.cons_append, grown, extends']
      exact Nat.succ_le_succ (ih longer grows (List.prefix_append more rest))

/-- A text that the bytes start with is no longer than what is grown of the first of them. -/
theorem exists_ofByte?_of_starts {text rest : Bytes} {first : Byte}
    (spelled : (ofText? text).isSome) (starts : text <+: first :: rest) :
    ∃ kind, ofByte? first = some kind ∧ text.length ≤ (kind.grown rest).2 + 1 := by
  cases text with
  | nil => cases spelled
  | cons b more =>
    obtain ⟨rfl, starts'⟩ := List.cons_prefix_cons.mp starts
    rw [ofText?] at spelled
    cases single : ofByte? b with
    | none =>
      rw [single] at spelled
      cases spelled
    | some kind =>
      rw [single] at spelled
      exact ⟨kind, rfl, Nat.succ_le_succ (kind.length_le_grown spelled starts')⟩

end TokenKind

namespace Segment

open TokenKind

variable {first : Byte} {rest : Bytes}

theorem longestSpelling_operator {kind : TokenKind} (spelled : ofByte? first = some kind)
    (rest : Bytes) :
    LongestSpelling (first :: rest) (first :: rest.take (kind.grown rest).2)
      (kind.grown rest).1 where
  spelled := by
    have isPunctuator := isPunctuator_grown (isPunctuator_of_ofByte? spelled) rest
    have isText := kind.mem_texts_grown rest [first] (mem_texts_of_ofByte? spelled)
    exact lookup_spellings isPunctuator _ isText
  starts := List.prefix_cons_inj first |>.mpr (List.take_prefix _ _)
  longest := by
    intro entry membership starts
    rw [List.length_cons, List.length_take_of_le (kind.grown_le rest)]
    rcases ofText?_isSome membership with isSemicolon | spelled'
    · rw [isSemicolon]
      exact Nat.le_add_left _ _
    · obtain ⟨kind', spelled'', length_le⟩ := exists_ofByte?_of_starts spelled' starts
      cases spelled.symm.trans spelled''
      exact length_le

theorem longestSpelling_semicolon (rest : Bytes) :
    LongestSpelling (Byte.semicolon :: rest) [Byte.semicolon] .endOfStatement where
  spelled := by decide
  starts := List.prefix_cons_inj Byte.semicolon |>.mpr List.nil_prefix
  longest := by
    intro entry membership starts
    rcases ofText?_isSome membership with isSemicolon | spelled
    · rw [isSemicolon]
    · obtain ⟨kind, single, _⟩ := exists_ofByte?_of_starts spelled starts
      cases single

theorem scan_of_ofByte? {kind : TokenKind} (spelled : ofByte? first = some kind) (fresh : Bool)
    (rest : Bytes) :
    scan fresh first rest =
      token .operator (kind.grown rest).2 (.symbol (kind.grown rest).1) := by
  have all : ∀ entry ∈ singles, entry.1.isOther := by decide
  rw [scan_of_isOther (all (first, kind) (mem_singles spelled)), operator, spelled]

/-- Where some text stands for an operator, the segment is the longest one. -/
theorem exists_longestSpelling {entry : Bytes × TokenKind} (membership : entry ∈ spellings)
    (starts : entry.1 <+: first :: rest) (fresh : Bool) :
    ∃ form tail kind, form.spells = false ∧
      scan fresh first rest = token form tail (.symbol kind) ∧
      LongestSpelling (first :: rest) (first :: rest.take tail) kind := by
  rcases ofText?_isSome membership with isSemicolon | spelled
  · rw [isSemicolon] at starts
    obtain ⟨rfl, _⟩ := List.cons_prefix_cons.mp starts
    exact ⟨.semicolon, 0, _, rfl, rfl, longestSpelling_semicolon rest⟩
  · obtain ⟨kind, single, _⟩ := exists_ofByte?_of_starts spelled starts
    exact ⟨.operator, _, _, rfl, scan_of_ofByte? single fresh rest,
      longestSpelling_operator single rest⟩

theorem longestSpelling_of_scan {fresh : Bool} {t : Token}
    (found : (scan fresh first rest).token? = some t)
    (isSpelled : t.kind.isPunctuator ∨ first = Byte.semicolon) :
    LongestSpelling (first :: rest) (first :: rest.take (scan fresh first rest).tail) t.kind := by
  have some_starts : ∃ entry ∈ spellings, entry.1 <+: first :: rest := by
    rcases isSpelled with isPunctuator | rfl
    · have lookup_eq := lookup_spellings isPunctuator _ (mem_texts_of_scan found isPunctuator)
      obtain ⟨_, _, spellings_eq, _⟩ := List.lookup_eq_some_iff.mp lookup_eq
      refine ⟨(first :: rest.take (scan fresh first rest).tail, t.kind), by simp [spellings_eq], ?_⟩
      exact (List.prefix_cons_inj first).mpr (List.take_prefix _ _)
    · exact ⟨([Byte.semicolon], .endOfStatement), by decide,
        (longestSpelling_semicolon rest).starts⟩
  obtain ⟨entry, membership, starts⟩ := some_starts
  obtain ⟨form, tail, kind, _, scan_eq, longest⟩ := exists_longestSpelling membership starts fresh
  rw [scan_eq] at found ⊢
  cases found
  exact longest

end Segment

namespace Scanner

variable {s : Session} {lexer : Lexer} {first : Byte} {rest : Bytes} {form : SegmentForm}
  {tail : Nat} {t : Token}

/-- A token that carries no name leaves the session as it is. -/
theorem Reaches.eq_done {stage : Stage}
    (reaches : Reaches s lexer first rest (.token form tail t) stage)
    (unspelled : form.spells = false) (unnamed : t.name? = none) :
    ∃ c : Scanner, stage = .done s c t none ∧
      c.place = .ok (lexer.placeOf (first :: rest.take tail)) := by
  have session_eq : s.clearWhen (Segment.token form tail t).form.spells = s := by
    change s.clearWhen form.spells = s
    rw [unspelled]
    rfl
  cases reaches with
  | silence none => cases none
  | refused found named =>
    cases found
    cases unnamed.symm.trans named
  | @token c t after name? found _ given follows placed =>
    cases found
    rw [afterPiece_of_silent rfl, session_eq, give_of_name?_eq_none unnamed] at given
    cases given
    exact ⟨c, rfl, placed⟩

theorem Follows.exists_done {c : Scanner} (follows : c.Follows lexer) (rooted : s.names.Rooted)
    (remaining : lexer.rest = first :: rest)
    (scan_eq : Segment.scan lexer.fresh first rest = .token form tail t)
    (unspelled : form.spells = false) (unnamed : t.name? = none) :
    ∃ c' : Scanner, c'.place = .ok (lexer.placeOf (first :: rest.take tail)) ∧
      ∀ count, 2 * (first :: rest.take tail).length ≤ count →
        (Stage.again s c c.startMode).steps count = .ok (.done s c' t none) := by
  obtain ⟨n, later, n_le, steps_eq, reaches⟩ := follows.exists_steps remaining rooted .start
  rw [scan_eq] at reaches
  rw [Lexer.piece, scan_eq] at n_le
  obtain ⟨c', rfl, placed⟩ := reaches.eq_done unspelled unnamed
  refine ⟨c', placed, ?_⟩
  intro count count_ge
  exact steps_of_done steps_eq (Nat.le_trans n_le count_ge)

end Scanner

namespace Lexer

open TokenKind

variable {lexer : Lexer} {first : Byte} {rest : Bytes}

theorem longestSpelling_of_mem_run {file : UInt32} {source : Bytes} {s : Scanned}
    (membership : s ∈ (ofSource file source).run.1)
    (isSpelled : s.token.kind.isPunctuator ∨ s.token.kind = .endOfStatement ∧
      (source.drop s.place.span.start).head? = some Byte.semicolon) :
    LongestSpelling (source.drop s.place.span.start) s.place.text s.token.kind := by
  have origin := origin_of_mem_run membership
  generalize s.token = t, s.place = place at origin isSpelled ⊢
  cases origin with
  | atEnd =>
    rcases isSpelled with isPunctuator | isEnd
    · cases isPunctuator
    · cases isEnd.1
  | @piece piece _ membership found =>
    obtain ⟨passed, first, rest, stands⟩ := Piece.stands_of_mem_ofSource membership
    have behind_eq : source.drop (piece.place file).span.start = first :: rest := by
      rw [stands.source_eq]
      exact List.drop_left' stands.offset_eq.symm
    rw [behind_eq] at isSpelled ⊢
    rw [stands.segment_eq] at found
    rw [Piece.place, stands.bytes_eq, stands.segment_eq]
    exact Segment.longestSpelling_of_scan found
      (isSpelled.imp_right fun isEnd => Option.some.inj isEnd.2)

theorem scanFrom_of_token {form : SegmentForm} {tail : Nat} {t : Token}
    (remaining : lexer.rest = first :: rest) (unspelled : form.spells = false)
    (scan_eq : Segment.scan lexer.fresh first rest = .token form tail t)
    (found : Array Report) (spelledName : Bool) :
    (lexer.scanFrom found spelledName).1 =
      ⟨t, lexer.placeOf (first :: rest.take tail), found, spelledName⟩ := by
  have piece_eq : lexer.piece first rest =
      ⟨lexer.position, lexer.fresh, first :: rest.take tail, .token form tail t⟩ := by
    rw [piece, scan_eq]
    rfl
  have spellsName_eq : (Segment.token form tail t).spellsName = false := unspelled
  rw [scanFrom_cons remaining, piece_eq]
  dsimp only
  rw [spellsName_eq, Bool.or_false]
  simp [Segment.token, Piece.reports]

/-- Operators, punctuation and the semicolon are read as the longest text of them that the source
goes on with. Wherever a lexer stands at such a text it takes the longest one, and a scanner that
stands there does so in a few turns. -/
theorem takes_longest (file : UInt32) (source : Bytes) :
    (∀ s ∈ (ofSource file source).run.1,
      let behind := source.drop s.place.span.start
      s.token.kind.isPunctuator ∨
          s.token.kind = .endOfStatement ∧ behind.head? = some Byte.semicolon →
        LongestSpelling behind s.place.text s.token.kind) ∧
      ∀ lexer : Lexer, (∃ entry ∈ spellings, entry.1 <+: lexer.rest) →
        ∃ text kind, LongestSpelling lexer.rest text kind ∧
          (∀ found spelledName, (lexer.scanFrom found spelledName).1 =
            ⟨.symbol kind, lexer.placeOf text, found, spelledName⟩) ∧
          ∀ c : Scanner, c.Follows lexer → ∀ s : Session, s.names.Rooted →
            ∃ c' : Scanner, c'.place = .ok (lexer.placeOf text) ∧
              ∀ count, 2 * text.length ≤ count →
                (Scanner.Stage.again s c c.startMode).steps count = .ok (.done s c' (.symbol kind) none) := by
  refine ⟨fun s membership isSpelled => longestSpelling_of_mem_run membership isSpelled, ?_⟩
  rintro lexer ⟨entry, membership, starts⟩
  have left : lexer.rest ≠ [] := by
    intro atEnd
    rw [atEnd, List.prefix_nil] at starts
    exact ne_nil_of_mem_spellings membership starts
  obtain ⟨first, rest, remaining⟩ := List.exists_cons_of_ne_nil left
  rw [remaining] at starts ⊢
  obtain ⟨form, tail, kind, unspelled, scan_eq, longest⟩ :=
    Segment.exists_longestSpelling membership starts lexer.fresh
  exact ⟨_, kind, longest, scanFrom_of_token remaining unspelled scan_eq,
    fun c follows s rooted => follows.exists_done rooted remaining scan_eq unspelled rfl⟩

/-- The plus sign is kept in mind over the shift, and the third angle bracket is left. -/
theorem takes_longest_unsigned_shift :
    let source := Utf8.ofString "+>>>=;"
    let all := (ofSource 1 source).run.1
    let scanner := Scanner.ofBuffer 1 ⟨0, source⟩
    (∃ s ∈ all, s.token = .symbol .greaterEqual ∧
        LongestSpelling (source.drop s.place.span.start) s.place.text .greaterEqual) ∧
      (∃ s ∈ all, s.token = .symbol .endOfStatement ∧
        LongestSpelling (source.drop s.place.span.start) s.place.text .endOfStatement) ∧
      ∃ c', (Scanner.Stage.again .initial scanner scanner.startMode).steps 6 =
        .ok (.done .initial c' (.symbol .unsignedShiftRight) none) := by
  intro source all scanner
  obtain ⟨longest, takes⟩ := takes_longest 1 source
  have later : (all[1]?.map fun s => s.token) = some (.symbol .greaterEqual) ∧
      (all[2]?.map fun s => (s.token, s.place.span.start)) = some (.symbol .endOfStatement, 5) := by
    decide +kernel
  obtain ⟨s, s_eq, s_token⟩ := Option.map_eq_some_iff.mp later.1
  obtain ⟨t, t_eq, t_pair⟩ := Option.map_eq_some_iff.mp later.2
  obtain ⟨t_token, t_start⟩ := Prod.mk.inj t_pair
  have s_mem : s ∈ all := Array.mem_of_getElem? s_eq
  have t_mem : t ∈ all := Array.mem_of_getElem? t_eq
  refine ⟨⟨s, s_mem, s_token, ?_⟩, ⟨t, t_mem, t_token, ?_⟩, ?_⟩
  · have longest_s := longest s s_mem
    rw [s_token] at longest_s
    exact longest_s (.inl rfl)
  · have longest_t := longest t t_mem
    rw [t_token, t_start] at longest_t
    rw [t_start]
    exact longest_t (.inr ⟨rfl, by decide⟩)
  · obtain ⟨text, kind, _, scanFrom_eq, steps⟩ := takes (ofSource 1 source)
      ⟨(Utf8.ofString "+", .add), by decide, by decide⟩
    have first_eq : (fun found : Scanned => (found.token, found.place.text.length))
        ((ofSource 1 source).scanFrom #[] false).1 = (.symbol .unsignedShiftRight, 3) := by
      decide +kernel
    rw [scanFrom_eq] at first_eq
    obtain ⟨token_eq, text_eq⟩ := Prod.mk.inj first_eq
    have length_eq : text.length = 3 := text_eq
    cases token_eq
    obtain ⟨c', _, steps_eq⟩ := steps scanner (Scanner.follows_ofBuffer 1 ⟨0, source⟩) .initial
      Session.rooted_initial
    exact ⟨c', steps_eq 6 (by rw [length_eq])⟩

end Lexer

end AssemblyLexer
