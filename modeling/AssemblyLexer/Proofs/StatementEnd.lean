import AssemblyLexer.Proofs.PieceToken
import AssemblyLexer.Proofs.Tiling
import AssemblyLexer.Proofs.Unbroken

/-!
Ends of statements. A line break ends a statement that has begun, which is known
from the tokens before it whatever else lies in between, and every semicolon
ends one, whether it has begun or not.
-/

set_option autoImplicit false

namespace AssemblyLexer

theorem IsBreak.isLineBreak {after bytes : Bytes} (isBreak : IsBreak after bytes) {b : Byte}
    (membership : b ∈ bytes) : b.isLineBreak := by
  cases isBreak with
  | pair =>
    rcases List.mem_pair.mp membership with rfl | rfl <;> rfl
  | _ =>
    obtain rfl := List.mem_singleton.mp membership
    rfl

/-- Behind these tokens a statement has begun: there is one, and the last is no end. -/
def Token.begun (tokens : List Token) : Bool :=
  tokens.getLast?.any fun t => t.kind ≠ .endOfStatement

theorem Token.begun_append_singleton (earlier : List Token) (t : Token) :
    begun (earlier ++ [t]) = (t.kind ≠ .endOfStatement : Bool) := by
  rw [begun, List.getLast?_concat, Option.any_some]

theorem Segment.freshAfter_eq (s : Segment) {earlier : List Token} {fresh : Bool}
    (fresh_eq : fresh = !Token.begun earlier) :
    s.freshAfter fresh = !Token.begun (earlier ++ s.token?.toList) := by
  rw [freshAfter]
  cases s.token? with
  | none => rw [Option.toList_none, List.append_nil, fresh_eq]
  | some t =>
    rw [Option.toList_some, Token.begun_append_singleton]
    simp

namespace Piece

def tokens (pieces : List Piece) : List Token :=
  pieces.filterMap fun piece => piece.segment.token?

theorem tokens_cons (piece : Piece) (pieces : List Piece) :
    tokens (piece :: pieces) = piece.segment.token?.toList ++ tokens pieces := by
  rw [tokens, List.filterMap_cons]
  cases piece.segment.token? <;> rfl

variable {earlier : List Token} {before after : List Piece} {piece : Piece}

/-- A piece among others: it was scanned from the bytes that it and the pieces behind it have, and
whether a statement starts there is known from the tokens before it. -/
structure Among (earlier : List Token) (before : List Piece) (piece : Piece) (after : List Piece)
    (first : Byte) (rest : Bytes) : Prop where
  segment_eq : piece.segment = Segment.scan piece.fresh first rest
  bytes_eq : piece.bytes = first :: rest.take piece.segment.tail
  after_eq : join after = rest.drop piece.segment.tail
  fresh_eq : piece.fresh = !Token.begun (earlier ++ tokens before)

theorem among_of_cut (fresh : Bool) (position : Position) (bytes : Bytes) :
    ∀ earlier before, fresh = !Token.begun earlier →
      cut fresh position bytes = before ++ piece :: after →
        ∃ first rest, Among earlier before piece after first rest := by
  fun_induction cut fresh position bytes with
  | case1 =>
    intro earlier before _ split
    cases before <;> cases split
  | case2 fresh position first rest segment bytes ih =>
    intro earlier before fresh_eq split
    cases before with
    | nil =>
      obtain ⟨rfl, rfl⟩ := List.cons.inj split
      refine ⟨first, rest, rfl, rfl, join_cut _ _ _, ?_⟩
      rw [fresh_eq, tokens, List.filterMap_nil, List.append_nil]
    | cons head before =>
      obtain ⟨rfl, later⟩ := List.cons.inj split
      obtain ⟨first', rest', among⟩ := ih _ before (segment.freshAfter_eq fresh_eq) later
      refine ⟨first', rest', among.segment_eq, among.bytes_eq, among.after_eq, ?_⟩
      rw [among.fresh_eq, tokens_cons, List.append_assoc]

variable {source : Bytes}

theorem among_of_ofSource (split : ofSource source = before ++ piece :: after) :
    ∃ first rest, Among [] before piece after first rest :=
  among_of_cut true .initial source [] before rfl split

/-- What becomes of a piece with a line break in it, given whether a statement has begun and the
bytes that follow. -/
inductive Broken (begun : Bool) (following : Bytes) (piece : Piece) : Prop
  | quoted {quote : Byte} (isQuote : Quoted.IsQuote quote)
      (starts : piece.bytes.head? = some quote)
  | continuation {lineBreak : Bytes} (isBreak : IsBreak following lineBreak)
      (bytes_eq : piece.bytes = Byte.backslash :: lineBreak)
      (silent : piece.segment.token? = none) (faultless : piece.segment.findings = [])
  | alone (isBreak : IsBreak following piece.bytes)
      (ends : piece.segment.token? = if begun then some (.symbol .endOfStatement) else none)
      (faultless : piece.segment.findings = [])

theorem Among.closes {first : Byte} {rest : Bytes}
    (among : Among earlier before piece after first rest) :
    Segment.Closes piece.fresh first rest piece.segment := by
  rw [among.segment_eq]
  exact Segment.closes_scan piece.fresh first rest

theorem Among.isBreak {first : Byte} {rest : Bytes} (among : Among [] before piece after first rest)
    (isBreak : first.isLineBreak)
    (segment_eq : piece.segment = Segment.lineBreak piece.fresh first rest) :
    IsBreak (join after) piece.bytes := by
  have stands := Segment.isBreak_of_isLineBreak isBreak rest
  have tail_eq : piece.segment.tail = Segment.breakTail first rest := by
    rw [segment_eq]
    rfl
  rwa [← tail_eq, ← among.bytes_eq, ← among.after_eq] at stands

theorem Among.broken {first : Byte} {rest : Bytes} (among : Among [] before piece after first rest)
    (isBreak : first.isLineBreak)
    (segment_eq : piece.segment = Segment.lineBreak piece.fresh first rest) :
    piece.Broken (Token.begun (tokens before)) (join after) := by
  apply Broken.alone (among.isBreak isBreak segment_eq)
  · rw [segment_eq, among.fresh_eq, List.nil_append, Segment.lineBreak]
    cases Token.begun (tokens before) <;> rfl
  · rw [segment_eq]
    rfl

/-- A backslash takes the line break behind it, if there is one. -/
inductive Cancels (following : Bytes) (piece : Piece) : Prop
  | continuation {lineBreak : Bytes} (isBreak : IsBreak following lineBreak)
      (bytes_eq : piece.bytes = Byte.backslash :: lineBreak)
      (faultless : piece.segment.findings = [])
  | stray (stops : StopsClass Byte.isLineBreak following) (bytes_eq : piece.bytes = [Byte.backslash])

theorem Among.cancels {rest : Bytes} (among : Among [] before piece after Byte.backslash rest) :
    piece.segment.token? = none ∧ piece.Cancels (join after) := by
  obtain ⟨segment_eq, bytes_eq, after_eq, _⟩ := among
  have backslash_eq : piece.segment = Segment.backslash rest := segment_eq
  refine ⟨by rw [backslash_eq, Segment.token?_backslash], ?_⟩
  cases rest with
  | nil =>
    apply Cancels.stray
    · rw [after_eq, List.drop_nil]
      exact fun _ isHead => nomatch isHead
    · rw [bytes_eq, List.take_nil]
  | cons b rest =>
    by_cases isBreak : b.isLineBreak
    · have cancelled : piece.segment = Segment.skipped .continuation (Segment.breakTail b rest + 1) :=
        backslash_eq.trans (if_pos isBreak)
      have stands := Segment.isBreak_of_isLineBreak isBreak rest
      rw [cancelled, Segment.skipped] at bytes_eq after_eq
      rw [List.drop_succ_cons] at after_eq
      rw [← after_eq] at stands
      apply Cancels.continuation stands bytes_eq
      rw [cancelled]
      rfl
    · have stray : piece.segment = Segment.faulty .strayBackslash 0 .strayBackslash :=
        backslash_eq.trans (if_neg isBreak)
      rw [stray, Segment.faulty] at bytes_eq after_eq
      apply Cancels.stray
      · rw [after_eq]
        exact stopsClass_cons.mpr (Bool.eq_false_iff.mpr isBreak)
      · exact bytes_eq

/-- Line breaks stand in literals, behind a backslash, or by themselves. -/
theorem broken (split : ofSource source = before ++ piece :: after) {b : Byte}
    (membership : b ∈ piece.bytes) (isBreak : b.isLineBreak) :
    piece.Broken (Token.begun (tokens before)) (join after) := by
  obtain ⟨first, rest, among⟩ := among_of_ofSource split
  have closes := among.closes
  have bytes_eq := among.bytes_eq
  generalize segment_eq : piece.segment = s at closes bytes_eq
  rw [bytes_eq] at membership
  cases closes with
  | unended unended =>
    have goesOn := unended.unbroken b membership
    cases isBreak.symm.trans goesOn
  | comment =>
    have unbroken : Unbroken (Byte.hash :: rest.take (Segment.comment rest).tail) :=
      unbroken_cons.mpr ⟨rfl, Segment.unbroken_comment rest⟩
    cases isBreak.symm.trans (unbroken b membership)
  | quoted isQuote => exact .quoted isQuote (by rw [bytes_eq]; rfl)
  | backslash =>
    obtain ⟨silent, cancels⟩ := among.cancels
    cases cancels with
    | continuation isBreak' continuation_eq faultless =>
      exact .continuation isBreak' continuation_eq silent faultless
    | stray _ stray_eq =>
      rw [← bytes_eq, stray_eq] at membership
      obtain rfl := List.mem_singleton.mp membership
      cases isBreak
  | semicolon =>
    obtain rfl := List.mem_singleton.mp membership
    cases isBreak
  | lineBreak isBreak' => exact among.broken isBreak' segment_eq

/-- Semicolons stand in literals, in comments, or by themselves, and there they end a statement. -/
inductive Separated (piece : Piece) : Prop
  | quoted {quote : Byte} (isQuote : Quoted.IsQuote quote)
      (starts : piece.bytes.head? = some quote)
  | comment (starts : piece.bytes.head? = some Byte.hash)
  | alone (bytes_eq : piece.bytes = [Byte.semicolon])
      (ends : piece.segment.token? = some (.symbol .endOfStatement))

theorem separated (split : ofSource source = before ++ piece :: after)
    (membership : Byte.semicolon ∈ piece.bytes) : piece.Separated := by
  obtain ⟨first, rest, among⟩ := among_of_ofSource split
  have closes := among.closes
  have bytes_eq := among.bytes_eq
  generalize segment_eq : piece.segment = s at closes bytes_eq
  cases closes with
  | unended unended =>
    rw [bytes_eq] at membership
    cases unended Byte.semicolon membership
  | comment => exact .comment (by rw [bytes_eq]; rfl)
  | quoted isQuote => exact .quoted isQuote (by rw [bytes_eq]; rfl)
  | backslash =>
    cases among.cancels.2 with
    | continuation isBreak continuation_eq =>
      rw [continuation_eq] at membership
      rcases List.mem_cons.mp membership with isBackslash | inside
      · cases isBackslash
      · cases isBreak.isLineBreak inside
    | stray _ stray_eq =>
      rw [stray_eq] at membership
      cases List.mem_singleton.mp membership
  | semicolon =>
    apply Separated.alone bytes_eq
    rw [segment_eq]
    rfl
  | lineBreak isBreak =>
    cases (among.isBreak isBreak segment_eq).isLineBreak membership

/-- A piece that ends a statement is a semicolon, or else a line break behind a statement. -/
theorem begun_of_endOfStatement (split : ofSource source = before ++ piece :: after) {t : Token}
    (found : piece.segment.token? = some t) (ends : t.kind = .endOfStatement) :
    piece.bytes = [Byte.semicolon] ∨ Token.begun (tokens before) := by
  obtain ⟨first, rest, among⟩ := among_of_ofSource split
  have gives := Segment.gives_scan piece.fresh first rest
  rw [← among.segment_eq] at gives
  cases gives with
  | token found' _ _ stops =>
    obtain rfl := Option.some.inj (found'.symm.trans found)
    have bytes_eq := among.bytes_eq
    generalize piece.segment.tail = tail at stops bytes_eq
    cases stops ends with
    | semicolon => exact .inl bytes_eq
    | lineBreak isBreak =>
      right
      have membership : first ∈ piece.bytes := bytes_eq ▸ List.mem_cons_self
      cases broken split membership isBreak with
      | quoted isQuote starts =>
        rw [bytes_eq] at starts
        cases starts
        rcases isQuote with rfl | rfl <;> cases isBreak
      | continuation _ _ silent => cases silent.symm.trans found
      | alone _ ends' =>
        rw [found] at ends'
        by_contra none
        rw [if_neg none] at ends'
        cases ends'
  | fault none => cases none.symm.trans found
  | silence none => cases none.symm.trans found

theorem map_found? (file : UInt32) (pieces : List Piece) :
    (pieces.filterMap (found? file)).map Prod.fst = tokens pieces := by
  rw [List.map_filterMap, tokens]
  congr 1
  funext piece
  rw [found?, Option.map_map]
  exact Option.map_id'

/-- A piece that gives a token among others has the pieces of the tokens before it before it. -/
theorem exists_of_filterMap {file : UInt32} {pieces : List Piece} {earlier later : List (Token × Place)}
    {t : Token} {place : Place}
    (split : pieces.filterMap (found? file) = earlier ++ (t, place) :: later) :
    ∃ before piece after, pieces = before ++ piece :: after ∧ piece.segment.token? = some t ∧
      place.text = piece.bytes ∧ tokens before = earlier.map Prod.fst := by
  obtain ⟨left, right, rfl, left_eq, right_eq⟩ := List.filterMap_eq_append_iff.mp split
  obtain ⟨silent, piece, after, rfl, none, found, _⟩ := List.filterMap_eq_cons_iff.mp right_eq
  obtain ⟨token, token_eq, pair_eq⟩ := Option.map_eq_some_iff.mp found
  obtain ⟨rfl, rfl⟩ := Prod.mk.inj pair_eq
  refine ⟨left ++ silent, piece, after, (List.append_assoc _ _ _).symm, token_eq, rfl, ?_⟩
  rw [← left_eq, ← map_found? file (left ++ silent), List.filterMap_append,
    List.filterMap_eq_nil_iff.mpr none, List.append_nil]

end Piece

namespace Lexer

/-- What the line breaks, the backslashes and the semicolons of a source come to. -/
structure EndsStatements (file : UInt32) (source : Bytes) (all : List Scanned) : Prop where
  /-- The pieces make up the source, and the tokens are theirs. -/
  join_eq : Piece.join (Piece.ofSource source) = source
  tokens_eq : all.map (fun s => (s.token, s.place)) =
    (Piece.ofSource source).filterMap (Piece.found? file) ++
      [(.symbol .endOfSource, (ofSource file source).endPlace)]
  /-- Outside of literals and not behind a backslash, a line break ends a statement that has begun,
  and gives nothing when none has. -/
  broken : ∀ before piece after, Piece.ofSource source = before ++ piece :: after →
    (∃ b ∈ piece.bytes, b.isLineBreak) →
      piece.Broken (Token.begun (Piece.tokens before)) (Piece.join after)
  cancels : ∀ before piece after, Piece.ofSource source = before ++ piece :: after →
    piece.bytes.head? = some Byte.backslash →
      piece.segment.token? = none ∧ piece.Cancels (Piece.join after)
  separated : ∀ piece ∈ Piece.ofSource source, Byte.semicolon ∈ piece.bytes → piece.Separated
  /-- An end that is no semicolon follows a token that is no end. -/
  preceded : ∀ earlier s later, all = earlier ++ s :: later → s.token.kind = .endOfStatement →
    s.place.text = [Byte.semicolon] ∨
      ∃ t ∈ earlier.getLast?, t.token.kind ≠ .endOfStatement

theorem preceded {file : UInt32} {source : Bytes} {earlier later : List Scanned} {s : Scanned}
    (split : (ofSource file source).run.1.toList = earlier ++ s :: later)
    (ends : s.token.kind = .endOfStatement) :
    s.place.text = [Byte.semicolon] ∨
      ∃ t ∈ earlier.getLast?, t.token.kind ≠ .endOfStatement := by
  have tokens_eq := (run_found file source).1
  rw [split, List.map_append, List.map_cons] at tokens_eq
  rcases List.eq_nil_or_concat later with rfl | ⟨more, last, rfl⟩
  · obtain ⟨_, own⟩ := List.append_inj' tokens_eq rfl
    have token_eq : s.token = .symbol .endOfSource := congrArg Prod.fst (List.cons.inj own).1
    rw [token_eq] at ends
    cases ends
  · rw [List.concat_eq_append, List.map_append, ← List.cons_append, ← List.append_assoc] at tokens_eq
    obtain ⟨found, _⟩ := List.append_inj' tokens_eq rfl
    obtain ⟨before, piece, after, pieces_eq, token_eq, text_eq, before_eq⟩ :=
      Piece.exists_of_filterMap found.symm
    rw [text_eq]
    apply (Piece.begun_of_endOfStatement pieces_eq token_eq ends).imp_right
    intro begun
    rw [before_eq, List.map_map, Token.begun, List.getLast?_map, Option.any_map] at begun
    cases last_eq : earlier.getLast? with
    | none =>
      rw [last_eq] at begun
      cases begun
    | some t =>
      rw [last_eq] at begun
      exact ⟨t, rfl, of_decide_eq_true begun⟩

theorem run_endsStatements (file : UInt32) (source : Bytes) :
    EndsStatements file source (ofSource file source).run.1.toList where
  join_eq := Piece.join_cut _ _ _
  tokens_eq := (run_found file source).1
  broken := by
    rintro before piece after split ⟨b, membership, isBreak⟩
    exact Piece.broken split membership isBreak
  cancels := by
    intro before piece after split starts
    obtain ⟨first, rest, among⟩ := Piece.among_of_ofSource split
    rw [among.bytes_eq] at starts
    cases starts
    exact among.cancels
  separated := by
    intro piece membership
    obtain ⟨before, after, split⟩ := List.append_of_mem membership
    exact Piece.separated split
  preceded _ _ _ := preceded

end Lexer

end AssemblyLexer
