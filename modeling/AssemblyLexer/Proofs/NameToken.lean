import AssemblyLexer.Proofs.Reachable
import AssemblyLexer.Proofs.SegmentName

/-!
Tokens with names. Wherever a name or a parameter starts, the turn that is taken there
goes over the longest run of the bytes of names, and what the run has become in the
table of the session is what the token carries. Before a colon the run is a label if
the last token, when there is one, ends a statement. A run that the table refuses is
left pending.
-/

set_option autoImplicit false

namespace AssemblyLexer

/-- What may follow the name of a label. -/
def labelSuffixes : List Bytes :=
  [Utf8.ofString "::", Utf8.ofString ":?", Utf8.ofString ":"]

/-- Of all that may follow the name of a label, the longest that the bytes start with. -/
structure LabelSuffix (bytes suffix : Bytes) : Prop where
  listed : suffix ∈ labelSuffixes
  starts : suffix <+: bytes
  longest : ∀ other ∈ labelSuffixes, other <+: bytes → other.length ≤ suffix.length

/-- The scope of a label by its name and what follows the name. -/
def LabelScope.ofParts (name suffix : Bytes) : LabelScope :=
  if suffix = Utf8.ofString ":?" then .weakLabel
  else if name.head? = some Byte.dot then
    if suffix = Utf8.ofString "::" then .hiddenLabel else .localLabel
  else
    if suffix = Utf8.ofString "::" then .publicLabel else .privateLabel

theorem labelSuffix_pair {second : Byte} {later : Bytes}
    (listed : [Byte.colon, second] ∈ labelSuffixes) :
    LabelSuffix (Byte.colon :: second :: later) [Byte.colon, second] where
  listed := listed
  starts := ⟨later, rfl⟩
  longest := by
    have all : ∀ other ∈ labelSuffixes, other.length ≤ 2 := by decide
    exact fun other membership _ => all other membership

theorem labelSuffix_single {later : Bytes} (noColon : later.head? ≠ some Byte.colon)
    (noQuestion : later.head? ≠ some Byte.question) :
    LabelSuffix (Byte.colon :: later) [Byte.colon] where
  listed := by decide
  starts := ⟨later, rfl⟩
  longest := by
    have all : ∀ other ∈ labelSuffixes, other = [Byte.colon] ∨
        other = [Byte.colon, Byte.colon] ∨ other = [Byte.colon, Byte.question] := by decide
    intro other membership starts
    rcases all other membership with rfl | rfl | rfl
    · exact Nat.le_refl 1
    · obtain ⟨after, rfl⟩ := (List.cons_prefix_cons.mp starts).2
      exact absurd rfl noColon
    · obtain ⟨after, rfl⟩ := (List.cons_prefix_cons.mp starts).2
      exact absurd rfl noQuestion

/-- The scope is that of the longest text that may follow the name, of which all but the first
colon is taken with it. -/
theorem Segment.labelSuffix_labelScope (name later : Bytes) :
    let suffix := Byte.colon :: later.take (labelScope name later).2
    LabelSuffix (Byte.colon :: later) suffix ∧ (labelScope name later).1 = .ofParts name suffix := by
  have inner_eq : (name.head? == some Byte.dot) = decide (name.head? = some Byte.dot) :=
    beq_eq_decide _ _
  simp only [labelScope, inner_eq, decide_eq_true_eq]
  by_cases isColon : later.head? = some Byte.colon
  · obtain ⟨after, rfl⟩ := List.head?_eq_some_iff.mp isColon
    rw [if_pos isColon]
    exact ⟨labelSuffix_pair (by decide), rfl⟩
  by_cases isQuestion : later.head? = some Byte.question
  · obtain ⟨after, rfl⟩ := List.head?_eq_some_iff.mp isQuestion
    rw [if_neg isColon, if_pos isQuestion]
    exact ⟨labelSuffix_pair (by decide), rfl⟩
  · rw [if_neg isColon, if_neg isQuestion]
    exact ⟨labelSuffix_single isColon isQuestion, rfl⟩

namespace Scanner

variable {s : Session} {c : Scanner} {lexer : Lexer} {first : Byte} {rest : Bytes}
  {segment : Segment} {t : Token} {run : Bytes} {stage : Stage}

/-- A token that carries the run as its name is complete. It stands where the scanner did, with the
given text, and the scanner is behind it. -/
inductive Carries (s : Session) (c : Scanner) (t : Token) (run text : Bytes) (log : Log) :
    Stage → Prop
  | intro {s' : Session} {c' : Scanner} {name : Name} (names : s'.names.Names run name)
      (placed : c'.place = .ok ⟨c.locationAt c.cursor.position,
        ⟨c.cursor.position, c.cursor.position + text.length⟩, text⟩)
      (rest_eq : c'.rest = c.rest.drop text.length) (log_eq : s'.log = log) :
      Carries s c t run text log (.done s' c' t (some name))

/-- Behind the run and the byte after it, without a name that a token would carry. -/
inductive Nameless (c : Scanner) (run : Bytes) : Stage → Prop
  | again {s' : Session} {c' : Scanner} {mode : ScannerMode}
      (behind : c.cursor.position + run.length < c'.cursor.position) :
      Nameless c run (.again s' c' mode)
  | done {s' : Session} {c' : Scanner} {t : Token} (unnamed : t.name? = none)
      (behind : c.cursor.position + run.length < c'.cursor.position) :
      Nameless c run (.done s' c' t none)

theorem Reaches.carries (reaches : Reaches s lexer first rest segment stage)
    (starts : c.Starts lexer first rest) (indexed : s.names.Indexed) (within : segment.tail ≤ rest.length)
    (found : segment.token? = some t) (named : t.name? = some run) (granted : ¬s.names.Refuses run) :
    Carries s c t run (first :: rest.take segment.tail)
      (s.recordAll (lexer.reports (first :: rest.take segment.tail) segment.findings).toArray).log
      stage := by
  cases reaches with
  | silence none => cases none.symm.trans found
  | refused found' named' refuses =>
    cases found'.symm.trans found
    cases named'.symm.trans named
    exact absurd refuses granted
  | @token c' t' after name? found' _ given follows placed =>
    cases found'.symm.trans found
    rw [Session.give, named] at given
    cases given
    have start := starts.follows
    have cleared : (s.afterPiece lexer.file (pieceOf lexer first rest segment)).names.Indexed := by
      rw [Session.afterPiece, Session.clearWhen]
      split <;> exact indexed
    refine .intro (cleared.names_add _) ?_ ?_ ?_
    · rw [placed, start.locationAt_eq, start.counts.offset_eq]
      rfl
    · rw [follows.rest_eq, starts.rest_eq, List.length_cons, List.length_take_of_le within]
      rfl
    · rw [Session.afterPiece, Session.clearWhen]
      split <;> rfl

theorem Reaches.carries_token {form : SegmentForm} {tail : Nat}
    (reaches : Reaches s lexer first rest (.token form tail t) stage)
    (starts : c.Starts lexer first rest) (indexed : s.names.Indexed) (within : tail ≤ rest.length)
    (named : t.name? = some run) (granted : ¬s.names.Refuses run) :
    Carries s c t run (first :: rest.take tail) s.log stage := by
  have carries := reaches.carries starts indexed within rfl named granted
  have silent : s.recordAll (lexer.reports (first :: rest.take tail) []).toArray = s :=
    Session.recordAll_nil s
  rw [← silent]
  exact carries

/-- A run that the table refuses stays pending. -/
theorem Reaches.exists_refused (reaches : Reaches s lexer first rest segment stage)
    (found : segment.token? = some t) (named : t.name? = some run) (refuses : s.names.Refuses run) :
    ∃ c', stage = .refused (s.spelling run) c' := by
  cases reaches with
  | silence none => cases none.symm.trans found
  | refused found' named' =>
    cases found'.symm.trans found
    cases named'.symm.trans named
    exact ⟨_, rfl⟩
  | token found' granted =>
    cases found'.symm.trans found
    exact absurd ⟨run, named, refuses⟩ granted

theorem Reaches.nameless (reaches : Reaches s lexer first rest segment stage)
    (starts : c.Starts lexer first rest) (within : segment.tail ≤ rest.length)
    (longer : run.length ≤ segment.tail) (unnamed : ∀ t ∈ segment.token?, t.name? = none) :
    Nameless c run stage := by
  have offset_eq : (behindOf lexer first rest segment).position.offset =
      c.cursor.position + (segment.tail + 1) := by
    have length_eq : (pieceOf lexer first rest segment).bytes.length = segment.tail + 1 := by
      rw [pieceOf, List.length_cons, List.length_take_of_le within]
    rw [behindOf, Lexer.pass, Position.offset_passAll, length_eq, starts.follows.counts.offset_eq]
  cases reaches with
  | silence none follows =>
    refine .again ?_
    rw [follows.counts.offset_eq, offset_eq]
    omega
  | refused found named => cases (unnamed _ found).symm.trans named
  | @token c' t after name? found _ given follows placed =>
    have unnamed := unnamed t found
    rw [give_of_name?_eq_none unnamed] at given
    cases given
    refine .done unnamed ?_
    rw [follows.counts.offset_eq]
    change _ < (behindOf lexer first rest segment).position.offset
    omega

theorem Starts.exists_word (starts : c.Starts lexer first rest) (isName : first.isNameStart)
    (indexed : s.names.Indexed) :
    ∃ stage, c.turn s c.startMode = .ok stage ∧
      Reaches s lexer first rest (.word lexer.fresh first rest) stage := by
  obtain ⟨starts', marks⟩ := starts.mark
  obtain ⟨stage, word_eq, reaches⟩ := starts'.word marks indexed isName
  refine ⟨stage, ?_, reaches⟩
  rw [turn, peek?_of_rest_eq starts.rest_eq, startMode, ← ScannerMode.startOf,
    ScannerMode.transition_word c.opens isName]
  exact word_eq

section Words

variable {more behind : Bytes}

/-- Before an apostrophe the run is the base of a number, or of none. -/
theorem Starts.exists_nameless {digits : Bytes}
    (starts : c.Starts lexer first (more ++ Byte.apostrophe :: digits))
    (isName : first.isNameStart) (all : ∀ b ∈ more, b.isNamePart) (indexed : s.names.Indexed) :
    ∃ stage, c.turn s c.startMode = .ok stage ∧ Nameless c (first :: more) stage := by
  obtain ⟨stage, turn_eq, reaches⟩ := starts.exists_word isName indexed
  refine ⟨stage, turn_eq, reaches.nameless starts (Segment.word_tail_le _ _ _) ?_ ?_⟩
  · rw [Segment.word_eq_number _ all]
    split
    · rw [Segment.tail_number, List.length_cons]
      omega
    · exact Nat.le_refl _
  · intro t found
    rw [Segment.word_eq_number _ all] at found
    split at found
    · exact Segment.name?_eq_none_of_number found
    · cases found

theorem Starts.exists_label {later : Bytes}
    (starts : c.Starts lexer first (more ++ Byte.colon :: later)) (isName : first.isNameStart)
    (all : ∀ b ∈ more, b.isNamePart) (begins : lexer.fresh = true) (indexed : s.names.Indexed)
    (granted : ¬s.names.Refuses (first :: more)) :
    ∃ stage suffix, LabelSuffix (Byte.colon :: later) suffix ∧ c.turn s c.startMode = .ok stage ∧
      Carries s c (.label (first :: more) (.ofParts (first :: more) suffix)) (first :: more)
        (first :: more ++ suffix) s.log stage := by
  obtain ⟨stage, turn_eq, reaches⟩ := starts.exists_word isName indexed
  obtain ⟨isSuffix, scope_eq⟩ := Segment.labelSuffix_labelScope (first :: more) later
  have within := Segment.word_tail_le lexer.fresh first (more ++ Byte.colon :: later)
  rw [begins, Segment.word_eq_label all] at reaches within
  have carries := reaches.carries_token starts indexed within rfl granted
  -- The colon that makes a label is the first byte of what follows its name.
  rw [scope_eq, Nat.add_assoc, List.take_length_add_append, Nat.add_comm 1,
    List.take_succ_cons] at carries
  exact ⟨stage, _, isSuffix, turn_eq, carries⟩

theorem Starts.exists_identifier (starts : c.Starts lexer first (more ++ behind))
    (isName : first.isNameStart) (all : ∀ b ∈ more, b.isNamePart)
    (stops : StopsClass Byte.isNamePart behind) (noQuote : behind.head? ≠ some Byte.apostrophe)
    (noLabel : lexer.fresh = true → behind.head? ≠ some Byte.colon) (indexed : s.names.Indexed)
    (granted : ¬s.names.Refuses (first :: more)) :
    ∃ stage, c.turn s c.startMode = .ok stage ∧
      Carries s c (.identifier (first :: more)) (first :: more) (first :: more) s.log stage := by
  obtain ⟨stage, turn_eq, reaches⟩ := starts.exists_word isName indexed
  have within := Segment.word_tail_le lexer.fresh first (more ++ behind)
  rw [Segment.word_eq_identifier all stops noQuote noLabel] at reaches within
  have carries := reaches.carries_token starts indexed within rfl granted
  rw [List.take_left] at carries
  exact ⟨stage, turn_eq, carries⟩

/-- What a run comes to is decided by the byte behind it and by whether a statement starts, unless
the table refuses it. -/
theorem Starts.reads_word (starts : c.Starts lexer first (more ++ behind))
    (isName : first.isNameStart) (all : ∀ b ∈ more, b.isNamePart)
    (stops : StopsClass Byte.isNamePart behind) (indexed : s.names.Indexed) :
    let run := first :: more
    let isLabel := lexer.fresh = true ∧ behind.head? = some Byte.colon
    ∃ stage, c.turn s c.startMode = .ok stage ∧
      (behind.head? = some Byte.apostrophe → Nameless c run stage) ∧
      (behind.head? ≠ some Byte.apostrophe →
        (s.names.Refuses run → ∃ c', stage = .refused (s.spelling run) c') ∧
        (¬s.names.Refuses run →
          (isLabel → ∃ suffix, LabelSuffix behind suffix ∧
            Carries s c (.label run (.ofParts run suffix)) run (run ++ suffix) s.log stage) ∧
          (¬isLabel → Carries s c (.identifier run) run run s.log stage))) := by
  intro run isLabel
  by_cases isQuote : behind.head? = some Byte.apostrophe
  · obtain ⟨digits, rfl⟩ := List.head?_eq_some_iff.mp isQuote
    obtain ⟨stage, turn_eq, nameless⟩ := starts.exists_nameless isName all indexed
    exact ⟨stage, turn_eq, fun _ => nameless, fun noQuote => absurd isQuote noQuote⟩
  by_cases refuses : s.names.Refuses run
  · obtain ⟨stage, turn_eq, reaches⟩ := starts.exists_word isName indexed
    obtain ⟨t, found, named, _⟩ := Segment.exists_token_word lexer.fresh all stops isQuote
    exact ⟨stage, turn_eq, fun quote => absurd quote isQuote,
      fun _ => ⟨reaches.exists_refused found named, fun granted => absurd refuses granted⟩⟩
  by_cases labelled : isLabel
  · obtain ⟨begins, isColon⟩ := labelled
    obtain ⟨later, rfl⟩ := List.head?_eq_some_iff.mp isColon
    obtain ⟨stage, suffix, isSuffix, turn_eq, carries⟩ :=
      starts.exists_label isName all begins indexed refuses
    refine ⟨stage, turn_eq, fun quote => absurd quote isQuote,
      fun _ => ⟨fun refuses' => absurd refuses' refuses, fun _ => ?_⟩⟩
    exact ⟨fun _ => ⟨suffix, isSuffix, carries⟩, fun no => absurd ⟨begins, isColon⟩ no⟩
  · have noLabel : lexer.fresh = true → behind.head? ≠ some Byte.colon :=
      fun begins isColon => labelled ⟨begins, isColon⟩
    obtain ⟨stage, turn_eq, carries⟩ :=
      starts.exists_identifier isName all stops isQuote noLabel indexed refuses
    refine ⟨stage, turn_eq, fun quote => absurd quote isQuote,
      fun _ => ⟨fun refuses' => absurd refuses' refuses, fun _ => ?_⟩⟩
    exact ⟨fun yes => absurd yes labelled, fun _ => carries⟩

end Words

theorem Starts.exists_parameter (starts : c.Starts lexer Byte.dollar rest) (rooted : s.names.Rooted) :
    let run := rest.takeWhile Byte.isNamePart
    ∃ stage, c.turn s c.startMode = .ok stage ∧
      (s.names.Refuses run → ∃ c', stage = .refused (s.spelling run) c') ∧
      (¬s.names.Refuses run →
        Carries s c (.parameter run) run (Byte.dollar :: run)
          (if run = [] then
            s.log.record ⟨.error, Utf8.ofString "empty macro parameter",
              c.locationAt c.cursor.position⟩
          else s.log) stage) := by
  intro run
  obtain ⟨starts', marks⟩ := starts.mark
  have reaches := starts'.parameter marks rooted
  have turn_eq : c.turn s c.startMode = .ok (c.mark.parameter s) := by
    rw [turn, peek?_of_rest_eq starts.rest_eq, startMode, ← ScannerMode.startOf,
      ScannerMode.transition_dollar]
    rfl
  refine ⟨_, turn_eq, reaches.exists_refused rfl rfl, fun granted => ?_⟩
  have within : (Segment.parameter rest).tail ≤ rest.length := (List.takeWhile_sublist _).length_le
  have carries := reaches.carries starts rooted.indexed within rfl rfl granted
  have text_eq : rest.take (Segment.parameter rest).tail = run :=
    List.prefix_iff_eq_take.mp (List.takeWhile_prefix _) |>.symm
  have log_eq : (s.recordAll (lexer.reports (Byte.dollar :: run)
      (Segment.parameter rest).findings).toArray).log = if run = [] then
        s.log.record ⟨.error, Utf8.ofString "empty macro parameter", c.locationAt c.cursor.position⟩
      else s.log := by
    have findings_eq : (Segment.parameter rest).findings =
        if run.isEmpty then [⟨0, .emptyParameter⟩] else [] := rfl
    rw [findings_eq, starts.follows.locationAt_eq]
    cases run with
    | nil => rfl
    | cons => rfl
  rw [text_eq, log_eq] at carries
  exact carries

/-- Wherever a call stands when a token may start: a run of the bytes of names is a label where a
statement starts and a colon is next, is none before an apostrophe, and is an identifier otherwise,
and behind a dollar sign it is a parameter, which is reported if it is empty. The name that the token
carries is that of the run. There is no token only if no number is left for the run, and it is new. -/
theorem Reachable.reads_names {file : UInt32} {buffer : Buffer} {tokens : List Token}
    (reachable : Reachable file buffer tokens (.again s c c.startMode)) :
    c.file = file ∧ c.rest = buffer.bytes.drop c.cursor.position ∧
      (∀ first ∈ c.rest.head?, first.isNameStart →
        let run := c.rest.takeWhile Byte.isNamePart
        let following := c.rest.dropWhile Byte.isNamePart
        let isLabel := ¬Token.begun tokens ∧ following.head? = some Byte.colon
        ∃ stage, c.turn s c.startMode = .ok stage ∧
          (following.head? = some Byte.apostrophe → Nameless c run stage) ∧
          (following.head? ≠ some Byte.apostrophe →
            (s.names.Refuses run → ∃ c', stage = .refused (s.spelling run) c') ∧
            (¬s.names.Refuses run →
              (isLabel → ∃ suffix, LabelSuffix following suffix ∧
                Carries s c (.label run (.ofParts run suffix)) run (run ++ suffix) s.log stage) ∧
              (¬isLabel → Carries s c (.identifier run) run run s.log stage)))) ∧
      ∀ rest, c.rest = Byte.dollar :: rest →
        let run := rest.takeWhile Byte.isNamePart
        ∃ stage, c.turn s c.startMode = .ok stage ∧
          (s.names.Refuses run → ∃ c', stage = .refused (s.spelling run) c') ∧
          (¬s.names.Refuses run →
            Carries s c (.parameter run) run (Byte.dollar :: run)
              (if run = [] then
                s.log.record ⟨.error, Utf8.ofString "empty macro parameter",
                  c.locationAt c.cursor.position⟩
              else s.log) stage) := by
  obtain ⟨rooted, file_eq, counted, rest_eq, opens_eq⟩ := reachable.again
  have starts : ∀ {first rest}, c.rest = first :: rest → c.Starts (c.standing _) first rest :=
    fun remaining => ⟨Counts.follows_standing counted, remaining⟩
  refine ⟨file_eq, rest_eq, ?_, ?_⟩
  · intro first isHead isName run following isLabel
    obtain ⟨rest, remaining⟩ := List.head?_eq_some_iff.mp isHead
    obtain ⟨more, behind, rfl, all, stops, taken_eq, _⟩ := exists_stretch Byte.isNamePart rest
    have isPart := isNamePart_of_isNameStart isName
    have run_eq : run = first :: more := by
      rw [← taken_eq, ← List.takeWhile_cons_of_pos isPart, ← remaining]
    have following_eq : following = behind := by
      have split : run ++ following = c.rest := List.takeWhile_append_dropWhile
      rw [run_eq, remaining] at split
      exact List.append_cancel_left split
    have reads := (starts remaining).reads_word (s := s) isName all stops rooted.indexed
    -- The scanner's own mark for the start of a statement says what the tokens before do.
    have begins_iff : (c.standing (Position.initial.passAll
        (c.cursor.buffer.bytes.take c.cursor.position))).fresh = true ↔ ¬Token.begun tokens := by
      rw [standing, opens_eq, Bool.not_eq_true', Bool.not_eq_true]
    simp only [begins_iff] at reads
    simp only [isLabel, run_eq, following_eq]
    exact reads
  · intro rest remaining
    exact (starts remaining).exists_parameter rooted

/-- A break and a blank lead to a hidden label. -/
theorem reads_names_behind_blank :
    let buffer : Buffer := ⟨0, Utf8.ofString "\n .a::?"⟩
    let name := Utf8.ofString ".a"
    ∃ s c, Reachable 1 buffer [] (.again s c c.startMode) ∧ ∃ stage, c.turn s c.startMode = .ok stage ∧
      Carries s c (.label name .hiddenLabel) name (name ++ Utf8.ofString "::") s.log stage := by
  intro buffer name
  have opened : Reachable 1 buffer [] (.again .initial (ofBuffer 1 buffer) .lineStart) :=
    .opened Session.rooted_initial
  have broken : Reachable 1 buffer [] (.again .initial (ofBuffer 1 buffer).passBreak .lineStart) :=
    opened.turned rfl
  have stands : Reachable 1 buffer []
      (.again .initial (ofBuffer 1 buffer).passBreak.advance .lineStart) :=
    broken.turned rfl
  obtain ⟨_, _, words, _⟩ := stands.reads_names
  obtain ⟨stage, turn_eq, _, reads⟩ := words Byte.dot (by decide) (by decide)
  obtain ⟨suffix, ⟨listed, starts, longest⟩, carries⟩ :=
    ((reads (by decide)).2 (Session.granted_initial name)).1 ⟨by decide, by decide⟩
  have suffix_eq : suffix = Utf8.ofString "::" := by
    have long := longest (Utf8.ofString "::") (by decide) (by decide)
    have all : ∀ suffix ∈ labelSuffixes, suffix <+: Utf8.ofString "::?" →
        2 ≤ suffix.length → suffix = Utf8.ofString "::" := by
      decide
    exact all suffix listed starts long
  rw [suffix_eq] at carries
  exact ⟨_, _, stands, stage, turn_eq, carries⟩

end Scanner

end AssemblyLexer
