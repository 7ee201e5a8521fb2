import AssemblyLexer.Proofs.Block
import AssemblyLexer.Recording.Replay

/-!
Recording and replaying. Whatever is pushed, a replay gives back the tokens that
were accepted, and recording the replay gives back the items.
-/

set_option autoImplicit false

namespace AssemblyLexer

namespace Replay

/-- The answer of a step as a token at the place that the replay reports afterwards. -/
def answer (step : Except RecordingError TokenKind × Replay) :
    Except RecordingError RecordedToken :=
  step.1.map fun kind => ⟨kind, step.2.line, step.2.start, step.2.stop⟩

def answers (r : Replay) : Nat → List (Except RecordingError RecordedToken)
  | 0 => []
  | n + 1 => answer r.next :: r.next.2.answers n

variable (kept : Replay)

theorem consume_pieces {lines count distance : Nat} {bytes : Bytes}
    (decoded : bytes.map RecordingItem.decode =
      ((Recording.pieces count distance).map (RecordingItem.skip lines)).map .ok)
    (line : UInt32) (start offset : UInt64) (rest : Bytes) :
    kept.consume line start offset (bytes ++ rest) =
      kept.consume (line + UInt32.ofNat (lines * count)) start
        (offset + UInt64.ofNat (min distance (count * RecordingItem.maxLength))) rest := by
  induction count generalizing bytes rest with
  | zero =>
    rw [List.map_eq_nil_iff.mp decoded]
    simp
  | succ count ih =>
    rw [Recording.pieces_succ, List.map_append, List.map_append] at decoded
    obtain ⟨before, last, rfl, decoded', ofLast⟩ := List.map_eq_append_iff.mp decoded
    obtain ⟨b, _, rfl, last_eq, none⟩ := List.map_eq_cons_iff.mp ofLast
    obtain rfl := List.map_eq_nil_iff.mp none
    have passed : min distance ((count + 1) * RecordingItem.maxLength) =
        min distance (count * RecordingItem.maxLength) +
          min RecordingItem.maxLength (distance - count * RecordingItem.maxLength) := by
      rw [RecordingItem.maxLength]
      omega
    rw [List.append_assoc, ih decoded', List.cons_append, consume, last_eq]
    dsimp only
    rw [passed, Nat.mul_add_one, UInt32.ofNat_add, UInt64.ofNat_add, UInt32.add_assoc,
      UInt64.add_assoc, List.nil_append]

theorem consume_block {lines gap length : Nat} {kind : TokenKind} {bytes : Bytes}
    (decoded : bytes.map RecordingItem.decode =
      (Recording.block lines gap length kind).map .ok)
    (line : UInt32) (start offset : UInt64) (rest : Bytes) :
    kept.consume line start offset (bytes ++ rest) =
      (.ok kind, ⟨rest, line + UInt32.ofNat lines, offset + UInt64.ofNat gap,
        offset + UInt64.ofNat gap + UInt64.ofNat length⟩) := by
  unfold Recording.block at decoded
  dsimp only at decoded
  simp only [List.map_append, List.map_eq_append_iff] at decoded
  obtain ⟨_, _, rfl, ⟨_, _, rfl, ⟨_, _, rfl, ⟨_, _, rfl, ofLines, ofGap⟩, ofStart⟩, ofLength⟩,
    ofFinish⟩ := decoded
  obtain ⟨start', _, rfl, start_eq, none⟩ := List.map_eq_cons_iff.mp ofStart
  obtain rfl := List.map_eq_nil_iff.mp none
  obtain ⟨finish', _, rfl, finish_eq, none⟩ := List.map_eq_cons_iff.mp ofFinish
  obtain rfl := List.map_eq_nil_iff.mp none
  simp only [List.append_assoc]
  rw [consume_pieces kept ofLines, consume_pieces kept ofGap, List.cons_append, consume, start_eq]
  dsimp only
  rw [List.nil_append, consume_pieces kept ofLength, List.cons_append, consume, finish_eq]
  have start_at := congrArg UInt64.ofNat (Recording.gap_eq lines gap)
  have stop_at := congrArg UInt64.ofNat (Recording.length_eq length)
  rw [UInt64.ofNat_add, UInt64.ofNat_add] at start_at
  rw [UInt64.ofNat_add] at stop_at
  rw [Nat.one_mul, Nat.zero_mul, Nat.zero_mul, ← start_at, ← stop_at]
  simp [UInt64.add_assoc]

theorem answers_of_items_eq_nil (line : UInt32) (stop : UInt64) (n : Nat) :
    ∀ start, (⟨[], line, start, stop⟩ : Replay).answers n =
      List.replicate n (.ok ⟨.endOfSource, line, stop, stop⟩) := by
  induction n with
  | zero =>
    intro start
    rfl
  | succ n ih =>
    intro start
    have next_eq : (⟨[], line, start, stop⟩ : Replay).next =
        (.ok .endOfSource, ⟨[], line, stop, stop⟩) := rfl
    rw [answers, next_eq, ih, List.replicate_succ]
    rfl

end Replay

namespace Recording

/-- The recording after an attempt to push a token. A refusal leaves it as it was. -/
def attempt (r : Recording) (t : RecordedToken) : Recording :=
  match r.push t with
  | .ok next => next
  | .error _ => r

def attemptAll (r : Recording) (tokens : List RecordedToken) : Recording :=
  tokens.foldl attempt r

/-- The tokens that lie neither on an earlier line than the last one kept nor before its end. -/
def kept (line : UInt32) (offset : UInt64) : List RecordedToken → List RecordedToken
  | [] => []
  | t :: later =>
    if line ≤ t.line ∧ offset ≤ t.start then t :: kept t.line t.stop later
    else kept line offset later

/-- The line and the end of the last token, or the origin before any. -/
def lastPlace (line : UInt32) (offset : UInt64) (tokens : List RecordedToken) : UInt32 × UInt64 :=
  (tokens.map fun t => (t.line, t.stop)).getLastD (line, offset)

theorem lastPlace_cons (line : UInt32) (offset : UInt64) (t : RecordedToken)
    (tokens : List RecordedToken) :
    lastPlace line offset (t :: tokens) = lastPlace t.line t.stop tokens := by
  rw [lastPlace, List.map_cons, List.getLastD_cons]
  rfl

/-- Attempts amount to pushing the tokens that are kept. -/
theorem pushAll_kept (r : Recording) (attempts : List RecordedToken) :
    r.pushAll (kept r.line r.offset attempts) = .ok (r.attemptAll attempts) := by
  induction attempts generalizing r with
  | nil => rfl
  | cons t attempts ih =>
    rw [attemptAll, List.foldl_cons, attempt]
    cases answer : r.push t with
    | error =>
      rw [kept, if_neg (push_eq_error answer).1]
      exact ih r
    | ok next =>
      obtain ⟨inOrder, _, rfl, _⟩ := push_eq_ok answer
      rw [kept, if_pos inOrder, pushAll, List.foldlM_cons, answer]
      exact ih _

/-- From one recording to another by pushing tokens, which appends the given bytes. -/
structure Extends (r final : Recording) (tokens : List RecordedToken) (bytes : Bytes) : Prop where
  originLine_eq : final.originLine = r.originLine
  originOffset_eq : final.originOffset = r.originOffset
  line_eq : final.line = (lastPlace r.line r.offset tokens).1
  offset_eq : final.offset = (lastPlace r.line r.offset tokens).2
  items_eq : final.items.toList = r.items.toList ++ bytes
  answers_eq : ∀ start n, (⟨bytes, r.line, start, r.offset⟩ : Replay).answers (tokens.length + n) =
    tokens.map .ok ++ List.replicate n (.ok ⟨.endOfSource, final.line, final.offset, final.offset⟩)

/-- A replay that stands where a token was pushed gives that token back. -/
theorem next_of_block {r : Recording} {t : RecordedToken} {bytes : Bytes}
    (decoded : bytes.map RecordingItem.decode = (r.blockOf t).map .ok) (start : UInt64)
    (rest : Bytes) :
    (⟨bytes ++ rest, r.line, start, r.offset⟩ : Replay).next =
      (.ok t.kind, ⟨rest, t.line, t.start, t.stop⟩) := by
  have line_eq : r.line + UInt32.ofNat (t.line - r.line).toNat = t.line := by
    rw [UInt32.ofNat_toNat, UInt32.add_comm, UInt32.sub_add_cancel]
  have start_eq : r.offset + UInt64.ofNat (t.start - r.offset).toNat = t.start := by
    rw [UInt64.ofNat_toNat, UInt64.add_comm, UInt64.sub_add_cancel]
  have stop_eq : t.start + UInt64.ofNat (t.stop - t.start).toNat = t.stop := by
    rw [UInt64.ofNat_toNat, UInt64.add_comm, UInt64.sub_add_cancel]
  rw [Replay.next, Replay.consume_block _ decoded, line_eq, start_eq, stop_eq]

theorem exists_extends {r final : Recording} {tokens : List RecordedToken}
    (pushed : r.pushAll tokens = .ok final) : ∃ bytes, r.Extends final tokens bytes := by
  induction tokens generalizing r with
  | nil =>
    cases pushed
    refine ⟨[], rfl, rfl, rfl, rfl, (List.append_nil _).symm, ?_⟩
    intro start n
    rw [List.length_nil, Nat.zero_add, List.map_nil, List.nil_append]
    exact Replay.answers_of_items_eq_nil _ _ n start
  | cons t tokens ih =>
    rw [pushAll, List.foldlM_cons] at pushed
    cases answer : r.push t with
    | error =>
      rw [answer] at pushed
      cases pushed
    | ok next =>
      rw [answer] at pushed
      obtain ⟨_, block, rfl, decoded⟩ := push_eq_ok answer
      obtain ⟨bytes, later⟩ := ih pushed
      refine ⟨block ++ bytes, later.originLine_eq, later.originOffset_eq, ?_, ?_, ?_, ?_⟩
      · rw [lastPlace_cons, later.line_eq]
      · rw [lastPlace_cons, later.offset_eq]
      · rw [later.items_eq]
        simp
      · intro start n
        rw [List.length_cons, Nat.add_right_comm, Replay.answers, next_of_block decoded,
          List.map_cons, List.cons_append, ← later.answers_eq t.start n]
        rfl

/-- Of any attempts to push tokens, those are accepted whose token lies neither on an earlier line
nor before the end of the last one. A replay gives exactly the accepted tokens and then the end of
the source, and recording the replay gives the same recording. -/
theorem replay_attemptAll (line : UInt32) (offset : UInt64) (attempts : List RecordedToken) :
    let r := (ofOrigin line offset).attemptAll attempts
    let tokens := kept line offset attempts
    let last := lastPlace line offset tokens
    (∀ t, (∃ next, r.push t = .ok next) ↔ last.1 ≤ t.line ∧ last.2 ≤ t.start) ∧
    (∀ t error, r.push t = .error error →
      error = (if t.line < last.1 then .earlierLine else .earlierOffset) ∧ r.attempt t = r) ∧
    (∀ t next, r.push t = .ok next → r.attempt t = next ∧
      ∃ bytes, next.items.toList = r.items.toList ++ bytes ∧ IsBlock t.kind bytes) ∧
    (r.replay.line = line ∧ r.replay.start = offset ∧ r.replay.stop = offset) ∧
    (∀ n, r.replay.answers (tokens.length + n) =
      tokens.map .ok ++ List.replicate n (.ok ⟨.endOfSource, last.1, last.2, last.2⟩)) ∧
    (ofOrigin line offset).pushAll tokens = .ok r := by
  intro r tokens last
  have pushed : (ofOrigin line offset).pushAll tokens = .ok r :=
    pushAll_kept (ofOrigin line offset) attempts
  obtain ⟨bytes, extends'⟩ := exists_extends pushed
  have line_eq : r.line = last.1 := extends'.line_eq
  have offset_eq : r.offset = last.2 := extends'.offset_eq
  have originLine_eq : r.originLine = line := extends'.originLine_eq
  have originOffset_eq : r.originOffset = offset := extends'.originOffset_eq
  have items_eq : r.items.toList = bytes := extends'.items_eq
  rw [← line_eq, ← offset_eq]
  refine ⟨r.exists_push_eq_ok_iff, ?_, ?_, ⟨originLine_eq, originOffset_eq, originOffset_eq⟩, ?_,
    pushed⟩
  · intro t error refused
    refine ⟨(push_eq_error refused).2, ?_⟩
    rw [attempt, refused]
  · intro t next accepted
    obtain ⟨_, block, next_eq, decoded⟩ := push_eq_ok accepted
    refine ⟨?_, block, ?_, isBlock_of_decode decoded⟩
    · rw [attempt, accepted]
    · rw [next_eq, Array.toList_appendList]
  · intro n
    rw [replay, Replay.ofItems, originLine_eq, originOffset_eq, items_eq]
    exact extends'.answers_eq offset n

end Recording

end AssemblyLexer
