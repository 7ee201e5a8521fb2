import AssemblyLexer.Recording.Basic

/-!
The items of one recorded token. Every item of a block is in range, so that
pushing a token can fail for no other reason than the token's place.
-/

set_option autoImplicit false

namespace AssemblyLexer

namespace RecordingItem

def InRange : RecordingItem → Prop
  | finish _ => True
  | start gap length => gap ≤ 1 ∧ length ≤ maxLength
  | skip lines length => lines ≤ 1 ∧ length ≤ maxLength

def isSkip : RecordingItem → Bool
  | skip _ _ => true
  | _ => false

theorem decode_ordinal (kind : TokenKind) : decode kind.ordinal = .ok (finish kind) := by
  have small : kind.ordinal < 0x80 := by
    cases kind <;> decide
  rw [decode, if_pos small, TokenKind.ofOrdinal?_ordinal]

theorem decode_ofNat {n : Nat} (tagged : 0x80 ≤ n) (small : n < 0x100) :
    decode (UInt8.ofNat n) =
      .ok (if n < 0xC0 then start (n / 0x20 % 2) (n % 0x20) else skip (n / 0x20 % 2) (n % 0x20)) := by
  have value : (UInt8.ofNat n).toNat = n := by
    rw [UInt8.toNat_ofNat']
    exact Nat.mod_eq_of_lt small
  have isTagged : ¬UInt8.ofNat n < 0x80 := by
    rw [UInt8.lt_iff_toNat_lt, value]
    exact Nat.not_lt.mpr tagged
  have isStart : UInt8.ofNat n < 0xC0 ↔ n < 0xC0 := by
    rw [UInt8.lt_iff_toNat_lt, value]
    rfl
  rw [decode, if_neg isTagged, value]
  by_cases below : n < 0xC0
  · rw [if_pos below]
    exact if_pos (isStart.mpr below)
  · rw [if_neg below]
    exact if_neg fun less => below (isStart.mp less)

theorem decode_start {gap length : Nat} (gap_le : gap ≤ 1) (length_le : length ≤ maxLength) :
    decode (UInt8.ofNat (0x80 + gap * 0x20 + length)) = .ok (start gap length) := by
  rw [maxLength] at length_le
  have flag : (0x80 + gap * 0x20 + length) / 0x20 % 2 = gap := by omega
  have payload : (0x80 + gap * 0x20 + length) % 0x20 = length := by omega
  rw [decode_ofNat (by omega) (by omega), if_pos (by omega), flag, payload]

theorem decode_skip {lines length : Nat} (lines_le : lines ≤ 1) (length_le : length ≤ maxLength) :
    decode (UInt8.ofNat (0xC0 + lines * 0x20 + length)) = .ok (skip lines length) := by
  rw [maxLength] at length_le
  have flag : (0xC0 + lines * 0x20 + length) / 0x20 % 2 = lines := by omega
  have payload : (0xC0 + lines * 0x20 + length) % 0x20 = length := by omega
  rw [decode_ofNat (by omega) (by omega), if_neg (by omega), flag, payload]

theorem exists_encode {item : RecordingItem} (inRange : item.InRange) :
    ∃ b, item.encode = .ok b ∧ decode b = .ok item := by
  cases item with
  | finish kind => exact ⟨_, rfl, decode_ordinal kind⟩
  | start gap length => exact ⟨_, if_pos inRange, decode_start inRange.1 inRange.2⟩
  | skip lines length => exact ⟨_, if_pos inRange, decode_skip inRange.1 inRange.2⟩

theorem exists_mapM_encode {items : List RecordingItem} (inRange : ∀ item ∈ items, item.InRange) :
    ∃ bytes, items.mapM encode = .ok bytes ∧ bytes.map decode = items.map .ok := by
  induction items with
  | nil => exact ⟨[], rfl, rfl⟩
  | cons item items ih =>
    obtain ⟨b, encoded, decoded⟩ := exists_encode (inRange item List.mem_cons_self)
    obtain ⟨bytes, encoded', decoded'⟩ :=
      ih fun later membership => inRange later (List.mem_cons_of_mem item membership)
    refine ⟨b :: bytes, ?_, ?_⟩
    · rw [List.mapM_cons, encoded, encoded']
      rfl
    · rw [List.map_cons, List.map_cons, decoded, decoded']

end RecordingItem

namespace Recording

theorem pieces_succ (count distance : Nat) :
    pieces (count + 1) distance = pieces count distance ++
      [min RecordingItem.maxLength (distance - count * RecordingItem.maxLength)] := by
  rw [pieces, List.range_succ, List.map_append]
  rfl

theorem le_of_mem_pieces {count distance piece : Nat} (membership : piece ∈ pieces count distance) :
    piece ≤ RecordingItem.maxLength := by
  obtain ⟨i, _, rfl⟩ := List.mem_map.mp membership
  exact Nat.min_le_left _ _

/-- The items before and at the start of a token pass the whole gap. -/
theorem gap_eq (lines gap : Nat) :
    let afterLines := gap - lines * RecordingItem.maxLength
    let afterSkips := afterLines - gapPieces afterLines * RecordingItem.maxLength
    min gap (lines * RecordingItem.maxLength) +
      min afterLines (gapPieces afterLines * RecordingItem.maxLength) + afterSkips = gap := by
  intro afterLines afterSkips
  omega

/-- The start of a token and the skips behind it pass the whole token. -/
theorem length_eq (length : Nat) :
    let afterFirst := length - min RecordingItem.maxLength length
    min RecordingItem.maxLength length +
      min afterFirst (lengthPieces afterFirst * RecordingItem.maxLength) = length := by
  intro afterFirst
  simp only [lengthPieces, RecordingItem.maxLength, afterFirst]
  omega

theorem inRange_of_mem_skips {lines count distance : Nat} (lines_le : lines ≤ 1)
    {item : RecordingItem}
    (membership : item ∈ (pieces count distance).map (RecordingItem.skip lines)) :
    item.InRange := by
  obtain ⟨piece, isPiece, rfl⟩ := List.mem_map.mp membership
  exact ⟨lines_le, le_of_mem_pieces isPiece⟩

theorem inRange_of_mem_block {lines gap length : Nat} {kind : TokenKind} {item : RecordingItem}
    (membership : item ∈ block lines gap length kind) : item.InRange := by
  simp only [block, List.mem_append, List.mem_singleton] at membership
  rcases membership with (((ofLine | ofGap) | rfl) | ofLength) | rfl
  · exact inRange_of_mem_skips (Nat.le_refl 1) ofLine
  · exact inRange_of_mem_skips (Nat.zero_le 1) ofGap
  · refine ⟨?_, Nat.min_le_left _ _⟩
    rw [gapPieces, RecordingItem.maxLength]
    omega
  · exact inRange_of_mem_skips (Nat.zero_le 1) ofLength
  · exact trivial

/-- The bytes of the items of a token of the given kind: skips, a start, skips and the end. -/
def IsBlock (kind : TokenKind) (bytes : Bytes) : Prop :=
  ∃ before gap length after, (∀ item ∈ before ++ after, RecordingItem.isSkip item) ∧
    bytes.map RecordingItem.decode =
      (before ++ [RecordingItem.start gap length] ++ after ++ [RecordingItem.finish kind]).map .ok

theorem isBlock_of_decode {lines gap length : Nat} {kind : TokenKind} {bytes : Bytes}
    (decoded : bytes.map RecordingItem.decode = (block lines gap length kind).map .ok) :
    IsBlock kind bytes := by
  refine ⟨_, _, _, _, ?_, decoded⟩
  intro item membership
  simp only [List.mem_append, List.mem_map] at membership
  rcases membership with (⟨_, _, rfl⟩ | ⟨_, _, rfl⟩) | ⟨_, _, rfl⟩
  all_goals rfl

def blockOf (r : Recording) (t : RecordedToken) : List RecordingItem :=
  block (t.line - r.line).toNat (t.start - r.offset).toNat (t.stop - t.start).toNat t.kind

/-- What a push may answer. The encoder never refuses an item. -/
inductive Pushed (r : Recording) (t : RecordedToken) : Except RecordingError Recording → Prop
  | earlierLine (behind : t.line < r.line) : Pushed r t (.error .earlierLine)
  | earlierOffset (line_le : r.line ≤ t.line) (behind : t.start < r.offset) :
      Pushed r t (.error .earlierOffset)
  | accepted {bytes : Bytes} (line_le : r.line ≤ t.line) (offset_le : r.offset ≤ t.start)
      (decoded : bytes.map RecordingItem.decode = (r.blockOf t).map .ok) :
      Pushed r t (.ok { r with line := t.line, offset := t.stop, items := r.items ++ bytes })

theorem pushed_push (r : Recording) (t : RecordedToken) : Pushed r t (r.push t) := by
  unfold push
  by_cases earlier : t.line < r.line
  · rw [if_pos earlier]
    exact .earlierLine earlier
  · have line_le := UInt32.not_lt.mp earlier
    rw [if_neg earlier]
    by_cases before : t.start < r.offset
    · rw [if_pos before]
      exact .earlierOffset line_le before
    · have offset_le := UInt64.not_lt.mp before
      have inRange : ∀ item ∈ r.blockOf t, item.InRange :=
        fun item membership => inRange_of_mem_block membership
      obtain ⟨bytes, encoded, decoded⟩ := RecordingItem.exists_mapM_encode inRange
      rw [if_neg before]
      rw [blockOf] at encoded
      dsimp only
      rw [encoded]
      exact .accepted line_le offset_le decoded

/-- A push is refused only because of the token's place. -/
theorem push_eq_error {r : Recording} {t : RecordedToken} {error : RecordingError}
    (refused : r.push t = .error error) :
    ¬(r.line ≤ t.line ∧ r.offset ≤ t.start) ∧
      error = if t.line < r.line then .earlierLine else .earlierOffset := by
  have pushed := r.pushed_push t
  rw [refused] at pushed
  cases pushed with
  | earlierLine behind =>
    rw [if_pos behind]
    exact ⟨fun both => UInt32.not_lt.mpr both.1 behind, rfl⟩
  | earlierOffset line_le behind =>
    rw [if_neg (UInt32.not_lt.mpr line_le)]
    exact ⟨fun both => UInt64.not_lt.mpr both.2 behind, rfl⟩

theorem push_eq_ok {r next : Recording} {t : RecordedToken} (accepted : r.push t = .ok next) :
    (r.line ≤ t.line ∧ r.offset ≤ t.start) ∧
      ∃ bytes : Bytes, next = { r with line := t.line, offset := t.stop, items := r.items ++ bytes } ∧
        bytes.map RecordingItem.decode = (r.blockOf t).map .ok := by
  have pushed := r.pushed_push t
  rw [accepted] at pushed
  cases pushed with
  | accepted line_le offset_le decoded => exact ⟨⟨line_le, offset_le⟩, _, rfl, decoded⟩

theorem exists_push_eq_ok_iff (r : Recording) (t : RecordedToken) :
    (∃ next, r.push t = .ok next) ↔ r.line ≤ t.line ∧ r.offset ≤ t.start := by
  constructor
  · rintro ⟨next, accepted⟩
    exact (push_eq_ok accepted).1
  · intro inOrder
    cases answer : r.push t with
    | error => exact absurd inOrder (push_eq_error answer).1
    | ok next => exact ⟨next, rfl⟩

end Recording

end AssemblyLexer
