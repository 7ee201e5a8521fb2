import AssemblyLexer.Recording.Replay
import Mathlib.Algebra.GroupWithZero.Nat

/-!
Replays of bytes that no recording has made. Any bytes fall into blocks, each of moves
and a byte that ends them, and moves that no such byte follows. Each call of a replay goes
over one block and finds the token that its last byte names, or nothing if it names none.
-/

set_option autoImplicit false

namespace AssemblyLexer

/-! What the bits of an item say. -/

namespace Byte

/-- An item that is no move but should name a token. -/
def isFinal (b : Byte) : Bool :=
  b < 0x80

/-- A move that starts a token. -/
def isStart (b : Byte) : Bool :=
  0x80 ≤ b && b < 0xC0

/-- The flag of a move. -/
def flag (b : Byte) : Nat :=
  b.toNat / 0x20 % 2

/-- The bytes between the last token and one that starts here. -/
def startFlag (b : Byte) : Nat :=
  if b.isStart then b.flag else 0

/-- The lines that a move goes on. -/
def skipFlag (b : Byte) : Nat :=
  if b.isFinal || b.isStart then 0 else b.flag

/-- The length of a move, without its flag. -/
def moveLength (b : Byte) : Nat :=
  if b.isFinal then 0 else b.toNat % 0x20

end Byte

/-- Moves and the byte that ends them. -/
structure ItemBlock where
  moves : Bytes
  final : Byte
  deriving DecidableEq

namespace ItemBlock

def bytes (block : ItemBlock) : Bytes :=
  block.moves ++ [block.final]

/-- The items of blocks one after another. -/
def join (blocks : List ItemBlock) : Bytes :=
  blocks.flatMap bytes

/-- The kind of token that the last item names. -/
def kind? (block : ItemBlock) : Option TokenKind :=
  TokenKind.ofOrdinal? block.final

/-- The bytes of a source that items pass over. -/
def passed (items : Bytes) : Nat :=
  (items.map fun b => b.moveLength + b.startFlag).sum

/-- The lines that items go on. -/
def lines (items : Bytes) : Nat :=
  (items.map Byte.skipFlag).sum

/-- The items are those of the blocks and of the moves behind them. -/
structure Parts (items : Bytes) (blocks : List ItemBlock) (trailing : Bytes) : Prop where
  items_eq : items = join blocks ++ trailing
  moves : ∀ block ∈ blocks, ∀ b ∈ block.moves, b.isFinal = false
  final : ∀ block ∈ blocks, block.final.isFinal
  trailing : ∀ b ∈ trailing, b.isFinal = false

/-- A token starts where the last of the moves that start one has its start. If none of them does, the
start stays where it was. -/
inductive StartsAt (start offset : UInt64) (moves : Bytes) : UInt64 → Prop
  | kept (none : ∀ b ∈ moves, b.isStart = false) : StartsAt start offset moves start
  | last {before after : Bytes} {b : Byte} (moves_eq : moves = before ++ b :: after)
      (isStart : b.isStart) (none : ∀ b ∈ after, b.isStart = false) :
      StartsAt start offset moves (offset + UInt64.ofNat (passed before + b.startFlag))

@[simp]
theorem join_nil : join [] = [] := rfl

@[simp]
theorem join_cons (block : ItemBlock) (blocks : List ItemBlock) :
    join (block :: blocks) = block.moves ++ block.final :: join blocks := by
  simp [join, bytes]

@[simp]
theorem join_append (blocks later : List ItemBlock) :
    join (blocks ++ later) = join blocks ++ join later := by
  simp [join]

@[simp]
theorem passed_nil : passed [] = 0 := rfl

@[simp]
theorem passed_cons (b : Byte) (items : Bytes) :
    passed (b :: items) = b.moveLength + b.startFlag + passed items := by
  simp [passed]

@[simp]
theorem passed_append (items later : Bytes) :
    passed (items ++ later) = passed items + passed later := by
  simp [passed]

@[simp]
theorem lines_nil : lines [] = 0 := rfl

@[simp]
theorem lines_cons (b : Byte) (items : Bytes) : lines (b :: items) = b.skipFlag + lines items := by
  simp [lines]

@[simp]
theorem lines_append (items later : Bytes) : lines (items ++ later) = lines items + lines later := by
  simp [lines]

/-- The item that ends a block moves nothing. -/
theorem passed_bytes {block : ItemBlock} (final : block.final.isFinal) :
    passed block.bytes = passed block.moves := by
  have notStart : block.final.isStart = false := by
    have untagged : block.final < 0x80 := by simpa [Byte.isFinal] using final
    simp [Byte.isStart, UInt8.not_le.mpr untagged]
  simp [bytes, Byte.moveLength, Byte.startFlag, final, notStart]

theorem lines_bytes {block : ItemBlock} (final : block.final.isFinal) :
    lines block.bytes = lines block.moves := by
  simp [bytes, Byte.skipFlag, final]

theorem Parts.cons_final {items trailing : Bytes} {blocks : List ItemBlock} {b : Byte}
    (final : b.isFinal) (parts : Parts items blocks trailing) :
    Parts (b :: items) (⟨[], b⟩ :: blocks) trailing where
  items_eq := by simp [parts.items_eq]
  moves := List.forall_mem_cons.mpr ⟨by simp, parts.moves⟩
  final := List.forall_mem_cons.mpr ⟨final, parts.final⟩
  trailing := parts.trailing

/-- A move belongs to the first block, or to the moves behind all blocks if there is none. -/
theorem Parts.exists_cons_move {items trailing : Bytes} {blocks : List ItemBlock} {b : Byte}
    (move : b.isFinal = false) (parts : Parts items blocks trailing) :
    ∃ blocks trailing, Parts (b :: items) blocks trailing := by
  obtain ⟨items_eq, moves, final, behind⟩ := parts
  cases blocks with
  | nil =>
    refine ⟨[], b :: trailing, by simp [items_eq], by simp, by simp, ?_⟩
    exact List.forall_mem_cons.mpr ⟨move, behind⟩
  | cons block blocks =>
    obtain ⟨first, others⟩ := List.forall_mem_cons.mp moves
    refine ⟨⟨b :: block.moves, block.final⟩ :: blocks, trailing, by simp [items_eq], ?_, ?_, behind⟩
    · exact List.forall_mem_cons.mpr ⟨List.forall_mem_cons.mpr ⟨move, first⟩, others⟩
    · exact List.forall_mem_cons.mpr (List.forall_mem_cons.mp final)

theorem exists_parts (items : Bytes) : ∃ blocks trailing, Parts items blocks trailing := by
  induction items with
  | nil => exact ⟨[], [], rfl, by simp, by simp, by simp⟩
  | cons b items ih =>
    obtain ⟨blocks, trailing, parts⟩ := ih
    cases final : b.isFinal with
    | true => exact ⟨_, _, parts.cons_final final⟩
    | false => exact parts.exists_cons_move final

section StartsAt

variable {start offset found : UInt64} {b : Byte} {moves : Bytes}

theorem StartsAt.cons_start (isStart : b.isStart)
    (starts : StartsAt (offset + UInt64.ofNat b.startFlag)
      (offset + UInt64.ofNat (b.moveLength + b.startFlag)) moves found) :
    StartsAt start offset (b :: moves) found := by
  cases starts with
  | kept none =>
    have moves_eq : b :: moves = [] ++ b :: moves := rfl
    have first : StartsAt start offset (b :: moves) _ := .last moves_eq isStart none
    simpa using first
  | @last before after c moves_eq isStart' none =>
    have cons_eq : b :: moves = (b :: before) ++ c :: after := congrArg (b :: ·) moves_eq
    have later : StartsAt start offset (b :: moves) _ := .last cons_eq isStart' none
    simpa [UInt64.add_assoc, Nat.add_assoc] using later

theorem StartsAt.cons_skip (notStart : b.isStart = false)
    (starts : StartsAt start (offset + UInt64.ofNat (b.moveLength + b.startFlag)) moves found) :
    StartsAt start offset (b :: moves) found := by
  cases starts with
  | kept none => exact .kept (List.forall_mem_cons.mpr ⟨notStart, none⟩)
  | @last before after c moves_eq isStart' none =>
    have cons_eq : b :: moves = (b :: before) ++ c :: after := congrArg (b :: ·) moves_eq
    have later : StartsAt start offset (b :: moves) _ := .last cons_eq isStart' none
    simpa [UInt64.add_assoc, Nat.add_assoc] using later

end StartsAt

end ItemBlock

theorem RecordingItem.decode_move {b : Byte} (move : b.isFinal = false) :
    decode b = .ok (if b.isStart then .start b.flag b.moveLength else .skip b.flag b.moveLength) := by
  have tagged : ¬b < 0x80 := by simpa [Byte.isFinal] using move
  have isStart : b.isStart = decide (b < 0xC0) := by
    simp [Byte.isStart, UInt8.not_lt.mp tagged]
  simp only [decode, if_neg tagged, isStart, Byte.flag, Byte.moveLength, move, decide_eq_true_eq]
  split <;> simp

theorem RecordingItem.decode_final {b : Byte} (final : b.isFinal) :
    decode b = (TokenKind.ofOrdinal? b).elim (.error .unknownKind) fun kind => .ok (.finish kind) := by
  have untagged : b < 0x80 := by simpa [Byte.isFinal] using final
  rw [decode, if_pos untagged]
  cases TokenKind.ofOrdinal? b <;> rfl

namespace Replay

open ItemBlock

theorem consume_move (kept : Replay) {b : Byte} (move : b.isFinal = false) (line : UInt32)
    (start offset : UInt64) (rest : Bytes) :
    kept.consume line start offset (b :: rest) =
      kept.consume (line + UInt32.ofNat b.skipFlag)
        (if b.isStart then offset + UInt64.ofNat b.startFlag else start)
        (offset + UInt64.ofNat (b.moveLength + b.startFlag)) rest := by
  rw [consume, RecordingItem.decode_move move]
  cases isStart : b.isStart with
  | true => simp [Byte.startFlag, Byte.skipFlag, move, isStart, UInt64.add_comm, UInt64.add_assoc]
  | false => simp [Byte.startFlag, Byte.skipFlag, move, isStart]

/-- Moves are consumed without an answer. -/
theorem exists_consume_moves (kept : Replay) {moves : Bytes} (all : ∀ b ∈ moves, b.isFinal = false)
    (line : UInt32) (start offset : UInt64) (rest : Bytes) :
    ∃ found, StartsAt start offset moves found ∧
      kept.consume line start offset (moves ++ rest) =
        kept.consume (line + UInt32.ofNat (lines moves)) found
          (offset + UInt64.ofNat (passed moves)) rest := by
  induction moves generalizing line start offset with
  | nil => exact ⟨start, .kept (by simp), by simp⟩
  | cons b moves ih =>
    obtain ⟨move, others⟩ := List.forall_mem_cons.mp all
    obtain ⟨found, starts, consumed⟩ := ih others (line + UInt32.ofNat b.skipFlag)
      (if b.isStart then offset + UInt64.ofNat b.startFlag else start)
      (offset + UInt64.ofNat (b.moveLength + b.startFlag))
    refine ⟨found, ?_, ?_⟩
    · cases isStart : b.isStart with
      | true =>
        rw [isStart] at starts
        exact .cons_start isStart starts
      | false =>
        rw [isStart] at starts
        exact .cons_skip isStart starts
    · rw [List.cons_append, kept.consume_move move, consumed]
      simp [UInt32.add_assoc, UInt64.add_assoc]

/-- What a call makes of the moves that it goes over. -/
structure Moves (r : Replay) (moves rest : Bytes) (after : Replay) : Prop where
  items_eq : after.items = rest
  line_eq : after.line = r.line + UInt32.ofNat (lines moves)
  stop_eq : after.stop = r.stop + UInt64.ofNat (passed moves)
  starts : StartsAt r.stop r.stop moves after.start

/-- What a call comes to that goes over a block: the token that is named, behind the moves, or a
refusal that leaves everything but the items as it was. -/
inductive Finds (r : Replay) (block : ItemBlock) (rest : Bytes) :
    Except RecordingError TokenKind × Replay → Prop
  | token {kind : TokenKind} {after : Replay} (named : block.kind? = some kind)
      (moves : r.Moves block.moves rest after) : Finds r block rest (.ok kind, after)
  | refusal (unnamed : block.kind? = none) :
      Finds r block rest (.error .unknownKind, { r with items := rest })

variable {r : Replay}

theorem finds_next {block : ItemBlock} {rest : Bytes} (items_eq : r.items = block.bytes ++ rest)
    (moves : ∀ b ∈ block.moves, b.isFinal = false) (final : block.final.isFinal) :
    r.Finds block rest r.next := by
  obtain ⟨found, starts, consumed⟩ :=
    r.exists_consume_moves moves r.line r.stop r.stop (block.final :: rest)
  have next_eq : r.next = r.consume r.line r.stop r.stop (block.moves ++ block.final :: rest) := by
    simp [next, items_eq, ItemBlock.bytes]
  rw [next_eq, consumed, consume, RecordingItem.decode_final final]
  cases named : TokenKind.ofOrdinal? block.final with
  | none => exact .refusal named
  | some kind => exact .token named ⟨rfl, rfl, rfl, starts⟩

/-- With no block left a call goes over the moves that are left and comes to the end. -/
theorem exists_next_of_moves (moves : ∀ b ∈ r.items, b.isFinal = false) :
    ∃ after, r.next = (.ok .endOfSource, after) ∧ r.Moves r.items [] after := by
  obtain ⟨found, starts, consumed⟩ := r.exists_consume_moves moves r.line r.stop r.stop []
  rw [List.append_nil] at consumed
  exact ⟨_, consumed, rfl, rfl, rfl, starts⟩

def afterCalls (r : Replay) : Nat → Replay
  | 0 => r
  | n + 1 => (r.afterCalls n).next.2

theorem Finds.items_eq {block : ItemBlock} {rest : Bytes}
    {step : Except RecordingError TokenKind × Replay} (finds : r.Finds block rest step) :
    step.2.items = rest := by
  cases finds with
  | token _ moves => exact moves.items_eq
  | refusal => rfl

theorem Finds.exists_token {block : ItemBlock} {rest : Bytes}
    {step : Except RecordingError TokenKind × Replay} (finds : r.Finds block rest step)
    (named : block.kind?.isSome) :
    ∃ kind after, block.kind? = some kind ∧ step = (.ok kind, after) ∧
      r.Moves block.moves rest after := by
  cases finds with
  | @token kind after isKind moves => exact ⟨kind, after, isKind, rfl, moves⟩
  | refusal unnamed => simp [unnamed] at named

theorem afterCalls_add (r : Replay) (m n : Nat) :
    r.afterCalls (m + n) = (r.afterCalls m).afterCalls n := by
  induction n with
  | zero => rfl
  | succ n ih => rw [← Nat.add_assoc, afterCalls, ih, afterCalls]

/-- At the end every call comes to the end again. -/
theorem next_afterCalls_of_items_eq_nil (items_eq : r.items = []) (n : Nat) :
    (r.afterCalls n).next = (.ok .endOfSource, ⟨[], r.line, r.stop, r.stop⟩) := by
  induction n with
  | zero => rw [afterCalls, next, items_eq, consume]
  | succ n ih =>
    rw [afterCalls, ih]
    rfl

variable {items trailing : Bytes} {blocks : List ItemBlock}

/-- A call before one of the blocks goes over it. -/
theorem finds_of_items_eq (parts : Parts items blocks trailing) {k : Nat} (within : k < blocks.length)
    (items_eq : r.items = join (blocks.drop k) ++ trailing) :
    r.Finds blocks[k] (join (blocks.drop (k + 1)) ++ trailing) r.next := by
  have isBlock : blocks[k] ∈ blocks := List.getElem_mem within
  rw [List.drop_eq_getElem_cons within, join, List.flatMap_cons, List.append_assoc] at items_eq
  exact finds_next items_eq (parts.moves _ isBlock) (parts.final _ isBlock)

/-- Each call goes over a block, as long as there are any. -/
theorem items_afterCalls (parts : Parts items blocks trailing) (items_eq : r.items = items) {k : Nat}
    (within : k ≤ blocks.length) :
    (r.afterCalls k).items = join (blocks.drop k) ++ trailing := by
  induction k with
  | zero => simpa [afterCalls, items_eq] using parts.items_eq
  | succ k ih => exact (finds_of_items_eq parts within (ih (Nat.le_of_succ_le within))).items_eq

theorem finds_afterCalls (parts : Parts items blocks trailing) (items_eq : r.items = items) {k : Nat}
    {block : ItemBlock} (isBlock : blocks[k]? = some block) :
    (r.afterCalls k).Finds block (join (blocks.drop (k + 1)) ++ trailing) (r.afterCalls k).next := by
  obtain ⟨within, rfl⟩ := List.getElem?_eq_some_iff.mp isBlock
  exact finds_of_items_eq parts within (items_afterCalls parts items_eq (Nat.le_of_lt within))

/-- The place of a token whose moves follow the given items, from the origin on. -/
structure Stands (r : Replay) (line : UInt32) (offset : UInt64) (earlier moves : Bytes) : Prop where
  line_eq : r.line = line + UInt32.ofNat (lines (earlier ++ moves))
  stop_eq : r.stop = offset + UInt64.ofNat (passed (earlier ++ moves))
  starts : StartsAt (offset + UInt64.ofNat (passed earlier)) (offset + UInt64.ofNat (passed earlier))
    moves r.start

/-- The end of the last token is known from the items before it. -/
structure Behind (r : Replay) (line : UInt32) (offset : UInt64) (earlier : Bytes) : Prop where
  line_eq : r.line = line + UInt32.ofNat (lines earlier)
  stop_eq : r.stop = offset + UInt64.ofNat (passed earlier)

theorem Moves.stands {line : UInt32} {offset : UInt64} {earlier moves rest : Bytes} {after : Replay}
    (moved : r.Moves moves rest after) (behind : r.Behind line offset earlier) :
    after.Stands line offset earlier moves where
  line_eq := by simp [moved.line_eq, behind.line_eq, UInt32.add_assoc]
  stop_eq := by simp [moved.stop_eq, behind.stop_eq, UInt64.add_assoc]
  starts := behind.stop_eq ▸ moved.starts

/-- As long as every block names a token, a call ends where the items before it lead to. -/
theorem behind_afterCalls (parts : Parts items blocks trailing) (items_eq : r.items = items)
    (named : ∀ block ∈ blocks, block.kind?.isSome) {k : Nat} (within : k ≤ blocks.length) :
    (r.afterCalls k).Behind r.line r.stop (join (blocks.take k)) := by
  induction k with
  | zero => exact ⟨by simp [afterCalls], by simp [afterCalls]⟩
  | succ k ih =>
    have behind := ih (Nat.le_of_succ_le within)
    have isBlock : blocks[k]? = some blocks[k] := List.getElem?_eq_getElem within
    have membership : blocks[k] ∈ blocks := List.getElem_mem within
    have final := parts.final _ membership
    have taken : join (blocks.take (k + 1)) = join (blocks.take k) ++ blocks[k].bytes := by
      rw [List.take_succ_eq_append_getElem within, join_append]
      simp [bytes]
    obtain ⟨kind, after, _, next_eq, moved⟩ :=
      (finds_afterCalls parts items_eq isBlock).exists_token (named _ membership)
    have after_eq : r.afterCalls (k + 1) = after := congrArg Prod.snd next_eq
    have stands := moved.stands behind
    rw [taken, after_eq]
    constructor
    · simpa [lines_bytes final] using stands.line_eq
    · simpa [passed_bytes final] using stands.stop_eq

/-- Any bytes can be replayed from any origin, and each is consumed by one call. A call that goes over
a block finds the token that its last item names, from where the call before has left the line and
the end of the range. If the item names none, the call fails and leaves them there, with the block
consumed. The call behind the blocks comes to the end, and so does every later one, at the end of
its range. When every item that should name a token does, lines and offsets are sums over all items
from the origin on. -/
theorem calls_of_items (items : Bytes) (line : UInt32) (offset : UInt64) :
    let r := ofItems items line offset
    ∃ blocks trailing, Parts items blocks trailing ∧
      (∀ k block, blocks[k]? = some block →
        (r.afterCalls k).Finds block (join (blocks.drop (k + 1)) ++ trailing)
          (r.afterCalls k).next) ∧
      (∃ last, (r.afterCalls blocks.length).next = (.ok .endOfSource, last) ∧
        (r.afterCalls blocks.length).Moves trailing [] last ∧
        ∀ n, blocks.length < n → (r.afterCalls n).next =
          (.ok .endOfSource, ⟨[], last.line, last.stop, last.stop⟩)) ∧
      ((∀ b ∈ items, b.isFinal → (TokenKind.ofOrdinal? b).isSome) →
        (∀ k block, blocks[k]? = some block → ∃ kind, block.kind? = some kind ∧
          (r.afterCalls k).next.1 = .ok kind ∧
          (r.afterCalls k).next.2.Stands line offset (join (blocks.take k)) block.moves) ∧
        (r.afterCalls blocks.length).next.2.Stands line offset (join blocks) trailing) := by
  intro r
  obtain ⟨blocks, trailing, parts⟩ := exists_parts items
  have items_eq : r.items = items := rfl
  have remaining : (r.afterCalls blocks.length).items = trailing := by
    simpa using items_afterCalls parts items_eq (Nat.le_refl _)
  have moves : ∀ b ∈ (r.afterCalls blocks.length).items, b.isFinal = false := by
    rw [remaining]
    exact parts.trailing
  obtain ⟨last, ended, moved⟩ := exists_next_of_moves moves
  rw [remaining] at moved
  refine ⟨blocks, trailing, parts, fun k block => finds_afterCalls parts items_eq,
    ⟨last, ended, moved, ?_⟩, ?_⟩
  · intro n beyond
    obtain ⟨more, rfl⟩ := Nat.exists_eq_add_of_le beyond
    rw [afterCalls_add, afterCalls, ended]
    exact next_afterCalls_of_items_eq_nil moved.items_eq more
  · intro named
    have kinds : ∀ block ∈ blocks, block.kind?.isSome := by
      intro block membership
      apply named block.final ?_ (parts.final block membership)
      rw [parts.items_eq]
      apply List.mem_append_left
      exact List.mem_flatMap.mpr ⟨block, membership, List.mem_append_right _ List.mem_cons_self⟩
    constructor
    · intro k block isBlock
      have within := (List.getElem?_eq_some_iff.mp isBlock).1
      have behind := behind_afterCalls parts items_eq kinds (Nat.le_of_lt within)
      obtain ⟨kind, after, isKind, next_eq, found⟩ :=
        (finds_afterCalls parts items_eq isBlock).exists_token
          (kinds block (List.mem_of_getElem? isBlock))
      rw [next_eq]
      exact ⟨kind, isKind, rfl, found.stands behind⟩
    · have behind := behind_afterCalls parts items_eq kinds (Nat.le_refl _)
      rw [List.take_length] at behind
      rw [ended]
      exact moved.stands behind

/-- Two moves start a token, and another is left behind it. -/
theorem calls_of_items_two_starts :
    let items : Bytes := [0xE1, 0xA2, 0x83, 0x00, 0xC5]
    let r := ofItems items 7 10
    (∀ b ∈ items, b.isFinal → (TokenKind.ofOrdinal? b).isSome) ∧
      ∃ blocks trailing, Parts items blocks trailing ∧
        (r.afterCalls blocks.length).next.2.Stands 7 10 (join blocks) trailing := by
  intro items r
  have each : items.all fun b => !b.isFinal || (TokenKind.ofOrdinal? b).isSome := by decide
  have named : ∀ b ∈ items, b.isFinal → (TokenKind.ofOrdinal? b).isSome := by
    intro b membership final
    simpa [final] using List.all_eq_true.mp each b membership
  obtain ⟨blocks, trailing, parts, _, _, summed⟩ := calls_of_items items 7 10
  exact ⟨named, blocks, trailing, parts, (summed named).2⟩

/-- The first call fails at an item that names nothing, and the second goes on from the origin. -/
example : let r := ofItems [0xE1, 0x7F, 0x82, 0x00] 7 10
    r.next.1 = .error .unknownKind ∧
      (r.afterCalls 1).next = (.ok .identifier, ⟨[], 7, 10, 12⟩) := ⟨rfl, rfl⟩

end Replay

end AssemblyLexer
