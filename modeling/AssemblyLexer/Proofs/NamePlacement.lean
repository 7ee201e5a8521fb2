import AssemblyLexer.Proofs.ArenaChain
import AssemblyLexer.Proofs.NameHistory
import Mathlib.Data.List.Pairwise

/-!
Where a table keeps its names. Whatever operations a table goes through, also when some of
them fail, a name stays in the range that it was given, the ranges have no byte in common,
and there are no more arenas than the names need. A table that has had no failure has the
names of the table that only counts its arenas, and as many arenas.
-/

set_option autoImplicit false

namespace AssemblyLexer

@[simp]
theorem Arena.remaining_claim (a : Arena) {size : Nat} (fits : size ≤ a.remaining) :
    (a.claim size fits).remaining = a.remaining - size :=
  Nat.sub_add_eq _ _ _

@[simp]
theorem Chunk.remaining_write (c : Chunk) (text : Bytes) (fits : text.length ≤ c.arena.remaining) :
    (c.write text fits).arena.remaining = c.arena.remaining - text.length :=
  c.arena.remaining_claim fits

@[simp]
theorem Chunk.remaining_holding (capacity : Nat) (text : Bytes) (fits : text.length ≤ capacity) :
    (Chunk.holding capacity text fits).arena.remaining = capacity - text.length :=
  (Chunk.ofCapacity capacity).remaining_write text fits

theorem ArenaBuffer.Takes.remaining_eq {b after : ArenaBuffer} {text : Bytes}
    (takes : b.Takes text after) : after.arena.remaining = b.arena.remaining - text.length := by
  rw [Arena.remaining, takes.capacity_eq, takes.used_eq, Nat.sub_add_eq, Arena.remaining]

namespace ArenaChain

@[simp]
theorem read_zero (c : ArenaChain) : c.read ⟨0, 0, 0⟩ = [] := by
  rw [read]
  split <;> simp [ArenaBuffer.read]

/-- How much room is left for short texts before an arena is opened for them. -/
def room? (c : ArenaChain) : Option Nat :=
  c.currentArena?.map fun current => current.2.arena.remaining

/-- The storage has as many chunks as there are arenas, and as much room for short texts. -/
structure Mirrors (c : ArenaChain) (s : Storage) : Prop where
  size_eq : c.size = s.size
  count_eq : c.arenas.length = s.chunkCount
  room_eq : c.room? = s.shared.head?.map fun chunk => chunk.arena.remaining

variable {c c' : ArenaChain} {text : Bytes} {range : ArenaRange} {s : Storage}

theorem room?_eq_some {i : Nat} {b : ArenaBuffer} (isCurrent : c.current? = some i)
    (isArena : c.arenas[i]? = some b) : c.room? = some b.arena.remaining := by
  simp [room?, currentArena?, isCurrent, isArena]

theorem room?_append (sound : c.Sound) (b : ArenaBuffer) (size : Nat) :
    room? ⟨c.arenas ++ [b], c.current?, size⟩ = c.room? := by
  cases isCurrent : c.current? with
  | none => simp [room?, currentArena?, isCurrent]
  | some i =>
    have within := sound.current i isCurrent
    simp [room?, currentArena?, isCurrent, List.getElem?_append_left within]

theorem room?_lt {room : Nat} (isRoom : c.room? = some room)
    (full : ∀ i b, c.current? = some i → c.arenas[i]? = some b → b.arena.remaining < text.length) :
    room < text.length := by
  obtain ⟨⟨i, b⟩, isCurrent, rfl⟩ := Option.map_eq_some_iff.mp isRoom
  obtain ⟨j, isIndex, isArena⟩ := Option.bind_eq_some_iff.mp isCurrent
  obtain ⟨other, isOther, pair_eq⟩ := Option.map_eq_some_iff.mp isArena
  obtain rfl : other = b := congrArg Prod.snd pair_eq
  exact full j other isIndex isOther

theorem Mirrors.storeLong (mirrors : c.Mirrors s) (sound : c.Sound) (b : ArenaBuffer)
    (text : Bytes) :
    Mirrors ⟨c.arenas ++ [b], c.current?, c.size + text.length⟩ (s.storeLong text).1 where
  size_eq := by simp [Storage.storeLong, mirrors.size_eq]
  count_eq := by
    have count_eq := mirrors.count_eq
    simp only [Storage.chunkCount] at count_eq
    simp [Storage.storeLong, Storage.chunkCount]
    omega
  room_eq := (room?_append sound b _).trans mirrors.room_eq

theorem Mirrors.storeRenewed (mirrors : c.Mirrors s) {b : ArenaBuffer}
    (short : text.length < Storage.longLength)
    (full : ∀ i b, c.current? = some i → c.arenas[i]? = some b → b.arena.remaining < text.length)
    (remaining_eq : b.arena.remaining = Storage.chunkCapacity - text.length) :
    Mirrors ⟨c.arenas ++ [b], some c.arenas.length, c.size + text.length⟩
      (s.storeShort text short).1 := by
  have room_eq := mirrors.room_eq
  have count_eq := mirrors.count_eq
  have renewed_eq : room? ⟨c.arenas ++ [b], some c.arenas.length, c.size + text.length⟩ =
      some (Storage.chunkCapacity - text.length) :=
    remaining_eq ▸ room?_eq_some rfl (by simp)
  rw [Storage.chunkCount] at count_eq
  rw [Storage.storeShort]
  cases isShared : s.shared with
  | nil =>
    refine ⟨by simp [mirrors.size_eq], ?_, renewed_eq.trans ?_⟩
    · simp [Storage.chunkCount, count_eq, isShared]
    · simp
  | cons chunk older =>
    rw [isShared] at room_eq
    have noRoom : ¬text.length ≤ chunk.arena.remaining := Nat.not_le.mpr (room?_lt room_eq full)
    simp only [dif_neg noRoom]
    refine ⟨by simp [mirrors.size_eq], ?_, renewed_eq.trans ?_⟩
    · simp [Storage.chunkCount, count_eq, isShared]
      omega
    · simp

theorem Mirrors.storeBehind (mirrors : c.Mirrors s) {i : Nat} {b after : ArenaBuffer}
    (short : text.length < Storage.longLength) (isCurrent : c.current? = some i)
    (isArena : c.arenas[i]? = some b) (takes : b.Takes text after) :
    Mirrors ⟨c.arenas.set i after, c.current?, c.size + text.length⟩
      (s.storeShort text short).1 := by
  have within := (List.getElem?_eq_some_iff.mp isArena).1
  have room_eq := mirrors.room_eq
  rw [room?_eq_some isCurrent isArena] at room_eq
  obtain ⟨chunk, isHead, same⟩ := Option.map_eq_some_iff.mp room_eq.symm
  obtain ⟨older, isShared⟩ := List.head?_eq_some_iff.mp isHead
  have fits : text.length ≤ chunk.arena.remaining := by
    have used_le := takes.used_le
    rw [same, Arena.remaining]
    omega
  have behind_eq : room? ⟨c.arenas.set i after, c.current?, c.size + text.length⟩ =
      some after.arena.remaining :=
    room?_eq_some isCurrent (by simp [within])
  rw [Storage.storeShort]
  simp only [isShared, dif_pos fits]
  refine ⟨by simp [mirrors.size_eq], ?_, behind_eq.trans ?_⟩
  · simpa [Storage.chunkCount, isShared] using mirrors.count_eq
  · simp [takes.remaining_eq, same]

theorem Stored.mirrors (stored : c.Stored text c' range) (sound : c.Sound) (mirrors : c.Mirrors s) :
    c'.Mirrors (s.store text).1 := by
  rw [Storage.store]
  cases stored with
  | dedicated long fresh takes =>
    rw [dif_neg (Nat.not_lt.mpr long)]
    exact mirrors.storeLong sound _ text
  | renewed short full fresh takes =>
    rw [dif_pos short]
    exact mirrors.storeRenewed short full takes.remaining_eq
  | behind short isCurrent isArena takes =>
    rw [dif_pos short]
    exact mirrors.storeBehind short isCurrent isArena takes

end ArenaChain

instance : Std.Symm ArenaRange.Apart where
  symm r s apart := by
    rcases apart with arena_ne | before | behind
    · exact .inl arena_ne.symm
    · exact .inr (.inr before)
    · exact .inr (.inl behind)

namespace PlacedTable

open ArenaChain (longCount shortBytes leastFill newCapacity)

variable {t t' later : PlacedTable} {allocator : Allocator} {text : Bytes} {name : Name}
  {ranges : List ArenaRange} {shared : List Nat} {operation : NameOperation} {n : NameTable}

/-- The names but for the empty one have the given ranges, in the given order. -/
structure Holds (t : PlacedTable) (ranges : List ArenaRange) (shared : List Nat) : Prop where
  ranges_eq : t.ranges = ⟨0, 0, 0⟩ :: ranges
  /-- The index has each range with its number. -/
  index_eq : t.index = t.ranges.mapIdx fun i range => (range, ⟨i⟩)
  sound : t.chain.Sound
  separate : t.chain.Separate ranges
  packs : t.chain.Packs ranges shared
  distinct : t.texts.Nodup

/-- A later table has not moved a name. -/
structure Extends (t later : PlacedTable) : Prop where
  ranges_prefix : t.ranges <+: later.ranges
  keeps : t.chain.Keeps later.chain

theorem Extends.refl (t : PlacedTable) : t.Extends t :=
  ⟨List.prefix_refl _, .refl _⟩

theorem Extends.trans (before : t.Extends t') (further : t'.Extends later) : t.Extends later :=
  ⟨before.ranges_prefix.trans further.ranges_prefix, before.keeps.trans further.keeps⟩

/-- A name reads the same however much is stored later. -/
theorem Holds.read_eq (holds : t.Holds ranges shared) {chain : ArenaChain}
    (keeps : t.chain.Keeps chain) {r : ArenaRange} (membership : r ∈ t.ranges) :
    chain.read r = t.chain.read r := by
  rw [holds.ranges_eq] at membership
  rcases List.mem_cons.mp membership with rfl | isPlaced
  · simp
  · exact ((holds.separate.spans r isPlaced).keeps keeps).2

theorem Holds.nil_mem (holds : t.Holds ranges shared) : [] ∈ t.texts := by
  simp [texts, holds.ranges_eq]

/-- A text that is looked up in the index is what the first such range reads. -/
theorem Holds.find?_eq (holds : t.Holds ranges shared) (text : Bytes) :
    t.find? text = (t.ranges.findIdx? fun range => t.chain.read range == text).map Name.mk := by
  rw [find?, holds.index_eq]
  exact NameTable.find?_mapIdx t.ranges id (fun range => t.chain.read range == text) 0

theorem Holds.find?_eq_none_iff (holds : t.Holds ranges shared) :
    t.find? text = none ↔ text ∉ t.texts := by
  simp [holds.find?_eq, texts]

/-- Everything that adding a text can come to. -/
inductive Adds (t : PlacedTable) (text : Bytes) :
    Except NameTableError (PlacedTable × Name) → Prop
  | known {name : Name} (isName : t.find? text = some name) : Adds t text (.ok (t, name))
  | exhausted (full : NameTable.limit ≤ t.ranges.length) : Adds t text (.error .namesExhausted)
  | lacking : Adds t text (.error .outOfMemory)
  | new {chain : ArenaChain} {range : ArenaRange} (unknown : t.find? text = none)
      (stored : t.chain.Stored text chain range) :
      Adds t text (.ok (⟨chain, t.ranges ++ [range], t.index ++ [(range, ⟨t.ranges.length⟩)],
        t.pending⟩, ⟨t.ranges.length⟩))

theorem Holds.adds (holds : t.Holds ranges shared) (allocator : Allocator) (text : Bytes) :
    t.Adds text (t.add allocator text) := by
  rw [add]
  cases found : t.find? text with
  | some name => exact .known found
  | none =>
    by_cases full : NameTable.limit ≤ t.ranges.length
    · simp only [if_pos full]
      exact .exhausted full
    · simp only [if_neg full]
      rcases holds.sound.storesOrLacks allocator text with ⟨_, _, stored_eq, stored⟩ | ⟨failed, _⟩
      · rw [stored_eq]
        exact .new found stored
      · rw [failed]
        exact .lacking

theorem Holds.texts_new (holds : t.Holds ranges shared) {chain : ArenaChain} {range : ArenaRange}
    (stored : t.chain.Stored text chain range) :
    (t.ranges ++ [range]).map chain.read = t.texts ++ [text] := by
  have kept : t.ranges.map chain.read = t.texts :=
    List.map_congr_left fun _ membership => holds.read_eq (stored.keeps holds.sound) membership
  obtain ⟨_, _, read_eq, _⟩ := stored.spans holds.sound
  simp [kept, read_eq]

theorem Holds.new (holds : t.Holds ranges shared) {chain : ArenaChain} {range : ArenaRange}
    (unknown : text ∉ t.texts) (stored : t.chain.Stored text chain range) :
    ∃ shared', Holds ⟨chain, t.ranges ++ [range], t.index ++ [(range, ⟨t.ranges.length⟩)], t.pending⟩
      (ranges ++ [range]) shared' := by
  have positive : 0 < text.length := by
    apply List.length_pos_iff.mpr
    rintro rfl
    exact unknown holds.nil_mem
  obtain ⟨shared', packs⟩ := holds.packs.append stored holds.sound
  refine ⟨shared', ?_, ?_, stored.sound holds.sound, ?_, packs, ?_⟩
  · simp [holds.ranges_eq]
  · simp [holds.index_eq, List.mapIdx_append]
  · exact holds.separate.append stored holds.sound positive
  · rw [texts, holds.texts_new stored]
    apply List.nodup_append.mpr
    refine ⟨holds.distinct, List.pairwise_singleton _ _, ?_⟩
    rintro other isOld _ isNew rfl
    exact unknown (List.mem_singleton.mp isNew ▸ isOld)

theorem Adds.extends_holds (adds : t.Adds text (.ok (t', name))) (holds : t.Holds ranges shared) :
    t.Extends t' ∧ ∃ ranges' shared', t'.Holds ranges' shared' := by
  cases adds with
  | known => exact ⟨.refl t, ranges, shared, holds⟩
  | new unknown stored =>
    obtain ⟨shared', holds'⟩ := holds.new (holds.find?_eq_none_iff.mp unknown) stored
    exact ⟨⟨List.prefix_append _ _, stored.keeps holds.sound⟩, _, shared', holds'⟩

/-- An operation adds a text or it does not, and then it may change what is pending. -/
theorem apply_eq (t : PlacedTable) (allocator : Allocator) (operation : NameOperation) :
    t.apply allocator operation =
      match operation.interned? t.pending with
      | none => .ok { t with pending := operation.pendingAfter t.pending }
      | some text => (t.add allocator text).map fun (added, _) =>
          { added with pending := operation.pendingAfter added.pending } := by
  cases operation with
  | internPending =>
    simp only [apply, internPending, NameOperation.interned?, NameOperation.pendingAfter]
    cases found : t.find? t.pending with
    | some name =>
      rw [add, found]
      rfl
    | none =>
      dsimp only
      cases t.add allocator t.pending <;> rfl
  | _ => rfl

theorem cases_of_apply (applied : t.apply allocator operation = .ok later) :
    operation.interned? t.pending = none ∧
        later = { t with pending := operation.pendingAfter t.pending } ∨
      ∃ text added name, operation.interned? t.pending = some text ∧
        t.add allocator text = .ok (added, name) ∧
        later = { added with pending := operation.pendingAfter added.pending } := by
  rw [apply_eq] at applied
  cases isInterned : operation.interned? t.pending with
  | none =>
    simp only [isInterned] at applied
    exact .inl ⟨rfl, (Except.ok.inj applied).symm⟩
  | some text =>
    simp only [isInterned] at applied
    cases added : t.add allocator text with
    | error failure => simp [added, Except.map] at applied
    | ok result =>
      rw [added] at applied
      exact .inr ⟨text, result.1, result.2, rfl, added, (Except.ok.inj applied).symm⟩

theorem Holds.apply (holds : t.Holds ranges shared)
    (applied : t.apply allocator operation = .ok later) :
    t.Extends later ∧ ∃ ranges' shared', later.Holds ranges' shared' := by
  rcases cases_of_apply applied with ⟨_, rfl⟩ | ⟨text, added, name, _, isAdded, rfl⟩
  · exact ⟨⟨List.prefix_refl _, .refl _⟩, ranges, shared, { holds with }⟩
  · have adds := isAdded ▸ holds.adds allocator text
    obtain ⟨extended, ranges', shared', holds'⟩ := adds.extends_holds holds
    exact ⟨{ extended with }, ranges', shared', { holds' with }⟩

theorem Holds.attempt (holds : t.Holds ranges shared) (allocator : Allocator)
    (operation : NameOperation) : t.Extends (t.attempt allocator operation) ∧
      ∃ ranges' shared', (t.attempt allocator operation).Holds ranges' shared' := by
  rw [PlacedTable.attempt]
  cases applied : t.apply allocator operation with
  | ok later => exact holds.apply applied
  | error => exact ⟨.refl t, ranges, shared, holds⟩

theorem Holds.after (holds : t.Holds ranges shared) (allocator : Allocator)
    (history : List NameOperation) : t.Extends (t.after allocator history) ∧
      ∃ ranges' shared', (t.after allocator history).Holds ranges' shared' := by
  induction history generalizing t ranges shared with
  | nil => exact ⟨.refl t, ranges, shared, holds⟩
  | cons operation history ih =>
    obtain ⟨extended, ranges', shared', holds'⟩ := holds.attempt allocator operation
    obtain ⟨further, held⟩ := ih holds'
    exact ⟨extended.trans further, held⟩

theorem holds_empty : empty.Holds [] [] where
  ranges_eq := rfl
  index_eq := rfl
  sound := ⟨by simp [empty, ArenaChain.empty], by simp [empty, ArenaChain.empty]⟩
  separate := ArenaChain.separate_empty
  packs := ArenaChain.packs_empty
  distinct := by simp [texts, empty]

/-- The table that only counts its arenas has the same names. -/
structure Mirrors (t : PlacedTable) (n : NameTable) : Prop where
  texts_eq : t.texts = n.texts
  indexed : n.Indexed
  pending_eq : t.pending = n.pending
  chain : t.chain.Mirrors n.storage

/-- What is found through one index is found through the other, as each is in step with its names. -/
theorem Mirrors.find?_eq (mirrors : t.Mirrors n) (holds : t.Holds ranges shared) (text : Bytes) :
    t.find? text = n.find? text := by
  have index_eq := congrArg (List.findIdx? (· == text)) mirrors.texts_eq
  simp only [texts, NameTable.texts, List.findIdx?_map] at index_eq
  rw [holds.find?_eq, mirrors.indexed.find?_eq]
  exact congrArg (Option.map Name.mk) index_eq

theorem Adds.mirrors (adds : t.Adds text (.ok (t', name))) (holds : t.Holds ranges shared)
    (mirrors : t.Mirrors n) : t'.Mirrors (n.add text).1 ∧ name = (n.add text).2 := by
  cases adds with
  | known isName =>
    rw [mirrors.find?_eq holds] at isName
    rw [NameTable.add, isName]
    exact ⟨mirrors, rfl⟩
  | new unknown stored =>
    rw [mirrors.find?_eq holds] at unknown
    rw [NameTable.add, unknown]
    refine ⟨⟨?_, mirrors.indexed.insert text, mirrors.pending_eq,
      stored.mirrors holds.sound mirrors.chain⟩, ?_⟩
    · rw [texts, holds.texts_new stored, mirrors.texts_eq]
      simp [NameTable.texts, NameTable.insert]
    · have count_eq := congrArg List.length mirrors.texts_eq
      simp only [texts, NameTable.texts, List.length_map] at count_eq
      exact congrArg Name.mk count_eq

theorem mirrors_empty : empty.Mirrors .empty :=
  ⟨rfl, rfl, rfl, rfl, rfl, rfl⟩

end PlacedTable

theorem NameTable.apply_eq (n : NameTable) (operation : NameOperation) :
    n.apply operation =
      match operation.interned? n.pending with
      | none => { n with pending := operation.pendingAfter n.pending }
      | some text => { (n.add text).1 with
          pending := operation.pendingAfter (n.add text).1.pending } := by
  cases operation with
  | pushPendingCode code =>
    simp only [NameTable.apply, pushPendingCode, NameOperation.interned?, NameOperation.pendingAfter]
    cases Utf8.scalar? code <;> simp [pushPending]
  | internPending =>
    rw [NameTable.apply, internPending_eq]
    rfl
  | _ => rfl

namespace PlacedTable

open ArenaChain (longCount shortBytes leastFill newCapacity)

variable {t later : PlacedTable} {allocator : Allocator} {ranges : List ArenaRange}
  {shared : List Nat} {operation : NameOperation} {n : NameTable}

theorem Mirrors.apply (mirrors : t.Mirrors n) (holds : t.Holds ranges shared)
    (applied : t.apply allocator operation = .ok later) : later.Mirrors (n.apply operation) := by
  rw [NameTable.apply_eq, ← mirrors.pending_eq]
  rcases cases_of_apply applied with ⟨quiet, rfl⟩ | ⟨text, added, name, interned, isAdded, rfl⟩
  · rw [quiet]
    exact { mirrors with pending_eq := rfl, indexed := mirrors.indexed }
  · have adds := isAdded ▸ holds.adds allocator text
    obtain ⟨mirrored, _⟩ := adds.mirrors holds mirrors
    rw [interned, mirrored.pending_eq]
    exact { mirrored with pending_eq := rfl, indexed := mirrored.indexed }

/-- As long as no operation fails, the tables stay alike. -/
theorem Mirrors.run (mirrors : t.Mirrors n) (holds : t.Holds ranges shared)
    {history : List NameOperation} (finished : t.run allocator history = .ok later) :
    later.Mirrors (n.after history) ∧ later = t.after allocator history := by
  induction history generalizing t n ranges shared with
  | nil =>
    obtain rfl := Except.ok.inj finished
    exact ⟨mirrors, rfl⟩
  | cons operation history ih =>
    rw [PlacedTable.run, List.foldlM_cons] at finished
    cases applied : t.apply allocator operation with
    | error failure => simp [applied, bind, Except.bind] at finished
    | ok middle =>
      rw [applied] at finished
      obtain ⟨_, ranges', shared', holds'⟩ := holds.apply applied
      have attempt_eq : t.attempt allocator operation = middle := by
        rw [PlacedTable.attempt, applied]
      rw [after, List.foldl_cons, attempt_eq]
      exact ih (mirrors.apply holds applied) holds' finished

/-- The laws of the places of names: the ranges but for that of the empty name, and the arenas that
short names share. -/
structure Placed (t : PlacedTable) (ranges : List ArenaRange) (shared : List Nat) : Prop where
  ranges_eq : t.ranges = ⟨0, 0, 0⟩ :: ranges
  /-- The index has each range as the key of its number. -/
  index_eq : t.index = t.ranges.mapIdx fun i range => (range, ⟨i⟩)
  distinct : t.texts.Nodup
  /-- A name lies in what one arena has handed out. -/
  inside : ∀ r ∈ ranges, 0 < r.length ∧ (t.chain.read r).length = r.length ∧
    ∃ b, t.chain.arenas[r.arena]? = some b ∧ r.offset + r.length ≤ b.arena.used
  apart : ranges.Pairwise ArenaRange.Apart
  /-- A long name has an arena of its own size to itself. -/
  alone : ∀ r ∈ ranges, Storage.longLength ≤ r.length →
    (∃ b, t.chain.arenas[r.arena]? = some b ∧ b.arena.capacity = r.length) ∧
      ∀ s ∈ ranges, s.arena = r.arena → s = r
  /-- Every arena that is not a long name's is shared. -/
  covered : ∀ i < t.chain.arenas.length,
    i ∈ shared ∨ ∃ r ∈ ranges, Storage.longLength ≤ r.length ∧ r.arena = i
  mem_shared_iff : ∀ i, i ∈ shared ↔ ∃ r ∈ ranges, r.length < Storage.longLength ∧ r.arena = i
  /-- An arena that short names have moved on from is nearly full. -/
  filled : ∀ i ∈ shared, ∃ b, t.chain.arenas[i]? = some b ∧
    b.arena.capacity = Storage.chunkCapacity ∧
      (t.chain.current? = some i ∨ leastFill ≤ b.arena.used)
  size_eq : t.chain.size = t.texts.flatten.length
  arenas_eq : t.chain.arenas.length = longCount (t.texts.map List.length) + shared.length
  shared_eq_nil_iff : shared = [] ↔
    ∀ text ∈ t.texts, text ≠ [] → Storage.longLength ≤ text.length
  shared_le : shared.length ≤ 1 + shortBytes (t.texts.map List.length) / leastFill

namespace Holds

variable (holds : t.Holds ranges shared)

include holds

theorem length_read {r : ArenaRange} (membership : r ∈ ranges) :
    (t.chain.read r).length = r.length := by
  obtain ⟨b, isArena, within⟩ := holds.separate.spans r membership
  simp only [ArenaChain.read, isArena]
  exact ArenaBuffer.length_read (holds.sound.buffers b (List.mem_of_getElem? isArena)) within

theorem texts_eq : t.texts = [] :: ranges.map t.chain.read := by
  simp [texts, holds.ranges_eq]

theorem lengths_eq : t.texts.map List.length = 0 :: ranges.map ArenaRange.length := by
  rw [holds.texts_eq, List.map_cons, List.map_map]
  exact congrArg (List.cons 0) (List.map_congr_left fun r membership => holds.length_read membership)

/-- A name fills its arena, which leaves no place there for another. -/
theorem eq_of_arena_eq {r s : ArenaRange} (isRange : r ∈ ranges)
    (long : Storage.longLength ≤ r.length) (isOther : s ∈ ranges) (arena_eq : s.arena = r.arena) :
    s = r := by
  apply Classical.byContradiction
  intro differ
  obtain ⟨_, b, isArena, capacity_eq⟩ := holds.packs.dedicated r isRange long
  obtain ⟨b', isArena', within⟩ := holds.separate.spans r isRange
  obtain ⟨b'', isArena'', within'⟩ := holds.separate.spans s isOther
  obtain rfl := Option.some.inj (isArena.symm.trans isArena')
  obtain rfl := Option.some.inj (isArena.symm.trans (arena_eq ▸ isArena''))
  have used_le := b.arena.used_le
  have positive := holds.separate.positive s isOther
  rcases holds.separate.apart.forall isOther isRange differ with arena_ne | before | behind
  · exact arena_ne arena_eq
  · omega
  · omega

theorem shared_le : shared.length ≤ 1 + shortBytes (ranges.map ArenaRange.length) / leastFill := by
  have used_le := Nat.le_trans (Nat.le_add_right _ _) holds.packs.used_le
  rw [Nat.mul_comm] at used_le
  have quotient_le := (Nat.le_div_iff_mul_le (by decide : 0 < leastFill)).mpr used_le
  omega

theorem shared_eq_nil_iff :
    shared = [] ↔ ∀ text ∈ t.texts, text ≠ [] → Storage.longLength ≤ text.length := by
  rw [holds.texts_eq]
  constructor
  · rintro rfl text membership isText
    rcases List.mem_cons.mp membership with rfl | isPlaced
    · exact absurd rfl isText
    · obtain ⟨r, isRange, rfl⟩ := List.mem_map.mp isPlaced
      rw [holds.length_read isRange]
      exact Nat.le_of_not_lt fun short => List.not_mem_nil (holds.packs.mem_shared r isRange short)
  · intro allLong
    apply List.eq_nil_iff_forall_not_mem.mpr
    intro i isShared
    obtain ⟨r, isRange, short, _⟩ := holds.packs.exists_of_mem_shared i isShared
    have length_eq := holds.length_read isRange
    have positive := holds.separate.positive r isRange
    have isText : t.chain.read r ≠ [] := List.ne_nil_of_length_pos (length_eq ▸ positive)
    have long := allLong _ (List.mem_cons_of_mem _ (List.mem_map_of_mem isRange)) isText
    omega

theorem placed : t.Placed ranges shared where
  ranges_eq := holds.ranges_eq
  index_eq := holds.index_eq
  distinct := holds.distinct
  inside r membership :=
    ⟨holds.separate.positive r membership, holds.length_read membership,
      holds.separate.spans r membership⟩
  apart := holds.separate.apart
  alone r isRange long :=
    ⟨(holds.packs.dedicated r isRange long).2, fun _ isOther => holds.eq_of_arena_eq isRange long isOther⟩
  covered := holds.packs.covered
  mem_shared_iff i := by
    refine ⟨holds.packs.exists_of_mem_shared i, ?_⟩
    rintro ⟨r, isRange, short, rfl⟩
    exact holds.packs.mem_shared r isRange short
  filled := holds.packs.filled
  size_eq := by
    rw [List.length_flatten, holds.lengths_eq]
    simpa using holds.packs.size_eq
  arenas_eq := by
    rw [holds.lengths_eq]
    simpa [longCount, Storage.longLength] using holds.packs.count_eq
  shared_eq_nil_iff := holds.shared_eq_nil_iff
  shared_le := by
    rw [holds.lengths_eq]
    simpa [shortBytes, Storage.longLength] using holds.shared_le

end Holds

/-- Whatever operations a table goes through, its names are packed tightly and apart from each other,
and storing a text fails only when there is no memory for a new arena. No name is moved later,
and as long as nothing fails the names and the number of arenas are those of a table that does
not place its names. -/
theorem placed_after (allocator : Allocator) (history : List NameOperation) :
    let t := empty.after allocator history
    (∃ ranges shared, t.Placed ranges shared) ∧
      (∀ text error, t.chain.store allocator text = .error error →
        error = .outOfMemory ∧
          allocator.address? t.chain.arenas.length (newCapacity text.length) = none) ∧
      (∀ further, t.ranges <+: (t.after allocator further).ranges ∧
        ∀ r ∈ t.ranges, (t.after allocator further).chain.read r = t.chain.read r) ∧
      ∀ later, empty.run allocator history = .ok later →
        later = t ∧ t.texts = (NameTable.empty.after history).texts ∧
          t.pending = (NameTable.empty.after history).pending ∧
          t.chain.size = (NameTable.empty.after history).size ∧
          t.chain.arenas.length = (NameTable.empty.after history).arenaCount := by
  intro t
  obtain ⟨_, ranges, shared, holds⟩ := holds_empty.after allocator history
  refine ⟨⟨ranges, shared, holds.placed⟩, ?_, ?_, ?_⟩
  · intro text error failed
    rcases holds.sound.storesOrLacks allocator text with ⟨_, _, stored, _⟩ | ⟨lacking, lacks⟩
    · exact absurd (stored.symm.trans failed) nofun
    · exact ⟨Except.error.inj (failed.symm.trans lacking), lacks⟩
  · intro further
    obtain ⟨extended, _⟩ := holds.after allocator further
    exact ⟨extended.ranges_prefix, fun _ membership => holds.read_eq extended.keeps membership⟩
  · intro later finished
    obtain ⟨mirrors, rfl⟩ := mirrors_empty.run holds_empty finished
    exact ⟨rfl, mirrors.texts_eq, mirrors.pending_eq, mirrors.chain.size_eq, mirrors.chain.count_eq⟩

/-- Two short names share an arena, and the long one between them has its own. -/
theorem placed_after_three_names :
    let allocator : Allocator :=
      { address? := fun count capacity =>
          if count < 65536 ∧ capacity ≤ 65536 then some (65536 * count) else none
        add_lt := by
          intro count capacity address isAddress
          obtain ⟨⟨_, _⟩, isSome⟩ := Option.ite_none_right_eq_some.mp isAddress
          obtain rfl := Option.some.inj isSome
          simp only [UInt64.size]
          omega }
    let history : List NameOperation :=
      [.add [0x61], .intern (List.replicate 256 0x62), .pushPending [0x63], .internPending]
    let t := empty.after allocator history
    t.ranges = [⟨0, 0, 0⟩, ⟨0, 0, 1⟩, ⟨1, 0, 256⟩, ⟨0, 1, 1⟩] ∧
      t.texts = [[], [0x61], List.replicate 256 0x62, [0x63]] ∧
        (NameTable.empty.after history).arenaCount = 2 := by
  intro allocator history t
  have finished : (empty.run allocator history).isOk := by decide +kernel
  obtain ⟨later, isLater⟩ : ∃ later, empty.run allocator history = .ok later := by
    cases isRun : empty.run allocator history with
    | ok later => exact ⟨later, rfl⟩
    | error => simp [isRun, Except.isOk, Except.toBool] at finished
  obtain ⟨_, _, _, mirrored⟩ := placed_after allocator history
  obtain ⟨_, _, _, _, count_eq⟩ := mirrored later isLater
  rw [← count_eq]
  decide +kernel

end PlacedTable

end AssemblyLexer
