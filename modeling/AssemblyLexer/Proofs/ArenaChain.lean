import AssemblyLexer.Name.InPlace
import Mathlib.Algebra.GroupWithZero.Nat

/-!
Chains of arenas. As long as there is memory a text is stored: it goes behind what its arena
holds, or to an arena that is opened for it, and nothing that was stored before is touched.
Short names leave little room behind in the arenas that they have moved on from, and a long
name fills its own.
-/

set_option autoImplicit false

namespace AssemblyLexer

theorem Arena.allocate?_one {a : Arena} (reachable : a.base + a.capacity < UInt64.size)
    (positive : 0 < a.capacity) {size : Nat} (fits : size ≤ a.remaining) :
    a.allocate? size 1 = some (a.used, a.claim size fits) := by
  have address_lt : a.base + a.used < UInt64.size :=
    Nat.lt_of_le_of_lt (Nat.add_le_add_left a.used_le a.base) reachable
  have gap_eq : padding (a.base + a.used) 1 = 0 := by simp [padding, Nat.mod_one]
  have isPower : isPowerOfTwo 1 = true := rfl
  simp [allocate?, isPower, address_lt, positive, gap_eq, fits]

namespace ArenaBuffer

/-- The buffer is as large as the arena and ends inside the address space. -/
structure Sound (b : ArenaBuffer) : Prop where
  length_eq : b.bytes.length = b.arena.capacity
  positive : 0 < b.arena.capacity
  reachable : b.arena.base + b.arena.capacity < UInt64.size

/-- From one buffer to another by writing a text behind what the arena has handed out. -/
structure Takes (b : ArenaBuffer) (text : Bytes) (after : ArenaBuffer) : Prop where
  base_eq : after.arena.base = b.arena.base
  capacity_eq : after.arena.capacity = b.arena.capacity
  used_eq : after.arena.used = b.arena.used + text.length
  bytes_eq : after.bytes = b.overwrite b.arena.used text

variable {b after : ArenaBuffer} {text : Bytes}

@[simp]
theorem used_ofCapacity (base capacity : Nat) : (ofCapacity base capacity).arena.used = 0 := rfl

@[simp]
theorem capacity_ofCapacity (base capacity : Nat) :
    (ofCapacity base capacity).arena.capacity = capacity := rfl

theorem sound_ofCapacity {base capacity : Nat} (positive : 0 < capacity)
    (reachable : base + capacity < UInt64.size) : (ofCapacity base capacity).Sound :=
  ⟨List.length_replicate, positive, reachable⟩

theorem Takes.used_le (takes : b.Takes text after) :
    b.arena.used + text.length ≤ b.arena.capacity := by
  rw [← takes.used_eq, ← takes.capacity_eq]
  exact after.arena.used_le

theorem Takes.sound (takes : b.Takes text after) (sound : b.Sound) : after.Sound where
  length_eq := by
    have used_le := takes.used_le
    rw [takes.bytes_eq, takes.capacity_eq]
    simp [overwrite, sound.length_eq]
    omega
  positive := takes.capacity_eq ▸ sound.positive
  reachable := by
    rw [takes.base_eq, takes.capacity_eq]
    exact sound.reachable

theorem Takes.take_eq (takes : b.Takes text after) (sound : b.Sound) :
    after.bytes.take b.arena.used = b.bytes.take b.arena.used := by
  have length_eq : (b.bytes.take b.arena.used).length = b.arena.used := by
    have used_le := b.arena.used_le
    simp [sound.length_eq, used_le]
  rw [takes.bytes_eq, overwrite, List.append_assoc, List.take_left' length_eq]

/-- What a text was written to holds it. -/
theorem Takes.read_eq (takes : b.Takes text after) (sound : b.Sound) :
    after.read b.arena.used text.length = text := by
  have length_eq : (b.bytes.take b.arena.used).length = b.arena.used := by
    have used_le := b.arena.used_le
    simp [sound.length_eq, used_le]
  rw [read, takes.bytes_eq, overwrite, List.append_assoc, List.drop_left' length_eq, List.take_left]

/-- Reading depends on no bytes but those of the range. -/
theorem read_take (b : ArenaBuffer) {offset length used : Nat} (within : offset + length ≤ used) :
    b.read offset length = ((b.bytes.take used).drop offset).take length := by
  have enough : length ≤ used - offset := by omega
  rw [read, List.drop_take, List.take_take, Nat.min_eq_left enough]

/-- The arena has handed out no less, and what it had handed out is as it was. -/
structure Keeps (b later : ArenaBuffer) : Prop where
  base_eq : later.arena.base = b.arena.base
  capacity_eq : later.arena.capacity = b.arena.capacity
  used_le : b.arena.used ≤ later.arena.used
  take_eq : later.bytes.take b.arena.used = b.bytes.take b.arena.used

theorem Keeps.refl (b : ArenaBuffer) : b.Keeps b :=
  ⟨rfl, rfl, Nat.le_refl _, rfl⟩

theorem Keeps.trans {later : ArenaBuffer} (keeps : b.Keeps after) (further : after.Keeps later) :
    b.Keeps later where
  base_eq := further.base_eq.trans keeps.base_eq
  capacity_eq := further.capacity_eq.trans keeps.capacity_eq
  used_le := Nat.le_trans keeps.used_le further.used_le
  take_eq := by
    have shortened := congrArg (List.take b.arena.used) further.take_eq
    simp only [List.take_take, Nat.min_eq_left keeps.used_le] at shortened
    exact shortened.trans keeps.take_eq

theorem Takes.keeps (takes : b.Takes text after) (sound : b.Sound) : b.Keeps after where
  base_eq := takes.base_eq
  capacity_eq := takes.capacity_eq
  used_le := takes.used_eq ▸ Nat.le_add_right _ _
  take_eq := takes.take_eq sound

theorem Keeps.read_eq (keeps : b.Keeps after) {offset length : Nat}
    (within : offset + length ≤ b.arena.used) : after.read offset length = b.read offset length := by
  rw [read_take after within, read_take b within, keeps.take_eq]

theorem length_read (sound : b.Sound) {offset length : Nat}
    (within : offset + length ≤ b.arena.used) : (b.read offset length).length = length := by
  have used_le := b.arena.used_le
  simp [read, sound.length_eq]
  omega

end ArenaBuffer

/-- The ranges have no byte in common. -/
def ArenaRange.Apart (r s : ArenaRange) : Prop :=
  r.arena ≠ s.arena ∨ r.offset + r.length ≤ s.offset ∨ s.offset + s.length ≤ r.offset

namespace ArenaChain

structure Sound (c : ArenaChain) : Prop where
  buffers : ∀ b ∈ c.arenas, b.Sound
  current : ∀ i, c.current? = some i → i < c.arenas.length

/-- Everything that storing a text can come to: an arena of its own, a new arena for short texts, or
a place behind the texts in the current one. -/
inductive Stored (c : ArenaChain) (text : Bytes) : ArenaChain → ArenaRange → Prop
  | dedicated {base : Nat} {b : ArenaBuffer} (long : Storage.longLength ≤ text.length)
      (fresh : (ArenaBuffer.ofCapacity base text.length).Sound)
      (takes : (ArenaBuffer.ofCapacity base text.length).Takes text b) :
      Stored c text ⟨c.arenas ++ [b], c.current?, c.size + text.length⟩
        ⟨c.arenas.length, 0, text.length⟩
  | renewed {base : Nat} {b : ArenaBuffer} (short : text.length < Storage.longLength)
      (full : ∀ i b, c.current? = some i → c.arenas[i]? = some b → b.arena.remaining < text.length)
      (fresh : (ArenaBuffer.ofCapacity base Storage.chunkCapacity).Sound)
      (takes : (ArenaBuffer.ofCapacity base Storage.chunkCapacity).Takes text b) :
      Stored c text ⟨c.arenas ++ [b], some c.arenas.length, c.size + text.length⟩
        ⟨c.arenas.length, 0, text.length⟩
  | behind {i : Nat} {b after : ArenaBuffer} (short : text.length < Storage.longLength)
      (isCurrent : c.current? = some i) (isArena : c.arenas[i]? = some b)
      (takes : b.Takes text after) :
      Stored c text ⟨c.arenas.set i after, c.current?, c.size + text.length⟩
        ⟨i, b.arena.used, text.length⟩

variable {c c' : ArenaChain} {text : Bytes} {range : ArenaRange}

theorem exists_write {i : Nat} {b : ArenaBuffer} (isArena : c.arenas[i]? = some b) (sound : b.Sound)
    (fits : text.length ≤ b.arena.remaining) :
    ∃ after, b.Takes text after ∧ c.write i text =
      .ok (⟨c.arenas.set i after, c.current?, c.size + text.length⟩,
        ⟨i, b.arena.used, text.length⟩) := by
  refine ⟨⟨b.arena.claim text.length fits, b.overwrite b.arena.used text⟩, ⟨rfl, rfl, rfl, rfl⟩, ?_⟩
  simp [write, isArena, Arena.allocate?_one sound.reachable sound.positive fits]

/-- An arena that has just been opened is written to from its front. -/
theorem exists_write_opened {allocator : Allocator} {capacity address : Nat}
    (isAddress : allocator.address? c.arenas.length capacity = some address)
    (positive : 0 < capacity) (fits : text.length ≤ capacity) (current? : Option Nat) :
    let fresh := ArenaBuffer.ofCapacity address capacity
    fresh.Sound ∧ ∃ b, fresh.Takes text b ∧
      write { c with arenas := c.arenas ++ [fresh], current? := current? } c.arenas.length text =
        .ok (⟨c.arenas ++ [b], current?, c.size + text.length⟩,
          ⟨c.arenas.length, 0, text.length⟩) := by
  intro fresh
  have sound : fresh.Sound := ArenaBuffer.sound_ofCapacity positive (allocator.add_lt isAddress)
  have isArena : (c.arenas ++ [fresh])[c.arenas.length]? = some fresh := by simp
  obtain ⟨b, takes, written⟩ := exists_write
    (c := { c with arenas := c.arenas ++ [fresh], current? := current? }) isArena sound fits
  refine ⟨sound, b, takes, written.trans ?_⟩
  simp [fresh, ArenaBuffer.ofCapacity, Arena.ofCapacity]

/-- The capacity of an arena that is opened for a text of the given length. -/
def newCapacity (length : Nat) : Nat :=
  if Storage.longLength ≤ length then length else Storage.chunkCapacity

/-- A text is stored, or there was no memory for the new arena that it needs. -/
def StoresOrLacks (c : ArenaChain) (allocator : Allocator) (text : Bytes) : Prop :=
  (∃ c' range, c.store allocator text = .ok (c', range) ∧ c.Stored text c' range) ∨
    c.store allocator text = .error .outOfMemory ∧
      allocator.address? c.arenas.length (newCapacity text.length) = none

theorem storesOrLacks_renewed {allocator : Allocator} (short : text.length < Storage.longLength)
    (full : ∀ i b, c.current? = some i → c.arenas[i]? = some b → b.arena.remaining < text.length)
    (ready_eq : c.ready allocator text.length = c.renewed allocator) :
    c.StoresOrLacks allocator text := by
  have capacity_eq : newCapacity text.length = Storage.chunkCapacity :=
    if_neg (Nat.not_le.mpr short)
  have fits : text.length ≤ Storage.chunkCapacity := by
    simp only [Storage.longLength] at short
    simp only [Storage.chunkCapacity]
    omega
  rw [StoresOrLacks, store, ready_eq, capacity_eq, renewed, opened]
  cases isAddress : allocator.address? c.arenas.length Storage.chunkCapacity with
  | none => exact .inr ⟨rfl, rfl⟩
  | some address =>
    obtain ⟨fresh, b, takes, written⟩ :=
      c.exists_write_opened isAddress (by decide) fits (some c.arenas.length)
    exact .inl ⟨_, _, written, .renewed short full fresh takes⟩

theorem Sound.storesOrLacks (sound : c.Sound) (allocator : Allocator) (text : Bytes) :
    c.StoresOrLacks allocator text := by
  by_cases long : Storage.longLength ≤ text.length
  · have positive : 0 < text.length := Nat.lt_of_lt_of_le (by decide) long
    have capacity_eq : newCapacity text.length = text.length := if_pos long
    rw [StoresOrLacks, store, ready, if_pos long, capacity_eq, opened]
    cases isAddress : allocator.address? c.arenas.length text.length with
    | none => exact .inr ⟨rfl, rfl⟩
    | some address =>
      obtain ⟨fresh, b, takes, written⟩ :=
        c.exists_write_opened isAddress positive (Nat.le_refl _) c.current?
      exact .inl ⟨_, _, written, .dedicated long fresh takes⟩
  · have short := Nat.lt_of_not_le long
    cases isCurrent : c.current? with
    | none =>
      have none_current : c.currentArena? = none := by simp [currentArena?, isCurrent]
      refine c.storesOrLacks_renewed short (by simp [isCurrent]) ?_
      rw [ready, if_neg long, none_current]
    | some i =>
      obtain ⟨b, isArena⟩ : ∃ b, c.arenas[i]? = some b :=
        ⟨_, List.getElem?_eq_getElem (sound.current i isCurrent)⟩
      have current_eq : c.currentArena? = some (i, b) := by simp [currentArena?, isCurrent, isArena]
      by_cases full : b.arena.remaining < text.length
      · refine c.storesOrLacks_renewed short ?_ ?_
        · intro j other isCurrent' isArena'
          simp_all
        · simp only [ready, if_neg long, current_eq, if_pos full]
      · have isSound := sound.buffers b (List.mem_of_getElem? isArena)
        obtain ⟨after, takes, written⟩ := exists_write isArena isSound (Nat.le_of_not_lt full)
        have ready_eq : c.ready allocator text.length = .ok (c, i) := by
          simp only [ready, if_neg long, current_eq, if_neg full]
          rfl
        rw [StoresOrLacks, store, ready_eq]
        exact .inl ⟨_, _, written, .behind short isCurrent isArena takes⟩

theorem Stored.sound (stored : c.Stored text c' range) (sound : c.Sound) : c'.Sound := by
  cases stored with
  | dedicated _ fresh takes =>
    refine ⟨?_, fun i isCurrent => ?_⟩
    · simpa [or_imp, forall_and] using ⟨sound.buffers, takes.sound fresh⟩
    · have := sound.current i isCurrent
      simp
      omega
  | renewed _ _ fresh takes =>
    refine ⟨?_, fun i isCurrent => ?_⟩
    · simpa [or_imp, forall_and] using ⟨sound.buffers, takes.sound fresh⟩
    · obtain rfl := Option.some.inj isCurrent
      simp
  | behind _ _ isArena takes =>
    have isSound := takes.sound (sound.buffers _ (List.mem_of_getElem? isArena))
    refine ⟨fun b membership => ?_, fun i isCurrent => by simpa using sound.current i isCurrent⟩
    rcases List.mem_or_eq_of_mem_set membership with isOld | rfl
    · exact sound.buffers b isOld
    · exact isSound

/-- Every arena of a chain is one of the other, in the same place and with the same bytes in what it
has handed out. -/
def Keeps (c later : ArenaChain) : Prop :=
  ∀ (i : Nat) (b : ArenaBuffer), c.arenas[i]? = some b →
    ∃ b', later.arenas[i]? = some b' ∧ b.Keeps b'

theorem Keeps.refl (c : ArenaChain) : c.Keeps c :=
  fun _ b isArena => ⟨b, isArena, .refl b⟩

theorem Keeps.trans {middle later : ArenaChain} (keeps : c.Keeps middle)
    (further : middle.Keeps later) : c.Keeps later := by
  intro i b isArena
  obtain ⟨b', isArena', kept⟩ := keeps i b isArena
  obtain ⟨b'', isArena'', kept'⟩ := further i b' isArena'
  exact ⟨b'', isArena'', kept.trans kept'⟩

theorem Stored.keeps (stored : c.Stored text c' range) (sound : c.Sound) : c.Keeps c' := by
  intro i b isArena
  have within := (List.getElem?_eq_some_iff.mp isArena).1
  cases stored with
  | dedicated => exact ⟨b, (List.getElem?_append_left within).trans isArena, .refl b⟩
  | renewed => exact ⟨b, (List.getElem?_append_left within).trans isArena, .refl b⟩
  | @behind j current after _ _ isArena' takes =>
    by_cases same : j = i
    · subst same
      obtain rfl := Option.some.inj (isArena.symm.trans isArena')
      refine ⟨after, by simp [within], takes.keeps (sound.buffers b (List.mem_of_getElem? isArena))⟩
    · exact ⟨b, by simpa [same] using isArena, .refl b⟩

/-- The range lies in what an arena has handed out. -/
def Spans (c : ArenaChain) (r : ArenaRange) : Prop :=
  ∃ b, c.arenas[r.arena]? = some b ∧ r.offset + r.length ≤ b.arena.used

theorem Spans.keeps {later : ArenaChain} (spans : c.Spans range) (keeps : c.Keeps later) :
    later.Spans range ∧ later.read range = c.read range := by
  obtain ⟨b, isArena, within⟩ := spans
  obtain ⟨b', isArena', kept⟩ := keeps _ b isArena
  refine ⟨⟨b', isArena', Nat.le_trans within kept.used_le⟩, ?_⟩
  simp only [read, isArena, isArena']
  exact kept.read_eq within

/-- A text is stored in a range of its own. -/
theorem Stored.spans (stored : c.Stored text c' range) (sound : c.Sound) :
    range.length = text.length ∧ c'.Spans range ∧ c'.read range = text ∧
      ∀ r, c.Spans r → r.Apart range := by
  cases stored with
  | @dedicated base b long fresh takes =>
    refine ⟨rfl, ⟨b, by simp, by simp [takes.used_eq]⟩, ?_, ?_⟩
    · simpa [read] using takes.read_eq fresh
    · rintro r ⟨other, isArena, _⟩
      exact .inl (Nat.ne_of_lt (List.getElem?_eq_some_iff.mp isArena).1)
  | @renewed base b short full fresh takes =>
    refine ⟨rfl, ⟨b, by simp, by simp [takes.used_eq]⟩, ?_, ?_⟩
    · simpa [read] using takes.read_eq fresh
    · rintro r ⟨other, isArena, _⟩
      exact .inl (Nat.ne_of_lt (List.getElem?_eq_some_iff.mp isArena).1)
  | @behind i b after short isCurrent isArena takes =>
    have within := (List.getElem?_eq_some_iff.mp isArena).1
    refine ⟨rfl, ⟨after, by simp [within], by simp [takes.used_eq]⟩, ?_, ?_⟩
    · simpa [read, within] using takes.read_eq (sound.buffers b (List.mem_of_getElem? isArena))
    · rintro r ⟨other, isArena', inside⟩
      by_cases same : r.arena = i
      · subst same
        obtain rfl := Option.some.inj (isArena.symm.trans isArena')
        exact .inr (.inl inside)
      · exact .inl same

/-- What a shared arena has handed out at least when a short text finds no room in it. -/
def leastFill : Nat := 3842

/-- The number of texts that are long, by their lengths. -/
def longCount (lengths : List Nat) : Nat :=
  lengths.countP (Storage.longLength ≤ ·)

/-- The number of bytes in texts that are short, by their lengths. -/
def shortBytes (lengths : List Nat) : Nat :=
  (lengths.filter (· < Storage.longLength)).sum

/-- What the current arena has handed out. -/
def currentUsed (c : ArenaChain) : Nat :=
  (c.current?.bind fun i => c.arenas[i]?.map fun b => b.arena.used).getD 0

/-- The ranges are ranges of the chain's arenas and have no byte in common. -/
structure Separate (c : ArenaChain) (ranges : List ArenaRange) : Prop where
  positive : ∀ r ∈ ranges, 0 < r.length
  spans : ∀ r ∈ ranges, c.Spans r
  apart : ranges.Pairwise ArenaRange.Apart

/-- How the ranges fill the arenas, of which the given ones are shared by short texts. -/
structure Packs (c : ArenaChain) (ranges : List ArenaRange) (shared : List Nat) : Prop where
  /-- A long text has an arena of its own length. -/
  dedicated : ∀ r ∈ ranges, Storage.longLength ≤ r.length →
    r.arena ∉ shared ∧ ∃ b, c.arenas[r.arena]? = some b ∧ b.arena.capacity = r.length
  mem_shared : ∀ r ∈ ranges, r.length < Storage.longLength → r.arena ∈ shared
  /-- No arena is shared before there is a short text in it. -/
  exists_of_mem_shared : ∀ i ∈ shared, ∃ r ∈ ranges, r.length < Storage.longLength ∧ r.arena = i
  /-- Short texts move on from an arena when it is nearly full. -/
  filled : ∀ i ∈ shared, ∃ b, c.arenas[i]? = some b ∧ b.arena.capacity = Storage.chunkCapacity ∧
    (c.current? = some i ∨ leastFill ≤ b.arena.used)
  /-- There is no arena but those of long texts and those that are shared. -/
  covered : ∀ i < c.arenas.length,
    i ∈ shared ∨ ∃ r ∈ ranges, Storage.longLength ≤ r.length ∧ r.arena = i
  distinct : shared.Nodup
  current_eq : c.current? = shared.getLast?
  count_eq : c.arenas.length = longCount (ranges.map ArenaRange.length) + shared.length
  used_le : leastFill * (shared.length - 1) + c.currentUsed ≤
    shortBytes (ranges.map ArenaRange.length)
  size_eq : c.size = (ranges.map ArenaRange.length).sum

theorem separate_empty : empty.Separate [] :=
  ⟨by simp, by simp, .nil⟩

theorem packs_empty : empty.Packs [] [] where
  dedicated := by simp
  mem_shared := by simp
  exists_of_mem_shared := by simp
  filled := by simp
  covered := by simp [empty]
  distinct := .nil
  current_eq := rfl
  count_eq := rfl
  used_le := Nat.le_refl _
  size_eq := rfl

variable {ranges : List ArenaRange} {shared : List Nat}

theorem Separate.append (separate : c.Separate ranges) (stored : c.Stored text c' range)
    (sound : c.Sound) (positive : 0 < text.length) : c'.Separate (ranges ++ [range]) := by
  obtain ⟨length_eq, spans, _, apart⟩ := stored.spans sound
  have keeps := stored.keeps sound
  constructor
  · simpa [or_imp, forall_and] using ⟨separate.positive, length_eq ▸ positive⟩
  · simpa [or_imp, forall_and] using
      ⟨fun r membership => ((separate.spans r membership).keeps keeps).1, spans⟩
  · apply List.pairwise_append.mpr
    refine ⟨separate.apart, List.pairwise_singleton _ _, ?_⟩
    intro r membership s isNew
    obtain rfl := List.mem_singleton.mp isNew
    exact apart r (separate.spans r membership)

namespace Packs

variable (packs : c.Packs ranges shared)

include packs

theorem lt_length {i : Nat} (isShared : i ∈ shared) : i < c.arenas.length := by
  obtain ⟨b, isArena, _⟩ := packs.filled i isShared
  exact (List.getElem?_eq_some_iff.mp isArena).1

theorem dedicated_keeps (keeps : c.Keeps c') {r : ArenaRange} (membership : r ∈ ranges)
    (long : Storage.longLength ≤ r.length) :
    r.arena ∉ shared ∧ r.arena ≠ c.arenas.length ∧
      ∃ b, c'.arenas[r.arena]? = some b ∧ b.arena.capacity = r.length := by
  obtain ⟨notShared, b, isArena, capacity_eq⟩ := packs.dedicated r membership long
  obtain ⟨b', isArena', kept⟩ := keeps _ b isArena
  exact ⟨notShared, Nat.ne_of_lt (List.getElem?_eq_some_iff.mp isArena).1, b', isArena',
    kept.capacity_eq.trans capacity_eq⟩

theorem filled_keeps (keeps : c.Keeps c') {i : Nat} (isShared : i ∈ shared) :
    ∃ b, c'.arenas[i]? = some b ∧ b.arena.capacity = Storage.chunkCapacity ∧
      (c.current? = some i ∨ leastFill ≤ b.arena.used) := by
  obtain ⟨b, isArena, capacity_eq, used⟩ := packs.filled i isShared
  obtain ⟨b', isArena', kept⟩ := keeps i b isArena
  exact ⟨b', isArena', kept.capacity_eq.trans capacity_eq,
    used.imp_right fun least => Nat.le_trans least kept.used_le⟩

theorem covered_append {i : Nat} (within : i < c.arenas.length) (r : ArenaRange) :
    i ∈ shared ∨ ∃ s ∈ ranges ++ [r], Storage.longLength ≤ s.length ∧ s.arena = i := by
  refine (packs.covered i within).imp_right ?_
  rintro ⟨s, membership, long, arena_eq⟩
  exact ⟨s, List.mem_append_left _ membership, long, arena_eq⟩

/-- When a short text finds no room, every shared arena is nearly full. -/
theorem leastFill_le (short : text.length < Storage.longLength)
    (full : ∀ i b, c.current? = some i → c.arenas[i]? = some b → b.arena.remaining < text.length)
    (i : Nat) (isShared : i ∈ shared) :
    ∃ b, c.arenas[i]? = some b ∧ b.arena.capacity = Storage.chunkCapacity ∧
      leastFill ≤ b.arena.used := by
  obtain ⟨b, isArena, capacity_eq, isCurrent | least⟩ := packs.filled i isShared
  · have little := full i b isCurrent isArena
    refine ⟨b, isArena, capacity_eq, ?_⟩
    simp only [Arena.remaining, capacity_eq, Storage.chunkCapacity, Storage.longLength, leastFill]
      at little short ⊢
    omega
  · exact ⟨b, isArena, capacity_eq, least⟩

theorem leastFill_mul_le (short : text.length < Storage.longLength)
    (full : ∀ i b, c.current? = some i → c.arenas[i]? = some b → b.arena.remaining < text.length) :
    leastFill * shared.length ≤ shortBytes (ranges.map ArenaRange.length) := by
  have used_le := packs.used_le
  cases isLast : shared.getLast? with
  | none => simp [List.getLast?_eq_none_iff.mp isLast]
  | some i =>
    have isShared := List.mem_of_getLast? isLast
    obtain ⟨b, isArena, _, least⟩ := packs.leastFill_le short full i isShared
    have current_eq : c.currentUsed = b.arena.used := by
      simp [currentUsed, packs.current_eq, isLast, isArena]
    have positive := List.length_pos_of_mem isShared
    rw [current_eq, Nat.mul_sub_one] at used_le
    have : leastFill ≤ leastFill * shared.length := Nat.le_mul_of_pos_right _ positive
    omega

end Packs

theorem longCount_append (lengths : List Nat) (length : Nat) :
    longCount (lengths ++ [length]) =
      longCount lengths + if Storage.longLength ≤ length then 1 else 0 := by
  rw [longCount, List.countP_append, longCount]
  split <;> simp [*]

theorem shortBytes_append (lengths : List Nat) (length : Nat) :
    shortBytes (lengths ++ [length]) =
      shortBytes lengths + if length < Storage.longLength then length else 0 := by
  rw [shortBytes, List.filter_append, List.sum_append, shortBytes]
  split <;> simp [*]

/-- A long text leaves the shared arenas as they are. -/
theorem Packs.append_dedicated (packs : c.Packs ranges shared) (sound : c.Sound)
    {b : ArenaBuffer} (long : Storage.longLength ≤ text.length)
    (capacity_eq : b.arena.capacity = text.length)
    (keeps : c.Keeps ⟨c.arenas ++ [b], c.current?, c.size + text.length⟩) :
    Packs ⟨c.arenas ++ [b], c.current?, c.size + text.length⟩
      (ranges ++ [⟨c.arenas.length, 0, text.length⟩]) shared where
  dedicated r membership isLong := by
    rcases List.mem_append.mp membership with isOld | isNew
    · obtain ⟨notShared, _, alone⟩ := packs.dedicated_keeps keeps isOld isLong
      exact ⟨notShared, alone⟩
    · obtain rfl := List.mem_singleton.mp isNew
      exact ⟨fun isShared => Nat.lt_irrefl _ (packs.lt_length isShared), b, by simp, capacity_eq⟩
  mem_shared r membership isShort := by
    rcases List.mem_append.mp membership with isOld | isNew
    · exact packs.mem_shared r isOld isShort
    · obtain rfl := List.mem_singleton.mp isNew
      exact absurd isShort (Nat.not_lt.mpr long)
  exists_of_mem_shared i isShared := by
    obtain ⟨r, membership, isShort, arena_eq⟩ := packs.exists_of_mem_shared i isShared
    exact ⟨r, List.mem_append_left _ membership, isShort, arena_eq⟩
  filled i isShared := packs.filled_keeps keeps isShared
  covered i within := by
    rcases Nat.lt_or_ge i c.arenas.length with isOld | isNew
    · exact packs.covered_append isOld _
    · have i_eq : c.arenas.length = i := by simp at within; omega
      exact .inr ⟨_, List.mem_append_right _ List.mem_cons_self, long, i_eq⟩
  distinct := packs.distinct
  current_eq := packs.current_eq
  count_eq := by
    simp [packs.count_eq, longCount_append, long]
    omega
  used_le := by
    have used_eq : currentUsed ⟨c.arenas ++ [b], c.current?, c.size + text.length⟩ = c.currentUsed := by
      cases isCurrent : c.current? with
      | none => simp [currentUsed, isCurrent]
      | some i => simp [currentUsed, isCurrent, List.getElem?_append_left (sound.current i isCurrent)]
    rw [used_eq, List.map_append, List.map_singleton, shortBytes_append,
      if_neg (Nat.not_lt.mpr long)]
    exact packs.used_le
  size_eq := by simp [packs.size_eq]

/-- A short text that finds no room has a new arena to share. -/
theorem Packs.append_renewed (packs : c.Packs ranges shared) {b : ArenaBuffer}
    (short : text.length < Storage.longLength)
    (full : ∀ i b, c.current? = some i → c.arenas[i]? = some b → b.arena.remaining < text.length)
    (capacity_eq : b.arena.capacity = Storage.chunkCapacity) (used_eq : b.arena.used = text.length)
    (keeps : c.Keeps ⟨c.arenas ++ [b], some c.arenas.length, c.size + text.length⟩) :
    Packs ⟨c.arenas ++ [b], some c.arenas.length, c.size + text.length⟩
      (ranges ++ [⟨c.arenas.length, 0, text.length⟩]) (shared ++ [c.arenas.length]) where
  dedicated r membership isLong := by
    rcases List.mem_append.mp membership with isOld | isNew
    · obtain ⟨notShared, notNew, alone⟩ := packs.dedicated_keeps keeps isOld isLong
      exact ⟨by simp [notShared, notNew], alone⟩
    · obtain rfl := List.mem_singleton.mp isNew
      exact absurd isLong (Nat.not_le.mpr short)
  mem_shared r membership isShort := by
    rcases List.mem_append.mp membership with isOld | isNew
    · exact List.mem_append_left _ (packs.mem_shared r isOld isShort)
    · obtain rfl := List.mem_singleton.mp isNew
      exact List.mem_append_right _ List.mem_cons_self
  exists_of_mem_shared i isShared := by
    rcases List.mem_append.mp isShared with wasShared | isNew
    · obtain ⟨r, membership, isShort, arena_eq⟩ := packs.exists_of_mem_shared i wasShared
      exact ⟨r, List.mem_append_left _ membership, isShort, arena_eq⟩
    · obtain rfl := List.mem_singleton.mp isNew
      exact ⟨_, List.mem_append_right _ List.mem_cons_self, short, rfl⟩
  filled i isShared := by
    rcases List.mem_append.mp isShared with wasShared | isNew
    · obtain ⟨old, isArena, capacity_eq', least⟩ := packs.leastFill_le short full i wasShared
      obtain ⟨later, isArena', kept⟩ := keeps i old isArena
      exact ⟨later, isArena', kept.capacity_eq.trans capacity_eq', .inr (Nat.le_trans least kept.used_le)⟩
    · obtain rfl := List.mem_singleton.mp isNew
      exact ⟨b, by simp, capacity_eq, .inl rfl⟩
  covered i within := by
    rcases Nat.lt_or_ge i c.arenas.length with isOld | isNew
    · exact (packs.covered_append isOld _).imp_left (List.mem_append_left _)
    · have i_eq : i = c.arenas.length := by simp at within; omega
      exact .inl (List.mem_append_right _ (List.mem_singleton.mpr i_eq))
  distinct := by
    apply List.nodup_append.mpr
    refine ⟨packs.distinct, List.pairwise_singleton _ _, ?_⟩
    rintro i isShared j isNew rfl
    obtain rfl := List.mem_singleton.mp isNew
    exact Nat.lt_irrefl _ (packs.lt_length isShared)
  current_eq := by simp
  count_eq := by
    simp [packs.count_eq, longCount_append, Nat.not_le.mpr short, Nat.add_assoc]
  used_le := by
    have current_eq : currentUsed ⟨c.arenas ++ [b], some c.arenas.length, c.size + text.length⟩ =
        text.length := by
      simp [currentUsed, used_eq]
    have left_behind := packs.leastFill_mul_le short full
    rw [current_eq, List.map_append, List.map_singleton, shortBytes_append, if_pos short]
    simpa using left_behind
  size_eq := by simp [packs.size_eq]

/-- A short text that finds room goes behind those in the current arena. -/
theorem Packs.append_behind (packs : c.Packs ranges shared) {i : Nat} {b after : ArenaBuffer}
    (short : text.length < Storage.longLength) (isCurrent : c.current? = some i)
    (isArena : c.arenas[i]? = some b) (used_eq : after.arena.used = b.arena.used + text.length)
    (keeps : c.Keeps ⟨c.arenas.set i after, c.current?, c.size + text.length⟩) :
    Packs ⟨c.arenas.set i after, c.current?, c.size + text.length⟩
      (ranges ++ [⟨i, b.arena.used, text.length⟩]) shared where
  dedicated r membership isLong := by
    rcases List.mem_append.mp membership with isOld | isNew
    · obtain ⟨notShared, _, alone⟩ := packs.dedicated_keeps keeps isOld isLong
      exact ⟨notShared, alone⟩
    · obtain rfl := List.mem_singleton.mp isNew
      exact absurd isLong (Nat.not_le.mpr short)
  mem_shared r membership isShort := by
    rcases List.mem_append.mp membership with isOld | isNew
    · exact packs.mem_shared r isOld isShort
    · obtain rfl := List.mem_singleton.mp isNew
      exact List.mem_of_getLast? (packs.current_eq.symm.trans isCurrent)
  exists_of_mem_shared j isShared := by
    obtain ⟨r, membership, isShort, arena_eq⟩ := packs.exists_of_mem_shared j isShared
    exact ⟨r, List.mem_append_left _ membership, isShort, arena_eq⟩
  filled j isShared := packs.filled_keeps keeps isShared
  covered j within := by
    rw [List.length_set] at within
    exact packs.covered_append within _
  distinct := packs.distinct
  current_eq := packs.current_eq
  count_eq := by simp [packs.count_eq, longCount_append, Nat.not_le.mpr short]
  used_le := by
    have within := (List.getElem?_eq_some_iff.mp isArena).1
    have before : c.currentUsed = b.arena.used := by simp [currentUsed, isCurrent, isArena]
    have behind : currentUsed ⟨c.arenas.set i after, c.current?, c.size + text.length⟩ =
        b.arena.used + text.length := by
      simp [currentUsed, isCurrent, within, used_eq]
    have used_le := packs.used_le
    rw [behind, List.map_append, List.map_singleton, shortBytes_append, if_pos short]
    dsimp only
    omega
  size_eq := by simp [packs.size_eq]

/-- Storing a text keeps the chain packed. -/
theorem Packs.append (packs : c.Packs ranges shared) (stored : c.Stored text c' range)
    (sound : c.Sound) : ∃ shared', c'.Packs (ranges ++ [range]) shared' := by
  have keeps := stored.keeps sound
  cases stored with
  | dedicated long _ takes =>
    exact ⟨_, packs.append_dedicated sound long takes.capacity_eq keeps⟩
  | renewed short full _ takes =>
    exact ⟨_, packs.append_renewed short full takes.capacity_eq (by simp [takes.used_eq]) keeps⟩
  | behind short isCurrent isArena takes =>
    exact ⟨_, packs.append_behind short isCurrent isArena takes.used_eq keeps⟩

end ArenaChain

end AssemblyLexer
