import AssemblyLexer.Name.WordArena
import Mathlib.Order.Bounds.Basic

/-!
Allocation is exact. A request is met at the first offset where it could be met, and refused
only if there is none: behind an address that cannot be rounded up within the address space
no multiple of the alignment lies in the buffer.
-/

set_option autoImplicit false

namespace AssemblyLexer

namespace Arena

variable {address alignment gap size offset : Nat} {a : Arena}

theorem isPowerOfTwo_iff : isPowerOfTwo alignment ↔ alignment.isPowerOfTwo := by
  rw [← Nat.ne_zero_and_sub_one_eq_zero_iff_isPowerOfTwo, isPowerOfTwo]
  simp

theorem padding_lt (address : Nat) (positive : 0 < alignment) : padding address alignment < alignment :=
  Nat.mod_lt _ positive

theorem dvd_add_padding (address : Nat) (positive : 0 < alignment) :
    alignment ∣ address + padding address alignment := by
  have below := Nat.mod_lt address positive
  apply Nat.dvd_of_mod_eq_zero
  by_cases isMultiple : address % alignment = 0
  · simp [padding, isMultiple]
  · have gap_eq : padding address alignment = alignment - address % alignment :=
      Nat.mod_eq_of_lt (by omega)
    rw [gap_eq, Nat.add_mod, Nat.mod_eq_of_lt (by omega : alignment - address % alignment < alignment),
      Nat.add_sub_cancel' (Nat.le_of_lt below), Nat.mod_self]

/-- No smaller gap leads to a multiple of the alignment. -/
theorem padding_le (positive : 0 < alignment) (aligned : alignment ∣ address + gap) :
    padding address alignment ≤ gap := by
  have small := padding_lt address positive
  by_contra less
  have between : alignment ∣ padding address alignment - gap := by
    have difference := Nat.dvd_sub (dvd_add_padding address positive) aligned
    rwa [Nat.add_sub_add_left] at difference
  have large := Nat.le_of_dvd (by omega) between
  omega

theorem padding_eq_of_dvd (aligned : alignment ∣ address + gap) (small : gap < alignment) :
    padding address alignment = gap := by
  have positive := Nat.zero_lt_of_lt small
  have gap_le := padding_le positive aligned
  have difference := Nat.dvd_sub aligned (dvd_add_padding address positive)
  rw [Nat.add_sub_add_left] at difference
  have nothing := Nat.eq_zero_of_dvd_of_lt difference (by omega)
  omega

/-- The offsets where a request could be met. -/
def places (a : Arena) (size alignment : Nat) : Set Nat :=
  {offset | a.used ≤ offset ∧ alignment ∣ a.base + offset ∧ offset + size ≤ a.capacity}

theorem isLeast_places (positive : 0 < alignment)
    (fits : padding (a.base + a.used) alignment + size ≤ a.remaining) :
    IsLeast (a.places size alignment) (a.used + padding (a.base + a.used) alignment) := by
  have used_le := a.used_le
  have aligned := dvd_add_padding (a.base + a.used) positive
  rw [remaining] at fits
  refine ⟨⟨Nat.le_add_right _ _, ?_, by omega⟩, ?_⟩
  · rwa [← Nat.add_assoc]
  · rintro offset ⟨behind, aligned, -⟩
    have offset_eq : a.base + offset = a.base + a.used + (offset - a.used) := by omega
    have gap_le := padding_le positive (offset_eq ▸ aligned)
    omega

theorem padding_add_le_of_mem_places (positive : 0 < alignment)
    (place : offset ∈ a.places size alignment) :
    padding (a.base + a.used) alignment + size ≤ a.remaining := by
  obtain ⟨behind, aligned, within⟩ := place
  have offset_eq : a.base + offset = a.base + a.used + (offset - a.used) := by omega
  have gap_le := padding_le positive (offset_eq ▸ aligned)
  rw [remaining]
  omega

/-- A multiple of the alignment inside the address space leaves room for the alignment, which
divides the size of the space. -/
theorem address_lt_of_mem_places (power : alignment.isPowerOfTwo) (word : alignment < UInt64.size)
    (reachable : a.base + a.capacity < UInt64.size) (place : offset ∈ a.places size alignment) :
    a.base + a.used + (alignment - 1) < UInt64.size := by
  obtain ⟨behind, aligned, within⟩ := place
  have dvd_size : alignment ∣ UInt64.size := by
    obtain ⟨exponent, rfl⟩ := power
    have exponent_lt : exponent < 64 := (Nat.pow_lt_pow_iff_right (by decide)).mp word
    exact Nat.pow_dvd_pow 2 (Nat.le_of_lt exponent_lt)
  have room := Nat.le_of_dvd (by omega) (Nat.dvd_sub dvd_size aligned)
  omega

theorem allocate?_eq_some (power : alignment.isPowerOfTwo) (positive : 0 < a.capacity)
    (address_lt : a.base + a.used + (alignment - 1) < UInt64.size)
    (fits : padding (a.base + a.used) alignment + size ≤ a.remaining) :
    a.allocate? size alignment =
      some (a.used + padding (a.base + a.used) alignment, a.claim _ fits) := by
  simp [allocate?, isPowerOfTwo_iff.mpr power, address_lt, positive, fits]

theorem allocate?_eq_none_iff (positive : 0 < a.capacity) :
    a.allocate? size alignment = none ↔ ¬(alignment.isPowerOfTwo ∧
      a.base + a.used + (alignment - 1) < UInt64.size ∧
        padding (a.base + a.used) alignment + size ≤ a.remaining) := by
  simp only [allocate?, Bool.and_eq_true, isPowerOfTwo_iff, decide_eq_true_eq, positive, and_true]
  split
  · next guarded => simp [guarded]
  · next guarded => simp; tauto

end Arena

/-- Clearing the bits below a power of two goes down to a multiple of it. -/
theorem toNat_and_not_mask {alignment mask : UInt64} (power : alignment.toNat.isPowerOfTwo)
    (mask_eq : mask.toNat + 1 = alignment.toNat) (word : UInt64) :
    (word &&& ~~~mask).toNat + word.toNat % alignment.toNat = word.toNat := by
  have low_eq : (word &&& mask).toNat = word.toNat % alignment.toNat := by
    obtain ⟨exponent, isPower⟩ := power
    have mask_eq' : mask.toNat = 2 ^ exponent - 1 := by omega
    rw [UInt64.toNat_and, mask_eq', Nat.and_two_pow_sub_one_eq_mod, isPower]
  have apart : (word.toBitVec &&& ~~~mask.toBitVec) &&& (word.toBitVec &&& mask.toBitVec) = 0#64 := by
    ext i
    simp
    tauto
  have joined : (word.toBitVec &&& ~~~mask.toBitVec) + (word.toBitVec &&& mask.toBitVec) =
      word.toBitVec := by
    rw [BitVec.add_eq_or_of_and_eq_zero _ _ apart]
    ext i
    cases bit : word.toBitVec[i] <;> simp [bit]
  calc (word &&& ~~~mask).toNat + word.toNat % alignment.toNat
      = (word &&& ~~~mask).toNat + (word &&& mask).toNat := by rw [low_eq]
    _ = ((word.toBitVec &&& ~~~mask.toBitVec) + (word.toBitVec &&& mask.toBitVec)).toNat :=
        (BitVec.toNat_add_of_and_eq_zero apart).symm
    _ = word.toNat := congrArg BitVec.toNat joined

/-- The words of a request whose address can be rounded up are the numbers that they stand for. -/
structure AllocationWords.Rounds (words : AllocationWords) (a : WordArena)
    (request : AllocationRequest) : Prop where
  mask_eq : words.mask.toNat + 1 = request.alignment.toNat
  current_eq : words.current.toNat = a.base.toNat + a.offset.toNat
  highest_eq : words.highest.toNat + words.mask.toNat + 1 = UInt64.size
  raised_eq : words.raised.toNat = words.current.toNat + words.mask.toNat
  aligned_eq : words.aligned.toNat + words.raised.toNat % request.alignment.toNat = words.raised.toNat
  gap_eq : words.current.toNat + words.gap.toNat = words.aligned.toNat
  start_eq : words.start.toNat = a.offset.toNat + words.gap.toNat
  address_eq : words.address.toNat = a.base.toNat + words.start.toNat

/-- So are those that say where the block ends. -/
structure AllocationWords.Exact (words : AllocationWords) (a : WordArena)
    (request : AllocationRequest) : Prop extends words.Rounds a request where
  room_eq : words.start.toNat + words.room.toNat = a.capacity.toNat
  stop_eq : words.stop.toNat = words.start.toNat + request.size.toNat

namespace WordArena

theorem toNat_sub_add_of_le (word less : UInt64) (le : less.toNat ≤ word.toNat) :
    (word - less).toNat + less.toNat = word.toNat := by
  rw [UInt64.toNat_sub_of_le _ _ (UInt64.le_iff_toNat_le.mpr le), Nat.sub_add_cancel le]

theorem toNat_add_of_lt (word more : UInt64) (lt : word.toNat + more.toNat < UInt64.size) :
    (word + more).toNat = word.toNat + more.toNat := by
  rw [UInt64.toNat_add, Nat.mod_eq_of_lt lt]

/-- The arena lies inside the address space. -/
structure Sound (w : WordArena) : Prop where
  positive : 0 < w.capacity.toNat
  reachable : w.base.toNat + w.capacity.toNat < UInt64.size
  offset_le : w.offset.toNat ≤ w.capacity.toNat

/-- What an allocation checks, in numbers. -/
structure Meets (w : WordArena) (request : AllocationRequest) : Prop where
  power : request.alignment.toNat.isPowerOfTwo
  address_lt : w.base.toNat + w.offset.toNat + (request.alignment.toNat - 1) < UInt64.size
  fits : Arena.padding (w.base.toNat + w.offset.toNat) request.alignment.toNat +
    request.size.toNat ≤ w.capacity.toNat - w.offset.toNat

variable {w : WordArena} {request : AllocationRequest}

/-- The arena that holds the same numbers. -/
def Sound.arena (sound : w.Sound) : Arena :=
  ⟨w.base.toNat, w.capacity.toNat, w.offset.toNat, sound.offset_le⟩

theorem isPowerOfTwo_iff : request.alignment.toNat.isPowerOfTwo ↔
    ¬(request.alignment = 0 ∨ request.alignment &&& (w.words request).mask ≠ 0) := by
  by_cases zero : request.alignment = 0
  · simp [zero, ← Nat.ne_zero_and_sub_one_eq_zero_iff_isPowerOfTwo]
  · have nonzero : request.alignment.toNat ≠ 0 := by simpa [← UInt64.toNat_inj] using zero
    have mask_eq : (w.words request).mask.toNat = request.alignment.toNat - 1 :=
      UInt64.toNat_sub_of_le _ _ (UInt64.le_iff_toNat_le.mpr (Nat.one_le_iff_ne_zero.mpr nonzero))
    rw [← Nat.and_sub_one_eq_zero_iff_isPowerOfTwo nonzero, ← mask_eq, ← UInt64.toNat_and]
    simp [zero, ← UInt64.toNat_inj]

theorem toNat_mask_add_one (power : request.alignment.toNat.isPowerOfTwo) :
    (w.words request).mask.toNat + 1 = request.alignment.toNat :=
  toNat_sub_add_of_le _ 1 (Nat.pos_of_isPowerOfTwo power)

theorem toNat_highest_add (w : WordArena) (request : AllocationRequest) :
    (w.words request).highest.toNat + (w.words request).mask.toNat + 1 = UInt64.size := by
  have mask_le := Nat.le_of_lt_succ (w.words request).mask.toNat_lt_size
  exact congrArg Nat.succ (toNat_sub_add_of_le 0xFFFFFFFFFFFFFFFF (w.words request).mask mask_le)

/-- The gap that the mask leaves is the distance to the next multiple. -/
theorem gap_eq_padding (power : request.alignment.toNat.isPowerOfTwo)
    (rounds : (w.words request).Rounds w request) :
    (w.words request).gap.toNat =
      Arena.padding (w.base.toNat + w.offset.toNat) request.alignment.toNat := by
  have below := Nat.mod_lt (w.words request).raised.toNat (Nat.pos_of_isPowerOfTwo power)
  have aligned_eq := rounds.aligned_eq
  have gap_eq := rounds.gap_eq
  have raised_eq := rounds.raised_eq
  have mask_eq := rounds.mask_eq
  have aligned : request.alignment.toNat ∣ (w.words request).aligned.toNat := by
    rw [Nat.eq_sub_of_add_eq aligned_eq]
    exact Nat.dvd_sub_mod _
  rw [← gap_eq, rounds.current_eq] at aligned
  exact (Arena.padding_eq_of_dvd aligned (by omega)).symm

namespace Sound

variable (sound : w.Sound)
include sound

theorem toNat_current (request : AllocationRequest) :
    (w.words request).current.toNat = w.base.toNat + w.offset.toNat := by
  have reachable := sound.reachable
  have offset_le := sound.offset_le
  exact toNat_add_of_lt _ _ (by omega)

theorem rounds (power : request.alignment.toNat.isPowerOfTwo)
    (address_lt : w.base.toNat + w.offset.toNat + (request.alignment.toNat - 1) < UInt64.size) :
    (w.words request).Rounds w request := by
  have mask_eq : (w.words request).mask.toNat + 1 = _ := toNat_mask_add_one power
  have current_eq := sound.toNat_current request
  have raised_eq : (w.words request).raised.toNat = _ :=
    toNat_add_of_lt (w.words request).current (w.words request).mask (by omega)
  have aligned_eq : (w.words request).aligned.toNat + _ = _ :=
    toNat_and_not_mask power mask_eq (w.words request).raised
  have below := Nat.mod_lt (w.words request).raised.toNat (Nat.pos_of_isPowerOfTwo power)
  have gap_eq : (w.words request).gap.toNat + _ = _ :=
    toNat_sub_add_of_le (w.words request).aligned (w.words request).current (by omega)
  have start_eq : (w.words request).start.toNat = _ :=
    toNat_add_of_lt w.offset (w.words request).gap (by omega)
  have address_eq : (w.words request).address.toNat = _ :=
    toNat_add_of_lt w.base (w.words request).start (by omega)
  exact ⟨mask_eq, current_eq, toNat_highest_add w request, raised_eq, aligned_eq,
    Nat.add_comm _ _ ▸ gap_eq, start_eq, address_eq⟩

theorem allocate_eq_some (meets : w.Meets request) :
    w.allocate request =
        (some (w.words request).start, { w with offset := (w.words request).stop }) ∧
      (w.words request).Exact w request := by
  obtain ⟨power, address_lt, fits⟩ := meets
  have offset_le := sound.offset_le
  have rounds := sound.rounds power address_lt
  have start_eq := rounds.start_eq
  rw [gap_eq_padding power rounds] at start_eq
  have room_eq : (w.words request).room.toNat + _ = _ :=
    toNat_sub_add_of_le w.capacity (w.words request).start (by omega)
  have stop_eq : (w.words request).stop.toNat = _ :=
    toNat_add_of_lt (w.words request).start request.size (by have := w.capacity.toNat_lt_size; omega)
  refine ⟨?_, rounds, Nat.add_comm _ _ ▸ room_eq, stop_eq⟩
  have highest_eq := rounds.highest_eq
  have current_eq := rounds.current_eq
  have mask_eq := rounds.mask_eq
  rw [allocate, if_neg (isPowerOfTwo_iff.mp power), if_neg, if_neg]
  · simp only [UInt64.lt_iff_toNat_lt]
    omega
  · simp only [UInt64.lt_iff_toNat_lt]
    omega

theorem allocate_eq_none (refused : ¬w.Meets request) : w.allocate request = (none, w) := by
  rw [allocate]
  split
  · rfl
  · next power =>
    replace power := isPowerOfTwo_iff.mpr power
    split
    · rfl
    · next address_le =>
      have highest_eq := toNat_highest_add w request
      have current_eq := sound.toNat_current request
      have mask_eq : (w.words request).mask.toNat + 1 = _ := toNat_mask_add_one power
      have offset_le := sound.offset_le
      rw [UInt64.lt_iff_toNat_lt] at address_le
      have address_lt : w.base.toNat + w.offset.toNat + (request.alignment.toNat - 1) <
          UInt64.size := by omega
      have rounds := sound.rounds power address_lt
      have start_eq := rounds.start_eq
      rw [gap_eq_padding power rounds] at start_eq
      split
      · rfl
      · next inside =>
        rw [not_or, UInt64.lt_iff_toNat_lt, UInt64.lt_iff_toNat_lt] at inside
        have room_eq : (w.words request).room.toNat + _ = _ :=
          toNat_sub_add_of_le w.capacity (w.words request).start (Nat.le_of_not_lt inside.1)
        exact absurd ⟨power, address_lt, by omega⟩ refused

end Sound

/-- The offsets where a request could be met. -/
def places (w : WordArena) (request : AllocationRequest) : Set Nat :=
  {offset | w.offset.toNat ≤ offset ∧ request.alignment.toNat ∣ w.base.toNat + offset ∧
    offset + request.size.toNat ≤ w.capacity.toNat}

/-- A request is met just when it could be, at the first place there is, and no word of the
allocation has come round. Otherwise nothing changes. -/
structure Decides (w : WordArena) (request : AllocationRequest) : Prop where
  met_iff : (w.allocate request).1.isSome ↔
    request.alignment.toNat.isPowerOfTwo ∧ (w.places request).Nonempty
  met : ∀ start ∈ (w.allocate request).1, IsLeast (w.places request) start.toNat ∧
    (w.words request).start = start ∧ (w.words request).Exact w request ∧
    (w.allocate request).2 = { w with offset := (w.words request).stop }
  refused : (w.allocate request).1 = none → (w.allocate request).2 = w

namespace Sound

variable (sound : w.Sound)
include sound

/-- Either the request could be met and is, or nothing happens. The arena of numbers does the
same. -/
theorem allocate_cases (request : AllocationRequest) :
    (∃ start, w.allocate request = (some start, { w with offset := (w.words request).stop }) ∧
      (w.words request).start = start ∧ (w.words request).Exact w request ∧
      request.alignment.toNat.isPowerOfTwo ∧ IsLeast (w.places request) start.toNat ∧
      ∃ later, sound.arena.allocate? request.size.toNat request.alignment.toNat =
        some (start.toNat, later) ∧ later.used = start.toNat + request.size.toNat ∧
        later.base = w.base.toNat ∧ later.capacity = w.capacity.toNat) ∨
      w.allocate request = (none, w) ∧
      ¬(request.alignment.toNat.isPowerOfTwo ∧ (w.places request).Nonempty) ∧
      sound.arena.allocate? request.size.toNat request.alignment.toNat = none := by
  by_cases meets : w.Meets request
  · obtain ⟨allocated, exact⟩ := sound.allocate_eq_some meets
    obtain ⟨power, address_lt, fits⟩ := meets
    have start_eq := exact.start_eq
    rw [gap_eq_padding power exact.toRounds] at start_eq
    refine .inl ⟨_, allocated, rfl, exact, power, ?_, sound.arena.claim _ fits, ?_, ?_,
      rfl, rfl⟩
    · rw [start_eq]
      exact Arena.isLeast_places (a := sound.arena) (Nat.pos_of_isPowerOfTwo power) fits
    · rw [start_eq]
      exact Arena.allocate?_eq_some power sound.positive address_lt fits
    · rw [start_eq, Nat.add_assoc]
      rfl
  · refine .inr ⟨sound.allocate_eq_none meets, ?_, ?_⟩
    · rintro ⟨power, offset, place⟩
      exact meets ⟨power, Arena.address_lt_of_mem_places (a := sound.arena) power
        request.alignment.toNat_lt_size sound.reachable place,
        Arena.padding_add_le_of_mem_places (a := sound.arena) (Nat.pos_of_isPowerOfTwo power) place⟩
    · apply (Arena.allocate?_eq_none_iff (a := sound.arena) sound.positive).mpr
      rintro ⟨power, address_lt, fits⟩
      exact meets ⟨power, address_lt, fits⟩

theorem decides (request : AllocationRequest) : w.Decides request := by
  rcases sound.allocate_cases request with
    ⟨start, allocated, start_eq, exact, power, least, -⟩ | ⟨allocated, lacks, -⟩
  · refine ⟨?_, ?_, ?_⟩
    · simp [allocated, power, least.nonempty]
    · intro start' isStart
      rw [allocated] at isStart ⊢
      obtain rfl : start = start' := Option.some.inj isStart
      exact ⟨least, start_eq, exact, rfl⟩
    · simp [allocated]
  · exact ⟨by simpa [allocated] using lacks, by simp [allocated], by simp [allocated]⟩

/-- A request leaves the arena where it is and never gives bytes back. -/
theorem exists_sound_allocate (request : AllocationRequest) :
    ∃ sound' : (w.allocate request).2.Sound, sound'.arena = sound.arena.after [request] ∧
      (w.allocate request).2.base = w.base ∧ (w.allocate request).2.capacity = w.capacity := by
  rcases sound.allocate_cases request with
    ⟨start, allocated, start_eq, exact, -, least, ⟨base, capacity, used, used_le⟩, isLater, used_eq,
      base_eq, capacity_eq⟩ | ⟨allocated, -, isNone⟩
  · have within := least.1.2.2
    have stop_eq := exact.stop_eq
    rw [start_eq] at stop_eq
    cases used_eq
    cases base_eq
    cases capacity_eq
    refine ⟨⟨?_, ?_, ?_⟩, ?_, ?_, ?_⟩
    all_goals simp only [allocated]
    · exact sound.positive
    · exact sound.reachable
    · exact stop_eq ▸ within
    · simp only [Arena.after, List.foldl_cons, List.foldl_nil, isLater, Option.map_some,
        Option.getD_some]
      simp [Sound.arena, stop_eq]
  · rw [allocated]
    refine ⟨sound, ?_, rfl, rfl⟩
    simp only [Arena.after, List.foldl_cons, List.foldl_nil, isNone, Option.map_none, Option.getD_none]

theorem exists_sound_after (requests : List AllocationRequest) :
    ∃ sound' : (w.after requests).Sound, sound'.arena = sound.arena.after requests ∧
      (w.after requests).base = w.base ∧ (w.after requests).capacity = w.capacity := by
  induction requests generalizing w with
  | nil => exact ⟨sound, rfl, rfl, rfl⟩
  | cons request later ih =>
    obtain ⟨middle, arena_eq, base_eq, capacity_eq⟩ := sound.exists_sound_allocate request
    obtain ⟨last, arena_eq', base_eq', capacity_eq'⟩ := ih middle
    rw [arena_eq] at arena_eq'
    exact ⟨last, arena_eq', base_eq'.trans base_eq, capacity_eq'.trans capacity_eq⟩

/-- The blocks lie behind what has been handed out before, at multiples of their alignments, and
none of them ends inside or behind a later one. -/
theorem blocks_placed (requests : List AllocationRequest) :
    (∀ block ∈ w.blocks requests, block.start.toNat ∈ w.places block.request) ∧
      (w.blocks requests).Pairwise fun first second =>
        first.start.toNat + first.request.size.toNat ≤ second.start.toNat := by
  induction requests generalizing w with
  | nil => simp [blocks]
  | cons request later ih =>
    obtain ⟨middle, -, base_eq, capacity_eq⟩ := sound.exists_sound_allocate request
    obtain ⟨placed, apart⟩ := ih middle
    rcases sound.allocate_cases request with
      ⟨start, allocated, start_eq, exact, -, least, -⟩ | ⟨allocated, -⟩
    · have stop_eq := exact.stop_eq
      rw [start_eq] at stop_eq
      simp only [blocks, allocated, Option.map_some, Option.toList_some, List.singleton_append,
        List.mem_cons, List.pairwise_cons] at placed apart ⊢
      have behind : ∀ block ∈ blocks { w with offset := (w.words request).stop } later,
          start.toNat + request.size.toNat ≤ block.start.toNat := by
        intro block membership
        exact stop_eq ▸ (placed block membership).1
      refine ⟨?_, behind, apart⟩
      rintro block (rfl | membership)
      · exact least.1
      · obtain ⟨-, aligned, within⟩ := placed block membership
        have offset_le := least.1.1
        have start_le := behind block membership
        exact ⟨by omega, aligned, within⟩
    · simp only [blocks, allocated] at placed apart ⊢
      exact ⟨by simpa using placed, by simpa using apart⟩

end Sound

theorem sound_ofCapacity {base capacity : UInt64} (positive : 0 < capacity)
    (reachable : base.toNat + capacity.toNat < UInt64.size) : (ofCapacity base capacity).Sound :=
  ⟨UInt64.lt_iff_toNat_lt.mp positive, reachable, Nat.zero_le _⟩

/-- Whatever has been asked of an arena before, a request is met just when some offset behind what is
handed out has an address that is a multiple of a power of two and leaves room, and then at the
first such offset, as it is with numbers instead of words. So the blocks are aligned, inside the
buffer and apart, each behind those before it. -/
theorem allocations_exact {base capacity : UInt64} (positive : 0 < capacity)
    (reachable : base.toNat + capacity.toNat < UInt64.size) (requests : List AllocationRequest) :
    let w := (ofCapacity base capacity).after requests
    let arena := (Arena.ofCapacity base.toNat capacity.toNat).after requests
    let blocks := (ofCapacity base capacity).blocks requests
    (∀ request, w.Decides request ∧
      (w.allocate request).1.map UInt64.toNat =
        (arena.allocate? request.size.toNat request.alignment.toNat).map Prod.fst) ∧
      w.base = base ∧ w.capacity = capacity ∧ w.offset.toNat = arena.used ∧
      w.offset.toNat + w.remaining.toNat = capacity.toNat ∧
      (∀ block ∈ blocks,
        block.request.alignment.toNat ∣ base.toNat + block.start.toNat ∧
          block.start.toNat + block.request.size.toNat ≤ capacity.toNat) ∧
      blocks.Pairwise fun first second =>
        first.start.toNat + first.request.size.toNat ≤ second.start.toNat := by
  intro w arena blocks
  have sound := sound_ofCapacity positive reachable
  obtain ⟨sound', arena_eq, base_eq, capacity_eq⟩ := sound.exists_sound_after requests
  obtain ⟨placed, apart⟩ := sound.blocks_placed requests
  have isArena : sound'.arena = arena := arena_eq
  refine ⟨?_, base_eq, capacity_eq, ?_, ?_, ?_, apart⟩
  · intro request
    refine ⟨sound'.decides request, ?_⟩
    rw [← isArena]
    rcases sound'.allocate_cases request with
      ⟨start, allocated, -, -, -, -, later, isLater, -⟩ | ⟨allocated, -, isNone⟩
    · simp [w, allocated, isLater]
    · simp [w, allocated, isNone]
  · rw [← isArena]
    rfl
  · have remaining_eq := toNat_sub_add_of_le w.capacity w.offset sound'.offset_le
    rw [Nat.add_comm] at remaining_eq
    exact remaining_eq.trans (congrArg UInt64.toNat capacity_eq)
  · intro block membership
    exact (placed block membership).2

/-- The buffer ends where the address space does. An empty block still goes behind the last byte, but
its address cannot be rounded up any more. -/
theorem allocations_exact_at_end :
    let base : UInt64 := 0xFFFFFFFFFFFFFF00
    let requests : List AllocationRequest :=
      [⟨3, 1⟩, ⟨8, 16⟩, ⟨0xFFFFFFFFFFFFFFFF, 1⟩, ⟨0, 0x8000000000000000⟩, ⟨4, 24⟩, ⟨231, 1⟩]
    let w := (ofCapacity base 0xFF).after requests
    (0 : UInt64) < 0xFF ∧ base.toNat + (0xFF : UInt64).toNat < UInt64.size ∧
      (ofCapacity base 0xFF).blocks requests =
        [⟨0, 3, 1⟩, ⟨16, 8, 16⟩, ⟨24, 231, 1⟩] ∧
      w.Decides ⟨0, 1⟩ ∧ (w.allocate ⟨0, 1⟩).1 = some 0xFF ∧
      w.Decides ⟨0, 256⟩ ∧ (w.allocate ⟨0, 256⟩).1 = none ∧
      w.offset.toNat + w.remaining.toNat = (0xFF : UInt64).toNat := by
  intro base requests w
  have reachable : base.toNat + (0xFF : UInt64).toNat < UInt64.size := by decide
  obtain ⟨decides, -, -, -, remaining_eq, -⟩ := allocations_exact (by decide) reachable requests
  exact ⟨by decide, reachable, by decide, (decides _).1, by decide, (decides _).1, by decide,
    remaining_eq⟩

end WordArena

end AssemblyLexer
