import AssemblyLexer.Name.Storage

/-!
What is stored stays where it is. A chunk is only ever written to behind what it
holds, and new chunks are counted on from those that are there.
-/

set_option autoImplicit false

namespace AssemblyLexer.Storage

/-- The placement is a stretch of a chunk with the text in it. -/
structure Holds (s : Storage) (p : Placement) (text : Bytes) : Prop where
  length_eq : p.length = text.length
  stands : ∃ chunk before after, s.chunk? p.chunk = some chunk ∧
    chunk.contents = before ++ text ++ after ∧ before.length = p.offset

/-- Every chunk of one storage is a chunk of the other, which begins with what it holds. -/
def Keeps (s later : Storage) : Prop :=
  ∀ id chunk, s.chunk? id = some chunk →
    ∃ chunk', later.chunk? id = some chunk' ∧ chunk.contents <+: chunk'.contents

variable {s later : Storage} {p : Placement} {text : Bytes}

theorem Holds.read_eq (holds : s.Holds p text) : s.read p = text := by
  obtain ⟨chunk, before, after, isChunk, contents_eq, offset_eq⟩ := holds.stands
  simp only [read, isChunk]
  rw [contents_eq, holds.length_eq, ← offset_eq, List.append_assoc, List.drop_left, List.take_left]

theorem Holds.keeps (holds : s.Holds p text) (keeps : s.Keeps later) : later.Holds p text := by
  obtain ⟨chunk, before, after, isChunk, contents_eq, offset_eq⟩ := holds.stands
  obtain ⟨chunk', isChunk', more, contents_eq'⟩ := keeps p.chunk chunk isChunk
  refine ⟨holds.length_eq, chunk', before, after ++ more, isChunk', ?_, offset_eq⟩
  rw [← contents_eq', contents_eq, List.append_assoc]

/-- New chunks are counted on from those that are there. -/
theorem keeps_of_opened (dedicated : s.dedicated <+: later.dedicated)
    (shared : s.shared <:+ later.shared) : s.Keeps later := by
  intro id chunk isChunk
  refine ⟨chunk, ?_, List.prefix_refl _⟩
  cases id with
  | dedicated index =>
    obtain ⟨new, dedicated_eq⟩ := dedicated
    have within := (List.getElem?_eq_some_iff.mp isChunk).1
    rw [chunk?, ← dedicated_eq, List.getElem?_append_left within]
    exact isChunk
  | shared index =>
    obtain ⟨new, shared_eq⟩ := shared
    have within := (List.getElem?_eq_some_iff.mp isChunk).1
    rw [chunk?, ← shared_eq, List.reverse_append, List.getElem?_append_left within]
    exact isChunk

/-- The newest shared chunk may be written to. -/
theorem keeps_write {chunk : Chunk} {older : List Chunk} (shared_eq : s.shared = chunk :: older)
    (fits : text.length ≤ chunk.arena.remaining) (size : Nat) :
    s.Keeps { s with shared := chunk.write text fits :: older, size := size } := by
  intro id found isChunk
  cases id with
  | dedicated index => exact ⟨found, isChunk, List.prefix_refl _⟩
  | shared index =>
    simp only [chunk?, shared_eq, List.reverse_cons] at isChunk ⊢
    rcases Nat.lt_trichotomy index older.reverse.length with isOlder | rfl | beyond
    · rw [List.getElem?_append_left isOlder] at isChunk ⊢
      exact ⟨found, isChunk, List.prefix_refl _⟩
    · rw [List.getElem?_concat_length] at isChunk ⊢
      obtain rfl := Option.some.inj isChunk
      exact ⟨_, rfl, List.prefix_append _ _⟩
    · have within := (List.getElem?_eq_some_iff.mp isChunk).1
      rw [List.length_append, List.length_singleton] at within
      omega

theorem holds_holding {capacity : Nat} (fits : text.length ≤ capacity) {id : ChunkId}
    (isChunk : s.chunk? id = some (Chunk.holding capacity text fits)) :
    s.Holds ⟨id, 0, text.length⟩ text :=
  ⟨rfl, _, [], [], isChunk, (List.append_nil _).symm, rfl⟩

/-- What storing a text leaves: everything that was there, and the text. -/
structure Stores (s : Storage) (text : Bytes) (result : Storage × Placement) : Prop where
  keeps : s.Keeps result.1
  holds : result.1.Holds result.2 text
  size_eq : result.1.size = s.size + text.length

theorem stores_storeLong (s : Storage) (text : Bytes) : s.Stores text (s.storeLong text) where
  keeps := keeps_of_opened (List.prefix_append _ _) (List.suffix_refl _)
  holds := holds_holding _ List.getElem?_concat_length
  size_eq := rfl

theorem stores_storeShort (s : Storage) (short : text.length < longLength) :
    s.Stores text (s.storeShort text short) := by
  unfold storeShort
  dsimp only
  split
  · next shared_eq =>
    refine ⟨keeps_of_opened (List.prefix_refl _) ?_, ?_, rfl⟩
    · rw [shared_eq]
      exact List.nil_suffix
    · exact holds_holding _ rfl
  · next chunk older shared_eq =>
    split
    · next fits =>
      refine ⟨keeps_write shared_eq fits _, ?_, rfl⟩
      refine ⟨rfl, chunk.write text fits, chunk.contents, [], ?_, (List.append_nil _).symm,
        chunk.length_contents⟩
      rw [chunk?, List.reverse_cons, ← List.length_reverse]
      exact List.getElem?_concat_length
    · refine ⟨keeps_of_opened (List.prefix_refl _) ?_, ?_, rfl⟩
      · rw [shared_eq]
        exact List.suffix_cons _ _
      · apply holds_holding
        rw [chunk?, List.reverse_cons, ← List.length_cons, ← List.length_reverse]
        exact List.getElem?_concat_length

theorem stores_store (s : Storage) (text : Bytes) : s.Stores text (s.store text) := by
  unfold store
  split
  · next short => exact stores_storeShort s short
  · exact stores_storeLong s text

end AssemblyLexer.Storage
