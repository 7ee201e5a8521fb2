import AssemblyLexer.Proofs.Decoding
import AssemblyLexer.Proofs.Stretch

/-!
Valid UTF-8. A byte string is valid when decoding character after character
succeeds up to its end. A valid string that is cut beside a byte of ASCII falls
into valid parts.
-/

set_option autoImplicit false

namespace AssemblyLexer.Utf8

/-- Decoding from the start on gives the characters and comes to the end. -/
inductive Decodes : Bytes → List Char → Prop
  | nil : Decodes [] []
  | cons {bytes : Bytes} {c : Char} {length : Nat} {characters : List Char}
      (decoded : decode? bytes = some (c, length))
      (later : Decodes (bytes.drop length) characters) : Decodes bytes (c :: characters)

def Valid (bytes : Bytes) : Prop :=
  ∃ characters, Decodes bytes characters

/-- The places between the characters that decoding from the start on gives. -/
inductive Boundary (bytes : Bytes) : Nat → Prop
  | start : Boundary bytes 0
  | next {p length : Nat} {c : Char} (before : Boundary bytes p)
      (decoded : decode? (bytes.drop p) = some (c, length)) : Boundary bytes (p + length)

theorem decodes_iff {bytes : Bytes} {characters : List Char} :
    Decodes bytes characters ↔ characters.flatMap encode = bytes := by
  constructor
  · intro decodes
    induction decodes with
    | nil => rfl
    | cons decoded _ ih =>
      obtain ⟨⟨rest, rfl⟩, rfl⟩ := decode?_eq_some_iff.mp decoded
      rw [List.drop_left] at ih
      rw [List.flatMap_cons, ih]
  · rintro rfl
    induction characters with
    | nil => exact .nil
    | cons c characters ih =>
      apply Decodes.cons
      · exact decode?_eq_some_iff.mpr ⟨List.prefix_append _ _, rfl⟩
      · rw [List.flatMap_cons, List.drop_left]
        exact ih

theorem valid_nil : Valid [] :=
  ⟨[], .nil⟩

theorem valid_encode (c : Char) : Valid (encode c) :=
  ⟨[c], decodes_iff.mpr (List.flatMap_singleton encode c)⟩

theorem Valid.append {left right : Bytes} (first : Valid left) (second : Valid right) :
    Valid (left ++ right) := by
  obtain ⟨characters, decodes⟩ := first
  obtain ⟨more, decodes'⟩ := second
  refine ⟨characters ++ more, decodes_iff.mpr ?_⟩
  rw [List.flatMap_append, decodes_iff.mp decodes, decodes_iff.mp decodes']

theorem valid_of_low {bytes : Bytes} (low : ∀ b ∈ bytes, b.isHigh = false) : Valid bytes := by
  induction bytes with
  | nil => exact valid_nil
  | cons b rest ih =>
    obtain ⟨c, encoded⟩ := exists_encode_eq (low b List.mem_cons_self)
    have valid := valid_encode c
    rw [encoded] at valid
    exact valid.append (ih fun d membership => low d (List.mem_cons_of_mem b membership))

/-- Both sides of a byte of ASCII are valid. -/
theorem Valid.split {left right : Bytes} {b : Byte} (valid : Valid (left ++ b :: right))
    (low : b.isHigh = false) : Valid left ∧ Valid right := by
  obtain ⟨characters, decodes⟩ := valid
  have encoded := decodes_iff.mp decodes
  clear decodes
  induction characters generalizing left with
  | nil => simp at encoded
  | cons c characters ih =>
    rw [List.flatMap_cons] at encoded
    rcases List.append_eq_append_iff.mp encoded with ⟨more, left_eq, rest_eq⟩ | ⟨more, own, rest_eq⟩
    · obtain ⟨before, after⟩ := ih rest_eq
      subst left_eq
      exact ⟨(valid_encode c).append before, after⟩
    · cases more with
      | nil =>
        rw [List.append_nil] at own
        obtain ⟨_, after⟩ := @ih [] rest_eq.symm
        exact ⟨own ▸ valid_encode c, after⟩
      | cons d more =>
        -- The byte belongs to the encoding of the character, which has no byte besides.
        obtain ⟨rfl, rfl⟩ := List.cons.inj rest_eq
        rcases encode_cases c with ⟨d, _, single⟩ | high
        · rw [single] at own
          cases left with
          | nil =>
            obtain ⟨rfl, rfl⟩ := List.cons.inj own
            exact ⟨valid_nil, characters, decodes_iff.mpr rfl⟩
          | cons e left => simp at own
        · have isHigh := high b (own ▸ List.mem_append_right _ List.mem_cons_self)
          exact absurd isHigh (Bool.eq_false_iff.mp low)

theorem Valid.tail {b : Byte} {rest : Bytes} (valid : Valid (b :: rest)) (low : b.isHigh = false) :
    Valid rest :=
  (@Valid.split [] rest b valid low).2

/-- No character lies across the place between two byte strings, as the byte before it or the one
behind it is of ASCII, if there is any. -/
def Parted (left right : Bytes) : Prop :=
  (∀ b ∈ left.getLast?, b.isHigh = false) ∨ StopsClass Byte.isHigh right

theorem Valid.of_parted {left right : Bytes} (valid : Valid (left ++ right))
    (parted : Parted left right) : Valid left ∧ Valid right := by
  rcases parted with low | stops
  · cases last : left.getLast? with
    | none =>
      obtain rfl := List.getLast?_eq_none_iff.mp last
      exact ⟨valid_nil, valid⟩
    | some b =>
      have isLow := low b last
      obtain ⟨before, rfl⟩ := List.getLast?_eq_some_iff.mp last
      rw [List.append_assoc, List.singleton_append] at valid
      obtain ⟨first, second⟩ := valid.split isLow
      exact ⟨first.append (valid_of_low (by simpa using isLow)), second⟩
  · cases right with
    | nil =>
      rw [List.append_nil] at valid
      exact ⟨valid, valid_nil⟩
    | cons b rest =>
      have isLow := stops b rfl
      obtain ⟨first, second⟩ := valid.split isLow
      have single : Valid [b] := valid_of_low (by simpa using isLow)
      exact ⟨first, single.append second⟩

theorem Valid.of_low_append {left right : Bytes} (valid : Valid (left ++ right))
    (low : ∀ b ∈ left, b.isHigh = false) : Valid right :=
  (valid.of_parted (.inl fun b isLast => low b (List.mem_of_getLast? isLast))).2

theorem Decodes.boundary {left : Bytes} {characters : List Char} (decodes : Decodes left characters)
    (right passed : Bytes) {bytes : Bytes} (bytes_eq : bytes = passed ++ (left ++ right))
    (before : Boundary bytes passed.length) : Boundary bytes (passed.length + left.length) := by
  induction decodes generalizing passed with
  | nil => exact before
  | @cons left c length characters decoded _ ih =>
    obtain ⟨⟨rest, rfl⟩, rfl⟩ := decode?_eq_some_iff.mp decoded
    rw [List.append_assoc] at bytes_eq
    have there : decode? (bytes.drop passed.length) = some (c, (encode c).length) := by
      rw [bytes_eq, List.drop_left]
      exact decode?_eq_some_iff.mpr ⟨List.prefix_append _ _, rfl⟩
    have behind := before.next there
    rw [← List.length_append] at behind
    rw [List.drop_left] at ih
    rw [List.length_append, ← Nat.add_assoc, ← List.length_append]
    apply ih (passed ++ encode c) _ behind
    rw [bytes_eq, List.append_assoc]

/-- A valid beginning ends at a boundary. -/
theorem boundary_of_valid {left : Bytes} (valid : Valid left) (right : Bytes) :
    Boundary (left ++ right) left.length := by
  obtain ⟨characters, decodes⟩ := valid
  have boundary := decodes.boundary right [] rfl .start
  rwa [List.length_nil, Nat.zero_add] at boundary

end AssemblyLexer.Utf8
