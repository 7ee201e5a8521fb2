import AssemblyLexer.Text.Byte

/-!
The longest stretch of bytes of one class. Scanning it again with other bytes
behind it gives the same stretch, as long as these do not go on with the class.
-/

set_option autoImplicit false

namespace AssemblyLexer

variable {p : Byte → Bool}

/-- No byte of the class comes first. -/
def StopsClass (p : Byte → Bool) (bytes : Bytes) : Prop :=
  ∀ b ∈ bytes.head?, p b = false

theorem stopsClass_cons {b : Byte} {rest : Bytes} : StopsClass p (b :: rest) ↔ p b = false := by
  simp [StopsClass]

theorem StopsClass.congr {bytes bytes' : Bytes} (stops : StopsClass p bytes)
    (same : bytes'.head? = bytes.head?) : StopsClass p bytes' := by
  intro b isHead
  rw [same] at isHead
  exact stops b isHead

theorem drop_takeWhile (bytes : Bytes) :
    bytes.drop (bytes.takeWhile p).length = bytes.dropWhile p := by
  induction bytes with
  | nil => rfl
  | cons b rest ih => by_cases member : p b <;> simp [member, ih]

theorem stopsClass_dropWhile (bytes : Bytes) : StopsClass p (bytes.dropWhile p) := by
  induction bytes with
  | nil => simp [StopsClass]
  | cons b rest ih =>
    by_cases member : p b
    · rw [List.dropWhile_cons_of_pos member]
      exact ih
    · rw [List.dropWhile_cons_of_neg member]
      simpa [StopsClass] using member

theorem takeWhile_append_of_stopsClass {bytes after : Bytes} (all : ∀ b ∈ bytes, p b)
    (stops : StopsClass p after) : (bytes ++ after).takeWhile p = bytes := by
  rw [List.takeWhile_append_of_pos all]
  cases after with
  | nil => simp
  | cons b rest =>
    have outside : p b = false := stops b rfl
    simp [outside]

theorem of_mem_takeWhile {bytes : Bytes} {b : Byte} (membership : b ∈ bytes.takeWhile p) : p b :=
  List.all_eq_true.mp List.all_takeWhile b membership

theorem exists_stretch (p : Byte → Bool) (bytes : Bytes) :
    ∃ stretch after, bytes = stretch ++ after ∧ (∀ b ∈ stretch, p b) ∧ StopsClass p after ∧
      bytes.takeWhile p = stretch ∧ bytes.drop stretch.length = after :=
  ⟨bytes.takeWhile p, bytes.dropWhile p, List.takeWhile_append_dropWhile.symm,
    fun _ membership => of_mem_takeWhile membership, stopsClass_dropWhile bytes, rfl,
    drop_takeWhile bytes⟩

end AssemblyLexer
