import AssemblyLexer.Position

/-!
Lines and columns of a source, counted from its start, and the positions that
passing over a beginning of it leaves behind. The two agree everywhere, and no
count is cut off in a source that is short enough.
-/

set_option autoImplicit false

namespace AssemblyLexer

/-- A line break starts at the offset: a line feed after a carriage return starts none. -/
def breaksAt (source : Bytes) (i : Nat) : Bool :=
  source[i]? = some Byte.carriageReturn ||
    source[i]? = some Byte.lineFeed && !(0 < i && source[i - 1]? = some Byte.carriageReturn)

/-- One more than the number of line breaks that start before the offset. -/
def lineAt (source : Bytes) (p : Nat) : Nat :=
  1 + (List.range p).countP (breaksAt source)

/-- The offset just after the last carriage return or line feed before the given one. -/
def lineStartAt (source : Bytes) : Nat → Nat
  | 0 => 0
  | p + 1 => if source[p]?.any Byte.isLineBreak then p + 1 else lineStartAt source p

/-- The distance from the start of the line, counted from one. -/
def columnAt (source : Bytes) (p : Nat) : Nat :=
  p - lineStartAt source p + 1

theorem lineAt_succ (source : Bytes) (p : Nat) :
    lineAt source (p + 1) = lineAt source p + if breaksAt source p then 1 else 0 := by
  rw [lineAt, lineAt, List.range_succ, List.countP_append, List.countP_singleton, Nat.add_assoc]

theorem lineAt_le (source : Bytes) (p : Nat) : lineAt source p ≤ p + 1 := by
  have counted := List.countP_le_length (p := breaksAt source) (l := List.range p)
  rw [List.length_range] at counted
  rw [lineAt]
  omega

theorem columnAt_le (source : Bytes) (p : Nat) : columnAt source p ≤ p + 1 := by
  rw [columnAt]
  omega

/-- The offset does not stand between the two bytes of one line break. -/
def KeepsBreaks (source : Bytes) (e : Nat) : Prop :=
  source[e]? = some Byte.lineFeed → 0 < e → source[e - 1]? ≠ some Byte.carriageReturn

variable {source : Bytes} {e : Nat}

theorem breaksAt_add (keeps : KeepsBreaks source e) (i : Nat) :
    breaksAt source (e + i) = breaksAt (source.drop e) i := by
  unfold breaksAt
  rw [List.getElem?_drop]
  cases i with
  | zero =>
    by_cases isFeed : source[e]? = some Byte.lineFeed
    · by_cases positive : 0 < e
      · simp [isFeed, keeps isFeed positive]
      · simp [isFeed, positive]
    · simp [isFeed]
  | succ i =>
    rw [← Nat.add_assoc, Nat.add_sub_cancel, Nat.add_sub_cancel, List.getElem?_drop]
    simp

/-- The lines of a source go on where the lines before an offset stop. -/
theorem lineAt_add (keeps : KeepsBreaks source e) (i : Nat) :
    lineAt source (e + i) = lineAt (source.drop e) i + (lineAt source e - 1) := by
  induction i with
  | zero =>
    have positive : 1 ≤ lineAt source e := Nat.le_add_right _ _
    have first : lineAt (source.drop e) 0 = 1 := rfl
    rw [Nat.add_zero, first]
    omega
  | succ i ih =>
    rw [← Nat.add_assoc, lineAt_succ, ih, lineAt_succ, breaksAt_add keeps, Nat.add_right_comm]

theorem lineStartAt_add (i : Nat) :
    lineStartAt source (e + i) =
      if lineStartAt (source.drop e) i = 0 then lineStartAt source e
      else e + lineStartAt (source.drop e) i := by
  induction i with
  | zero => rfl
  | succ i ih =>
    rw [← Nat.add_assoc, lineStartAt, lineStartAt, List.getElem?_drop]
    by_cases isBreak : source[e + i]?.any Byte.isLineBreak
    · rw [if_pos isBreak, if_pos isBreak, if_neg (Nat.succ_ne_zero i), Nat.add_assoc]
    · rw [if_neg isBreak, if_neg isBreak, ih]

theorem breaksAt_of_noBreak {p : Nat} (noBreak : ¬source[p]?.any Byte.isLineBreak) :
    breaksAt source p = false := by
  have noReturn : source[p]? ≠ some Byte.carriageReturn := by
    intro isReturn
    exact noBreak (by rw [isReturn]; rfl)
  have noFeed : source[p]? ≠ some Byte.lineFeed := by
    intro isFeed
    exact noBreak (by rw [isFeed]; rfl)
  simp [breaksAt, noReturn, noFeed]

/-- A byte of a line break that starts none is the line feed behind a carriage return. -/
theorem pair_of_breaksAt {p : Nat} (isBreak : source[p]?.any Byte.isLineBreak)
    (second : breaksAt source p = false) :
    0 < p ∧ source[p - 1]? = some Byte.carriageReturn := by
  obtain ⟨b, isByte, byteBreaks⟩ := (Option.any_eq_true _ _).mp isBreak
  have others : ¬b = Byte.carriageReturn ∧
      (b = Byte.lineFeed → 0 < p ∧ source[p - 1]? = some Byte.carriageReturn) := by
    simpa [breaksAt, isByte] using second
  exact others.2 ((Byte.isLineBreak_iff.mp byteBreaks).resolve_right others.1)

/-- The first line is the one that starts at the start. -/
theorem lineAt_eq_one_iff (source : Bytes) (p : Nat) :
    lineAt source p = 1 ↔ lineStartAt source p = 0 := by
  induction p with
  | zero => exact iff_of_true rfl rfl
  | succ p ih =>
    rw [lineAt_succ, lineStartAt]
    have positive : 1 ≤ lineAt source p := Nat.le_add_right _ _
    by_cases isBreak : source[p]?.any Byte.isLineBreak
    · rw [if_pos isBreak]
      apply iff_of_false _ (Nat.succ_ne_zero p)
      cases breaks : breaksAt source p with
      | true =>
        rw [if_pos rfl]
        omega
      | false =>
        -- The carriage return before it has started another line.
        obtain ⟨positive', isReturn⟩ := pair_of_breaksAt isBreak breaks
        obtain ⟨q, rfl⟩ := Nat.exists_eq_add_one_of_ne_zero (Nat.ne_of_gt positive')
        have start_eq : lineStartAt source (q + 1) = q + 1 := by
          rw [Nat.add_sub_cancel] at isReturn
          rw [lineStartAt, isReturn]
          rfl
        rw [start_eq] at ih
        exact fun first => absurd (ih.mp first) (Nat.succ_ne_zero q)
    · rw [if_neg isBreak, breaksAt_of_noBreak isBreak]
      exact ih

theorem lineStartAt_le (source : Bytes) (p : Nat) : lineStartAt source p ≤ p := by
  induction p with
  | zero => exact Nat.le_refl _
  | succ p ih =>
    rw [lineStartAt]
    split
    · exact Nat.le_refl _
    · exact Nat.le_succ_of_le ih

/-- Columns behind an offset are counted anew but for those of its own line. -/
theorem columnAt_add (source : Bytes) (e i : Nat) :
    columnAt source (e + i) = columnAt (source.drop e) i +
      if lineAt (source.drop e) i = 1 then e - lineStartAt source e else 0 := by
  have start_le := lineStartAt_le source e
  have start_le' := lineStartAt_le (source.drop e) i
  simp only [columnAt, lineStartAt_add, lineAt_eq_one_iff]
  split <;> omega

namespace Position

theorem passAll_take {source : Bytes} {p : Nat} (within : p ≤ source.length) :
    initial.passAll (source.take p) =
      { offset := p
        line := lineAt source p
        lineStart := lineStartAt source p
        afterReturn := 0 < p && source[p - 1]? = some Byte.carriageReturn } := by
  induction p with
  | zero => rfl
  | succ p ih =>
    have next : source[p]? = some source[p] := List.getElem?_eq_getElem within
    have distinct : Byte.lineFeed ≠ Byte.carriageReturn := by decide
    rw [List.take_add_one, next, Option.toList_some, passAll_append, ih (Nat.le_of_succ_le within)]
    simp only [passAll, List.foldl_cons, List.foldl_nil, pass, lineAt_succ, breaksAt, lineStartAt,
      next, Option.any_some, Byte.isLineBreak, Nat.add_sub_cancel]
    by_cases isReturn : source[p] = Byte.carriageReturn
    · simp [isReturn]
    · by_cases isFeed : source[p] = Byte.lineFeed
      · by_cases afterReturn : 0 < p ∧ source[p - 1]? = some Byte.carriageReturn
        · simp [isFeed, distinct, afterReturn]
        · simp [isFeed, distinct, ← Bool.decide_and, afterReturn]
      · simp [isReturn, isFeed]

end Position

/-- A location gives the line and the column that an offset has in the source of a file. -/
structure Location.Marks (location : Location) (file : UInt32) (source : Bytes) (p : Nat) :
    Prop where
  within : p ≤ source.length
  file_eq : location.file = file
  line_eq : location.line.toNat = lineAt source p
  column_eq : location.column.toNat = columnAt source p

/-- The count of lines and the columns of a short source fit 32 bits. -/
theorem Position.marks_location {source : Bytes} (short : source.length < UInt32.size - 1)
    (file : UInt32) {p : Nat} (within : p ≤ source.length) :
    ((initial.passAll (source.take p)).location file).Marks file source p := by
  have line : lineAt source p < UInt32.size :=
    Nat.lt_of_le_of_lt (lineAt_le source p) (by omega)
  have column : columnAt source p < UInt32.size :=
    Nat.lt_of_le_of_lt (columnAt_le source p) (by omega)
  rw [passAll_take within]
  exact ⟨within, rfl, UInt32.toNat_ofNat_of_lt' line, UInt32.toNat_ofNat_of_lt' column⟩

end AssemblyLexer
