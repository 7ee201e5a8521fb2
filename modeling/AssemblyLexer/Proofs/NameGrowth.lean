import AssemblyLexer.Name.Predefined

/-!
Growth of a name table. Names are only ever added behind those that are there, and the
index takes up each of them, so a name keeps its text and a text keeps its name.
-/

set_option autoImplicit false

namespace AssemblyLexer.NameTable

/-- The index leads from the text of each entry to its number. -/
def Indexed (t : NameTable) : Prop :=
  t.index = t.entries.mapIdx fun i entry => (entry.text, ⟨i⟩)

/-- The index is in step with the entries, and the empty text is the first of them. Both hold of the
predefined table, and a table that grows keeps them. -/
structure Rooted (t : NameTable) : Prop where
  indexed : t.Indexed
  head_eq : t.entries.head?.map NameEntry.text = some []

/-- The name and the text belong together in the table. -/
structure Names (t : NameTable) (text : Bytes) (name : Name) : Prop where
  find?_eq : t.find? text = some name
  text_eq : t.entries[name.index]?.map NameEntry.text = some text

/-- The entries of one table are the first of another, and so are those of its index, which stays in
step with them. -/
structure Grows (t later : NameTable) : Prop where
  entries : t.entries <+: later.entries
  index : t.index <+: later.index
  indexed : t.Indexed → later.Indexed

variable {t later : NameTable} {text : Bytes} {name : Name}

theorem Grows.refl (t : NameTable) : t.Grows t :=
  ⟨List.prefix_refl _, List.prefix_refl _, id⟩

theorem Grows.trans {last : NameTable} (grows : t.Grows later) (further : later.Grows last) :
    t.Grows last :=
  ⟨grows.entries.trans further.entries, grows.index.trans further.index,
    fun indexed => further.indexed (grows.indexed indexed)⟩

theorem Rooted.grows (rooted : t.Rooted) (grows : t.Grows later) : later.Rooted := by
  refine ⟨grows.indexed rooted.indexed, ?_⟩
  obtain ⟨added, entries_eq⟩ := grows.entries
  have head_eq := rooted.head_eq
  cases first : t.entries with
  | nil =>
    rw [first] at head_eq
    cases head_eq
  | cons entry entries =>
    rw [first] at head_eq
    rw [← entries_eq, first]
    exact head_eq

theorem Names.get_eq (names : t.Names text name) : t.get name = text := by
  obtain ⟨entry, isEntry, rfl⟩ := Option.map_eq_some_iff.mp names.text_eq
  rw [get, isEntry]

/-- Items that are found by their keys are found where they first stand. -/
theorem find?_mapIdx {Item Key : Type} (items : List Item) (key : Item → Key) (p : Key → Bool)
    (start : Nat) :
    ((items.mapIdx fun i item => (key item, Name.mk (i + start))).find? fun entry => p entry.1).map
        Prod.snd =
      (items.findIdx? fun item => p (key item)).map fun i => ⟨i + start⟩ := by
  induction items generalizing start with
  | nil => rfl
  | cons item items ih =>
    rw [List.mapIdx_cons, List.find?_cons, List.findIdx?_cons]
    cases found : p (key item) with
    | true =>
      rw [if_pos rfl]
      rfl
    | false =>
      have later := ih (start + 1)
      simp only [← Nat.add_assoc, Nat.add_right_comm _ _ 1] at later
      rw [if_neg Bool.false_ne_true, later, Option.map_map]
      congr 1

/-- A text that is looked up in the index is the first among the entries. -/
theorem Indexed.find?_eq (indexed : t.Indexed) (text : Bytes) :
    t.find? text = (t.entries.findIdx? fun entry => entry.text == text).map Name.mk := by
  rw [find?, indexed]
  exact find?_mapIdx t.entries NameEntry.text (· == text) 0

theorem Indexed.names_of_find? (indexed : t.Indexed) (found : t.find? text = some name) :
    t.Names text name := by
  refine ⟨found, ?_⟩
  rw [indexed.find?_eq] at found
  obtain ⟨i, index_eq, rfl⟩ := Option.map_eq_some_iff.mp found
  obtain ⟨within, same, _⟩ := List.findIdx?_eq_some_iff_getElem.mp index_eq
  rw [List.getElem?_eq_getElem within, Option.map_some, eq_of_beq same]

/-- A table that grows keeps what a text is called. -/
theorem Names.grows (names : t.Names text name) (grows : t.Grows later) :
    later.Names text name := by
  obtain ⟨_, index_eq⟩ := grows.index
  obtain ⟨_, entries_eq⟩ := grows.entries
  constructor
  · rw [find?, ← index_eq, List.find?_append, Option.map_or, ← find?, names.find?_eq, Option.some_or]
  · obtain ⟨entry, isEntry, text_eq⟩ := Option.map_eq_some_iff.mp names.text_eq
    have within := (List.getElem?_eq_some_iff.mp isEntry).1
    rw [← entries_eq, List.getElem?_append_left within, isEntry, Option.map_some, text_eq]

theorem Names.eq_iff {text' : Bytes} {name' : Name} (names : t.Names text name)
    (names' : t.Names text' name') : name = name' ↔ text = text' := by
  constructor
  · rintro rfl
    exact names.get_eq.symm.trans names'.get_eq
  · rintro rfl
    exact Option.some.inj (names.find?_eq.symm.trans names'.find?_eq)

theorem entries_insert (t : NameTable) (text : Bytes) :
    ∃ placement, (t.insert text).1.entries = t.entries ++ [⟨text, placement⟩] :=
  ⟨_, rfl⟩

theorem Indexed.insert (indexed : t.Indexed) (text : Bytes) : (t.insert text).1.Indexed := by
  have index_eq : (t.insert text).1.index = t.index ++ [(text, ⟨t.count⟩)] := rfl
  obtain ⟨placement, entries_eq⟩ := t.entries_insert text
  rw [Indexed, index_eq, entries_eq, List.mapIdx_append, indexed]
  simp [count]

theorem grows_insert (t : NameTable) (text : Bytes) : t.Grows (t.insert text).1 :=
  ⟨List.prefix_append _ _, List.prefix_append _ _, fun indexed => indexed.insert text⟩

theorem grows_add (t : NameTable) (text : Bytes) : t.Grows (t.add text).1 := by
  unfold add
  split
  · exact .refl t
  · exact t.grows_insert text

theorem Indexed.names_add (indexed : t.Indexed) (text : Bytes) :
    (t.add text).1.Names text (t.add text).2 := by
  have added := (t.grows_add text).indexed indexed
  unfold add at added ⊢
  split
  · next found => exact indexed.names_of_find? found
  · next absent =>
    rw [absent] at added
    rw [indexed.find?_eq, Option.map_eq_none_iff] at absent
    obtain ⟨placement, entries_eq⟩ := t.entries_insert text
    apply added.names_of_find?
    rw [added.find?_eq, entries_eq, List.findIdx?_append, absent]
    simp
    rfl

theorem grows_addAll (t : NameTable) (texts : List Bytes) : t.Grows (t.addAll texts) := by
  induction texts generalizing t with
  | nil => exact .refl t
  | cons text texts ih => exact (t.grows_add text).trans (ih _)

theorem grows_setPending (t : NameTable) (pending : Bytes) :
    t.Grows { t with pending := pending } :=
  ⟨List.prefix_refl _, List.prefix_refl _, id⟩

theorem grows_pushPendingCode (t : NameTable) (code : Nat) : t.Grows (t.pushPendingCode code) := by
  unfold pushPendingCode
  split
  · exact t.grows_setPending _
  · exact .refl t

theorem rooted_empty : empty.Rooted :=
  ⟨rfl, rfl⟩

theorem rooted_predefined : predefined.Rooted :=
  rooted_empty.grows (grows_addAll _ _)

theorem Rooted.find?_nil (rooted : t.Rooted) : t.find? [] = some .empty := by
  have head_eq := rooted.head_eq
  rw [rooted.indexed.find?_eq]
  cases first : t.entries with
  | nil =>
    rw [first] at head_eq
    cases head_eq
  | cons entry entries =>
    rw [first] at head_eq
    have text_eq : entry.text = [] := Option.some.inj head_eq
    rw [List.findIdx?_cons, text_eq]
    rfl

/-- Only the empty text has the empty name. -/
theorem Rooted.isEmpty_iff (rooted : t.Rooted) (names : t.Names text name) :
    name.isEmpty = text.isEmpty := by
  rw [Name.isEmpty, Bool.eq_iff_iff, decide_eq_true_eq, List.isEmpty_iff]
  exact names.eq_iff (rooted.indexed.names_of_find? rooted.find?_nil)

/-- No number is left for the text, which is new. -/
def Refuses (t : NameTable) (text : Bytes) : Prop :=
  t.isFull ∧ t.find? text = none

instance (t : NameTable) (text : Bytes) : Decidable (t.Refuses text) :=
  inferInstanceAs (Decidable (_ ∧ _))

theorem add?_eq (t : NameTable) (text : Bytes) :
    t.add? text = if t.Refuses text then none else some (t.add text) := by
  rw [add?, add]
  cases found : t.find? text with
  | some name => simp [Refuses, found]
  | none => simp [Refuses, found]

/-- Whether a known text is dropped or a new one is added, what is pending is added and cleared. -/
theorem internPending_eq (t : NameTable) :
    t.internPending = ((t.add t.pending).1.clearPending, (t.add t.pending).2) := by
  rw [internPending]
  cases found : t.find? t.pending with
  | some name => rw [add, found]
  | none => rfl

theorem internPending?_eq (t : NameTable) :
    t.internPending? = if t.Refuses t.pending then none else some t.internPending := by
  rw [internPending?, internPending, add?_eq]
  cases found : t.find? t.pending with
  | some name => simp [Refuses, found]
  | none =>
    dsimp only
    split
    · rfl
    · rfl

/-- What has been spelled out is added like any other text. -/
theorem internPending_pushPending (t : NameTable) (text : Bytes) :
    (t.clearPending.pushPending text).internPending = t.clearPending.add text := by
  have find?_eq : (t.clearPending.pushPending text).find? text = t.clearPending.find? text := rfl
  have pending_eq : (t.clearPending.pushPending text).pending = text := List.nil_append text
  rw [internPending_eq, pending_eq, add, add, find?_eq]
  cases t.clearPending.find? text <;> rfl

end AssemblyLexer.NameTable
