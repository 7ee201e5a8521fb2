import AssemblyLexer.Name.History
import AssemblyLexer.Proofs.NameGrowth
import AssemblyLexer.Proofs.NameStorage

/-!
What a table of names holds after any history: the texts that were interned, each
once and in the order in which they first came, numbered without gaps, with their
bytes in the storage.
-/

set_option autoImplicit false

namespace AssemblyLexer

/-- The bytes of an entry are in the storage, or there are none. -/
inductive NameEntry.StoredIn (s : Storage) : NameEntry → Prop
  | empty : StoredIn s ⟨[], none⟩
  | placed {text : Bytes} {p : Placement} (holds : s.Holds p text) : StoredIn s ⟨text, some p⟩

theorem NameEntry.StoredIn.keeps {s later : Storage} {entry : NameEntry} (stored : entry.StoredIn s)
    (keeps : s.Keeps later) : entry.StoredIn later := by
  cases stored with
  | empty => exact .empty
  | placed holds => exact .placed (holds.keeps keeps)

namespace NameTable

/-- The table is that of the texts in the ledger, which are all different, and of the pending
text. -/
structure Represents (t : NameTable) (ledger : List Bytes) (pending : Bytes) : Prop where
  texts_eq : t.texts = ledger
  pending_eq : t.pending = pending
  distinct : ledger.Nodup
  rooted : t.Rooted
  /-- The bytes are those of the texts laid end to end. -/
  size_eq : t.size = ledger.flatten.length
  stored : ∀ entry ∈ t.entries, entry.StoredIn t.storage

variable {t : NameTable} {ledger : List Bytes} {pending text : Bytes} {name : Name}

namespace Represents

theorem indexed (represents : t.Represents ledger pending) : t.Indexed :=
  represents.rooted.indexed

/-- The index has the texts of the ledger under their numbers. -/
theorem index_eq (represents : t.Represents ledger pending) :
    t.index = ledger.mapIdx fun i text => (text, ⟨i⟩) := by
  rw [represents.indexed, ← represents.texts_eq, List.mapIdx_eq_iff]
  intro i
  rw [List.getElem?_mapIdx, texts, List.getElem?_map, Option.map_map]
  rfl

theorem getElem?_of_find? (represents : t.Represents ledger pending)
    (found : t.find? text = some name) : ledger[name.index]? = some text := by
  rw [← represents.texts_eq, texts, List.getElem?_map]
  exact (represents.indexed.names_of_find? found).text_eq

theorem not_mem_of_find? (represents : t.Represents ledger pending) (absent : t.find? text = none) :
    text ∉ ledger := by
  rw [represents.indexed.find?_eq, Option.map_eq_none_iff, List.findIdx?_eq_none_iff] at absent
  rw [← represents.texts_eq]
  intro membership
  obtain ⟨entry, isEntry, rfl⟩ := List.mem_map.mp membership
  simpa using absent entry isEntry

theorem find?_iff (represents : t.Represents ledger pending) :
    t.find? text = some name ↔ ledger[name.index]? = some text := by
  constructor
  · exact represents.getElem?_of_find?
  · intro isText
    cases found : t.find? text with
    | none => exact absurd (List.mem_of_getElem? isText) (represents.not_mem_of_find? found)
    | some other =>
      have within := (List.getElem?_eq_some_iff.mp isText).1
      have index_eq := (List.getElem?_inj within represents.distinct).mp
        (isText.trans (represents.getElem?_of_find? found).symm)
      exact congrArg (fun i => some (Name.mk i)) index_eq.symm

theorem contains_iff (represents : t.Represents ledger pending) :
    t.contains text ↔ text ∈ ledger := by
  rw [contains, Option.isSome_iff_exists]
  constructor
  · rintro ⟨name, found⟩
    exact List.mem_of_getElem? (represents.getElem?_of_find? found)
  · intro membership
    cases found : t.find? text with
    | none => exact absurd membership (represents.not_mem_of_find? found)
    | some name => exact ⟨name, rfl⟩

theorem refuses_iff (represents : t.Represents ledger pending) :
    t.Refuses text ↔ limit ≤ ledger.length ∧ text ∉ ledger := by
  have count_eq : t.count = ledger.length := by
    rw [← represents.texts_eq]
    exact (List.length_map _).symm
  rw [Refuses, isFull, decide_eq_true_eq, count_eq, ← represents.contains_iff, contains,
    Option.not_isSome_iff_eq_none]

theorem add_of_mem (represents : t.Represents ledger pending) (known : text ∈ ledger) :
    (t.add text).1 = t := by
  obtain ⟨name, found⟩ := Option.isSome_iff_exists.mp (represents.contains_iff.mpr known)
  rw [NameTable.add, found]

theorem add_of_not_mem (represents : t.Represents ledger pending) (unknown : text ∉ ledger) :
    t.add text = t.insert text := by
  have absent : t.find? text = none :=
    Option.not_isSome_iff_eq_none.mp (mt represents.contains_iff.mp unknown)
  rw [NameTable.add, absent]

theorem insert (represents : t.Represents ledger pending) (unknown : text ∉ ledger) :
    (t.insert text).1.Represents (ledger ++ [text]) pending where
  texts_eq := by
    rw [← represents.texts_eq]
    exact List.map_append
  pending_eq := represents.pending_eq
  distinct := by
    apply List.nodup_append.mpr
    refine ⟨represents.distinct, List.pairwise_singleton _ _, ?_⟩
    rintro other isKnown _ isNew rfl
    exact unknown (List.mem_singleton.mp isNew ▸ isKnown)
  rooted := represents.rooted.grows (t.grows_insert text)
  size_eq := by
    simp only [List.flatten_append, List.length_append, ← represents.size_eq,
      List.flatten_singleton]
    exact (t.storage.stores_store text).size_eq
  stored := by
    intro entry membership
    have stores := t.storage.stores_store text
    rcases List.mem_append.mp membership with isOld | isNew
    · exact (represents.stored entry isOld).keeps stores.keeps
    · obtain rfl := List.mem_singleton.mp isNew
      exact .placed stores.holds

/-- Only a text that is new makes a difference to a table. -/
theorem add (represents : t.Represents ledger pending) (text : Bytes) :
    (t.add text).1.Represents (enter ledger text) pending := by
  by_cases known : text ∈ ledger
  · simpa only [represents.add_of_mem known, enter, if_pos known] using represents
  · simpa only [represents.add_of_not_mem known, enter, if_neg known] using represents.insert known

theorem addAll (represents : t.Represents ledger pending) (new : List Bytes) :
    (t.addAll new).Represents (new.foldl enter ledger) pending := by
  induction new generalizing t ledger with
  | nil => exact represents
  | cons text new ih => exact ih (represents.add text)

theorem setPending (represents : t.Represents ledger pending) (pending' : Bytes) :
    Represents { t with pending := pending' } ledger pending' :=
  { represents with
    pending_eq := rfl
    rooted := represents.rooted.grows (t.grows_setPending pending') }

theorem apply (represents : t.Represents ledger pending) (operation : NameOperation) :
    (t.apply operation).Represents ((operation.interned? pending).toList.foldl enter ledger)
      (operation.pendingAfter pending) := by
  have pending_eq := represents.pending_eq
  cases operation with
  | add text => exact represents.add text
  | intern text => exact represents.add text
  | find => exact represents
  | get => exact represents
  | contains => exact represents
  | pushPending text =>
    rw [NameTable.apply, pushPending, pending_eq]
    exact represents.setPending _
  | pushPendingCode code =>
    rw [NameTable.apply, pushPendingCode, NameOperation.pendingAfter]
    cases Utf8.scalar? code with
    | none =>
      simp only [Option.map_none, Option.getD_none, List.append_nil]
      exact represents
    | some c =>
      simp only [pushPending, pending_eq]
      exact represents.setPending _
  | clearPending => exact represents.setPending []
  | internPending =>
    rw [NameTable.apply, internPending_eq, pending_eq]
    exact (represents.add pending).setPending []

/-- After a history the table is that of the texts which the history interns. -/
theorem after (represents : t.Represents ledger pending) (history : List NameOperation) :
    (t.after history).Represents ((NameOperation.internedAll pending history).foldl enter ledger)
      (NameOperation.pendingAfterAll pending history) := by
  induction history generalizing t ledger pending with
  | nil => exact represents
  | cons operation history ih =>
    simp only [NameOperation.internedAll, List.foldl_append]
    exact ih (represents.apply operation)

end Represents

theorem represents_empty : empty.Represents [[]] [] where
  texts_eq := rfl
  pending_eq := rfl
  distinct := List.pairwise_singleton _ _
  rooted := rooted_empty
  size_eq := rfl
  stored := by
    intro entry membership
    obtain rfl := List.mem_singleton.mp membership
    exact .empty

theorem represents_predefined :
    predefined.Represents (predefinedNames.map Utf8.ofString) [] := by
  have represents := represents_empty.addAll (predefinedNames.map Utf8.ofString)
  have distinct : (predefinedNames.map Utf8.ofString).foldl enter [[]] =
      predefinedNames.map Utf8.ofString := by
    decide +kernel
  rwa [distinct] at represents

/-- What is in the ledger has been there or has come since. -/
theorem mem_foldl_enter (new : List Bytes) (ledger : List Bytes) (text : Bytes) :
    text ∈ new.foldl enter ledger ↔ text ∈ ledger ∨ text ∈ new := by
  induction new generalizing ledger with
  | nil => simp
  | cons first new ih =>
    have entered : text ∈ enter ledger first ↔ text ∈ ledger ∨ text = first := by
      rw [enter]
      split
      · next known =>
        refine ⟨.inl, ?_⟩
        rintro (membership | rfl)
        · exact membership
        · exact known
      · simp
    simp only [List.foldl_cons, ih, entered, List.mem_cons, or_assoc]

theorem grows_apply (t : NameTable) (operation : NameOperation) : t.Grows (t.apply operation) := by
  cases operation with
  | add text => exact grows_add t text
  | intern text => exact grows_add t text
  | find => exact .refl t
  | get => exact .refl t
  | contains => exact .refl t
  | pushPending => exact t.grows_setPending _
  | pushPendingCode code => exact grows_pushPendingCode t code
  | clearPending => exact t.grows_setPending _
  | internPending =>
    rw [apply, internPending_eq]
    exact (grows_add t t.pending).trans (grows_setPending _ _)

theorem grows_after (t : NameTable) (history : List NameOperation) : t.Grows (t.after history) := by
  induction history generalizing t with
  | nil => exact .refl t
  | cons operation history ih => exact (t.grows_apply operation).trans (ih _)

/-- The laws of an interner whose names are those of the texts in the ledger. -/
structure Lawful (t : NameTable) (ledger : List Bytes) (pending : Bytes) : Prop where
  texts_eq : t.texts = ledger
  pending_eq : t.pending = pending
  distinct : ledger.Nodup
  /-- The index is in step with the names. -/
  index_eq : t.index = ledger.mapIdx fun i text => (text, ⟨i⟩)
  count_eq : t.count = ledger.length
  size_eq : t.size = ledger.flatten.length
  find?_iff : ∀ text name, t.find? text = some name ↔ ledger[name.index]? = some text
  find?_nil : t.find? [] = some .empty
  contains_iff : ∀ text, t.contains text ↔ text ∈ ledger
  /-- A text that is known keeps its name, and one that is new has the next number. -/
  add_eq : ∀ text, (∀ name, t.find? text = some name → t.add text = (t, name)) ∧
    (text ∉ ledger → (t.add text).2 = ⟨ledger.length⟩)
  add_eq_iff : ∀ text text' between,
    (t.add text).2 = (((t.add text).1.after between).add text').2 ↔ text = text'
  get_add : ∀ text later, ((t.add text).1.after later).get (t.add text).2 = text
  /-- A name keeps its text and the place of its bytes, whatever comes later. -/
  keeps : ∀ (name : Name) entry, t.entries[name.index]? = some entry → ∀ later,
    (t.after later).get name = entry.text ∧
      (t.after later).entries[name.index]? = some entry ∧ entry.StoredIn (t.after later).storage
  internPending_eq : t.internPending = ((t.add pending).1.clearPending, (t.add pending).2)
  /-- A number is lacking only for a text that is new, and only when all have been given. -/
  add?_eq : ∀ text, t.add? text =
    if limit ≤ ledger.length ∧ text ∉ ledger then none else some (t.add text)
  internPending?_eq : t.internPending? =
    if limit ≤ ledger.length ∧ pending ∉ ledger then none else some t.internPending
  /-- An operation that interns nothing new makes no difference but to the pending text. -/
  quiet : ∀ operation, (∀ text, operation.interned? pending = some text → text ∈ ledger) →
    { t.apply operation with pending := pending } = t

namespace Represents

theorem quiet (represents : t.Represents ledger pending) {operation : NameOperation}
    (known : ∀ text, operation.interned? pending = some text → text ∈ ledger) :
    { t.apply operation with pending := pending } = t := by
  obtain rfl := represents.pending_eq
  cases operation with
  | add text =>
    rw [NameTable.apply, represents.add_of_mem (known text rfl)]
  | intern text =>
    rw [NameTable.apply, NameTable.intern, represents.add_of_mem (known text rfl)]
  | find => rfl
  | get => rfl
  | contains => rfl
  | pushPending => rfl
  | pushPendingCode code =>
    rw [NameTable.apply, pushPendingCode]
    cases Utf8.scalar? code <;> rfl
  | clearPending => rfl
  | internPending =>
    simp only [NameTable.apply, internPending_eq, represents.add_of_mem (known t.pending rfl)]
    rfl

theorem keeps (represents : t.Represents ledger pending) {name : Name} {entry : NameEntry}
    (isEntry : t.entries[name.index]? = some entry) (later : List NameOperation) :
    (t.after later).get name = entry.text ∧
      (t.after later).entries[name.index]? = some entry ∧
        entry.StoredIn (t.after later).storage := by
  have within := (List.getElem?_eq_some_iff.mp isEntry).1
  have kept : (t.after later).entries[name.index]? = some entry := by
    obtain ⟨added, entries_eq⟩ := (t.grows_after later).entries
    rw [← entries_eq, List.getElem?_append_left within]
    exact isEntry
  refine ⟨?_, kept, (represents.after later).stored entry (List.mem_of_getElem? kept)⟩
  rw [NameTable.get, kept]

theorem lawful (represents : t.Represents ledger pending) : t.Lawful ledger pending where
  texts_eq := represents.texts_eq
  pending_eq := represents.pending_eq
  distinct := represents.distinct
  index_eq := represents.index_eq
  count_eq := by
    rw [← represents.texts_eq]
    exact (List.length_map _).symm
  size_eq := represents.size_eq
  find?_iff _ _ := represents.find?_iff
  find?_nil := represents.rooted.find?_nil
  contains_iff _ := represents.contains_iff
  add_eq text := by
    constructor
    · intro name found
      rw [NameTable.add, found]
    · intro unknown
      rw [represents.add_of_not_mem unknown, ← represents.texts_eq]
      exact congrArg Name.mk (List.length_map _).symm
  add_eq_iff text text' between := by
    have earlier := (t.add text).1.grows_after between
    have indexed := ((t.grows_add text).trans earlier).indexed represents.indexed
    have names := (represents.indexed.names_add text).grows (earlier.trans (grows_add _ text'))
    exact names.eq_iff (indexed.names_add text')
  get_add text later := ((represents.indexed.names_add text).grows (grows_after _ later)).get_eq
  keeps _ _ isEntry later := represents.keeps isEntry later
  internPending_eq := by
    rw [← represents.pending_eq]
    exact t.internPending_eq
  add?_eq text := by simp only [NameTable.add?_eq, represents.refuses_iff]
  internPending?_eq := by
    simp only [NameTable.internPending?_eq, represents.pending_eq, represents.refuses_iff]
  quiet _ known := represents.quiet known

end Represents

end NameTable

end AssemblyLexer
