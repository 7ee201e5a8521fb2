import AssemblyLexer.Source.Indexed
import Mathlib.Data.List.Nodup
import Mathlib.Data.List.Induction

/-!
Registries of source files. The files, the numbers by path and the counter agree after any
history: a path has its place among the distinct normal forms as its number, counted from one,
as long as numbers are left.
-/

set_option autoImplicit false

namespace AssemblyLexer

/-- Changing what stands at a place changes what is seen of it. -/
theorem map_modify {α β : Type} {f : α → α} {g : α → β} {h : β → β} (commute : ∀ x, g (f x) = h (g x))
    (list : List α) (place : Nat) : (list.modify place f).map g = (list.map g).modify place h := by
  apply List.ext_getElem?
  intro place'
  simp only [List.getElem?_map, List.getElem?_modify]
  cases list[place']? with
  | none => rfl
  | some x =>
    by_cases same : place = place'
    · simp [same, commute]
    · simp [same]

theorem map_modify_of_eq {α β : Type} {f : α → α} {g : α → β} (unseen : ∀ x, g (f x) = g x)
    (list : List α) (place : Nat) : (list.modify place f).map g = list.map g := by
  rw [map_modify (h := fun x => x) unseen]
  exact List.modify_id ..

namespace RegistryOperation

variable {normalize : Bytes → Bytes} {history : List RegistryOperation} {path : Bytes}

theorem registered_append (normalize : Bytes → Bytes) (before later : List RegistryOperation) :
    registered normalize before <+: registered normalize (before ++ later) := by
  rw [registered, registered, List.filterMap_append, List.map_append, List.eraseDups_append]
  exact List.prefix_append _ _

theorem registered_register (history : List RegistryOperation) (path : Bytes) :
    registered normalize (history ++ [.register path]) =
      if normalize path ∈ registered normalize history then registered normalize history
      else registered normalize history ++ [normalize path] := by
  have last_eq : [register path].filterMap path? = [path] := rfl
  simp only [registered, List.filterMap_append, List.map_append, List.eraseDups_append,
    List.mem_eraseDups, last_eq]
  by_cases known : normalize path ∈ (history.filterMap path?).map normalize
  · simp only [if_pos known]
    simp [List.removeAll, known]
  · simp only [if_neg known]
    simp [List.removeAll, known, List.eraseDups_cons]

theorem registered_setContents (history : List RegistryOperation) (id : UInt32) (contents : Bytes) :
    registered normalize (history ++ [.setContents id contents]) = registered normalize history := by
  have last_eq : [setContents id contents].filterMap path? = [] := rfl
  rw [registered, List.filterMap_append, last_eq, List.append_nil, registered]

theorem mem_registered_iff :
    path ∈ registered normalize history ↔
      ∃ before known later, history = before ++ .register known :: later ∧ normalize known = path := by
  simp only [registered, List.mem_eraseDups, List.mem_map, List.mem_filterMap]
  constructor
  · rintro ⟨known, ⟨operation, membership, isPath⟩, isNormal⟩
    obtain ⟨before, later, split⟩ := List.append_of_mem membership
    cases operation with
    | register path =>
      cases isPath
      exact ⟨before, known, later, split, isNormal⟩
    | setContents id contents => cases isPath
  · rintro ⟨before, known, later, rfl, isNormal⟩
    exact ⟨known, ⟨.register known, by simp, rfl⟩, isNormal⟩

end RegistryOperation

namespace IndexedRegistry

open RegistryOperation

variable {normalize : Bytes → Bytes} {r : IndexedRegistry} {history : List RegistryOperation}
  {paths : List Bytes} {path : Bytes} {id other : UInt32} {place : Nat} {contents : Bytes}

theorem place?_eq_some_iff :
    r.place? id = some place ↔ id.toNat = place + 1 ∧ place < r.entries.length := by
  have zero_iff : id = 0 ↔ id.toNat = 0 := UInt32.toNat_inj.symm
  simp only [place?, zero_iff]
  split
  · simp only [reduceCtorEq, false_iff]
    omega
  · simp only [Option.some.injEq]
    omega

theorem setContents_eq (isPlace : r.place? id = some place) (contents : Bytes) :
    r.setContents id contents = (contents, { r with
      entries := r.entries.modify place fun entry => { entry with contents := contents } }) := by
  rw [setContents, isPlace]

theorem setContents_eq_none (noPlace : r.place? id = none) :
    r.setContents id contents = ([], r) := by
  rw [setContents, noPlace]

theorem place?_setContents : (r.setContents id contents).2.place? other = r.place? other := by
  cases isPlace : r.place? id with
  | none => rw [setContents_eq_none isPlace]
  | some place =>
    rw [setContents_eq isPlace]
    simp only [place?, List.length_modify]

theorem file?_setContents (isPlace : r.place? id = some place) :
    (r.setContents id contents).2.file? other =
      if other = id then (r.file? id).map fun entry => { entry with contents := contents }
      else r.file? other := by
  by_cases same : other = id
  · cases same
    rw [if_pos rfl, file?, place?_setContents, isPlace, setContents_eq isPlace]
    simp [file?, isPlace]
  · rw [if_neg same, file?, place?_setContents, file?]
    cases isOther : r.place? other with
    | none => rfl
    | some place' =>
      have id_eq := (place?_eq_some_iff.mp isPlace).1
      have other_eq := (place?_eq_some_iff.mp isOther).1
      have differs : place ≠ place' := by
        rintro rfl
        exact same (UInt32.toNat_inj.mp (other_eq.trans id_eq.symm))
      simp [setContents_eq isPlace, differs]

theorem number?_added (entries : List FileEntry) (nextId : UInt64) (other : Bytes) :
    number? ⟨entries, (path, id) :: r.numbers, nextId⟩ other =
      if other = path then some id else r.number? other := by
  rw [number?, List.lookup_cons]
  by_cases same : other = path
  · rw [if_pos same, same, beq_self_eq_true]
  · rw [if_neg same, beq_false_of_ne same, number?]

theorem toUInt32_eq_ofNat {counter : UInt64} {next : Nat} (next_eq : counter.toNat = next) :
    counter.toUInt32 = .ofNat next := by
  rw [← UInt32.toNat_inj, UInt64.toNat_toUInt32, next_eq]
  exact (UInt32.toNat_ofNat' ..).symm

/-- The counter cannot come round while it still gives numbers. -/
theorem toNat_add_one {counter : UInt64} (room : ¬0xFFFFFFFF < counter) :
    (counter + 1).toNat = counter.toNat + 1 := by
  have small : counter.toNat ≤ 0xFFFFFFFF := UInt64.not_lt.mp room
  rw [UInt64.toNat_add, UInt64.toNat_one]
  apply Nat.mod_eq_of_lt
  omega

/-- Files, numbers and counter of a registry for paths in normal form, in the order in which these
were registered. -/
structure Holds (r : IndexedRegistry) (paths : List Bytes) : Prop where
  paths_eq : r.entries.map FileEntry.path = paths
  number?_eq : ∀ path, r.number? path =
    if path ∈ paths then some (.ofNat (paths.idxOf path + 1)) else none
  nextId_eq : r.nextId.toNat = paths.length + 1
  nodup : paths.Nodup

theorem holds_empty : empty.Holds [] :=
  ⟨rfl, fun _ => rfl, rfl, List.nodup_nil⟩

theorem Holds.length_eq (holds : r.Holds paths) : r.entries.length = paths.length := by
  rw [← holds.paths_eq, List.length_map]

theorem Holds.register_known (holds : r.Holds paths) (known : normalize path ∈ paths) :
    r.register normalize path = ⟨.ofNat (paths.idxOf (normalize path) + 1), [], r⟩ := by
  have number?_eq := holds.number?_eq (normalize path)
  rw [if_pos known] at number?_eq
  rw [register, number?_eq]

theorem Holds.exhausted_iff (holds : r.Holds paths) :
    0xFFFFFFFF < r.nextId ↔ Registry.greatestId ≤ paths.length := by
  rw [UInt64.lt_iff_toNat_lt, holds.nextId_eq]
  exact Nat.lt_succ_iff

theorem Holds.register_refused (holds : r.Holds paths) (unknown : normalize path ∉ paths)
    (full : Registry.greatestId ≤ paths.length) :
    r.register normalize path = ⟨0, [LoadError.noIdentifier.diagnostic], r⟩ := by
  have number?_eq := holds.number?_eq (normalize path)
  rw [if_neg unknown] at number?_eq
  simp only [register, number?_eq, if_pos (holds.exhausted_iff.mpr full)]

theorem Holds.append (holds : r.Holds paths) (unknown : path ∉ paths) (room : ¬0xFFFFFFFF < r.nextId) :
    Holds ⟨r.entries ++ [⟨path, []⟩], (path, r.nextId.toUInt32) :: r.numbers, r.nextId + 1⟩
      (paths ++ [path]) := by
  refine ⟨?_, ?_, ?_, ?_⟩
  · simp [holds.paths_eq]
  · intro other
    rw [number?_added, holds.number?_eq other, toUInt32_eq_ofNat holds.nextId_eq]
    by_cases same : other = path
    · simp [same, List.idxOf_append_of_notMem unknown]
    · by_cases known : other ∈ paths
      · simp [same, known, List.idxOf_append_of_mem known]
      · simp [same, known]
  · rw [toNat_add_one room, holds.nextId_eq, List.length_append, List.length_singleton]
  · apply List.nodup_append.mpr
    refine ⟨holds.nodup, List.nodup_singleton _, ?_⟩
    intro known membership added isAdded same
    cases List.mem_singleton.mp isAdded
    exact unknown (same ▸ membership)

theorem Holds.register_new (holds : r.Holds paths) (unknown : normalize path ∉ paths)
    (room : paths.length < Registry.greatestId) :
    (r.register normalize path).id = .ofNat (paths.length + 1) ∧
      (r.register normalize path).reported = [] ∧
        (r.register normalize path).registry.Holds (paths ++ [normalize path]) := by
  have number?_eq := holds.number?_eq (normalize path)
  rw [if_neg unknown] at number?_eq
  have notFull := holds.exhausted_iff.not.mpr (Nat.not_le.mpr room)
  simp only [register, number?_eq, if_neg notFull]
  exact ⟨toUInt32_eq_ofNat holds.nextId_eq, trivial, holds.append unknown notFull⟩

theorem Holds.setContents (holds : r.Holds paths) (number : UInt32) (contents : Bytes) :
    (r.setContents number contents).2.Holds paths := by
  cases isPlace : r.place? number with
  | none =>
    rw [setContents_eq_none isPlace]
    exact holds
  | some place =>
    rw [setContents_eq isPlace]
    refine ⟨?_, holds.number?_eq, holds.nextId_eq, holds.nodup⟩
    rw [← holds.paths_eq]
    apply map_modify_of_eq
    intro entry
    rfl

/-- A registry comes to hold a path with the registration of it if a number is left. -/
theorem Holds.apply (holds : r.Holds ((registered normalize history).take Registry.greatestId))
    (operation : RegistryOperation) :
    (r.apply normalize operation).Holds
      ((registered normalize (history ++ [operation])).take Registry.greatestId) := by
  cases operation with
  | setContents id contents =>
    rw [registered_setContents]
    exact holds.setContents id contents
  | register path =>
    rw [IndexedRegistry.apply]
    by_cases room : (registered normalize history).length < Registry.greatestId
    · rw [List.take_of_length_le (Nat.le_of_lt room)] at holds
      rw [registered_register]
      by_cases known : normalize path ∈ registered normalize history
      · rw [if_pos known, holds.register_known known, List.take_of_length_le (Nat.le_of_lt room)]
        exact holds
      · obtain ⟨-, -, holds'⟩ := holds.register_new known room
        rw [if_neg known, List.take_of_length_le]
        · exact holds'
        · rw [List.length_append]
          exact room
    · have full := Nat.not_lt.mp room
      obtain ⟨rest, append_eq⟩ := registered_append normalize history [.register path]
      rw [← append_eq, List.take_append_of_le_length full]
      by_cases known : normalize path ∈ (registered normalize history).take Registry.greatestId
      · rw [holds.register_known known]
        exact holds
      · rw [holds.register_refused known]
        · exact holds
        · exact Nat.le_of_eq (List.length_take_of_le full).symm

theorem holds_after (normalize : Bytes → Bytes) (history : List RegistryOperation) :
    (empty.after normalize history).Holds
      ((registered normalize history).take Registry.greatestId) := by
  induction history using List.reverseRecOn with
  | nil => exact holds_empty
  | append_singleton history operation ih =>
    rw [after, List.foldl_append]
    exact ih.apply operation

theorem holds_after_of_length_lt (room : (registered normalize history).length < UInt32.size) :
    (empty.after normalize history).Holds (registered normalize history) := by
  have le : (registered normalize history).length ≤ Registry.greatestId := Nat.le_pred_of_lt room
  have holds := holds_after normalize history
  rwa [List.take_of_length_le le] at holds

theorem Holds.place?_eq (holds : r.Holds paths) (known : path ∈ paths)
    (id_eq : id.toNat = paths.idxOf path + 1) : r.place? id = some (paths.idxOf path) := by
  rw [place?_eq_some_iff, holds.length_eq]
  exact ⟨id_eq, List.idxOf_lt_length_iff.mpr known⟩

theorem Holds.path_eq (holds : r.Holds paths) (known : path ∈ paths)
    (id_eq : id.toNat = paths.idxOf path + 1) : r.path id = path := by
  have entry_path_eq : (r.file? id).map FileEntry.path = some path := by
    rw [file?, holds.place?_eq known id_eq, Option.bind_eq_bind, Option.bind_some,
      ← List.getElem?_map, holds.paths_eq]
    exact List.getElem?_idxOf known
  rw [IndexedRegistry.path, entry_path_eq, Option.getD_some]

/-- A registration gives a path its place among the normal forms registered so far. -/
theorem register_after {before : List RegistryOperation}
    (room : (registered normalize (before ++ [.register path])).length < UInt32.size) :
    ((empty.after normalize before).register normalize path).id =
        .ofNat ((registered normalize (before ++ [.register path])).idxOf (normalize path) + 1) ∧
      ((empty.after normalize before).register normalize path).reported = [] := by
  have shorter := (registered_append normalize before [.register path]).length_le
  have holds := holds_after_of_length_lt (Nat.lt_of_le_of_lt shorter room)
  rw [registered_register] at room ⊢
  by_cases known : normalize path ∈ registered normalize before
  · rw [if_pos known, holds.register_known known]
    exact ⟨rfl, rfl⟩
  · rw [if_neg known, List.length_append] at room
    obtain ⟨id_eq, reported_eq, -⟩ := holds.register_new known (Nat.lt_pred_of_succ_lt room)
    rw [if_neg known, List.idxOf_append_of_notMem known, id_eq, reported_eq]
    simp

/-- The registration of `path` somewhere in `history` came to `result`. -/
def RegisteredAs (normalize : Bytes → Bytes) (history : List RegistryOperation) (path : Bytes)
    (result : Registration) : Prop :=
  ∃ before later, history = before ++ .register path :: later ∧
    (empty.after normalize before).register normalize path = result

theorem RegisteredAs.mem {result : Registration}
    (isRegistered : RegisteredAs normalize history path result) :
    normalize path ∈ registered normalize history := by
  obtain ⟨before, later, rfl, -⟩ := isRegistered
  exact mem_registered_iff.mpr ⟨before, path, later, rfl, rfl⟩

/-- A registration gives the number that the path has in the end. -/
theorem RegisteredAs.id_eq {result : Registration}
    (isRegistered : RegisteredAs normalize history path result)
    (room : (registered normalize history).length < UInt32.size) :
    result.id.toNat = (registered normalize history).idxOf (normalize path) + 1 ∧
      result.reported = [] := by
  have inside := List.idxOf_lt_length_iff.mpr isRegistered.mem
  obtain ⟨before, later, rfl, rfl⟩ := isRegistered
  have known : normalize path ∈ registered normalize (before ++ [.register path]) :=
    mem_registered_iff.mpr ⟨before, path, [], rfl, rfl⟩
  rw [List.append_cons] at room inside ⊢
  obtain ⟨rest, append_eq⟩ := registered_append normalize (before ++ [.register path]) later
  rw [← append_eq, List.idxOf_append_of_mem known] at inside ⊢
  rw [← append_eq, List.length_append] at room
  rw [List.length_append] at inside
  obtain ⟨id_eq, reported_eq⟩ := register_after (Nat.lt_of_add_right_lt room)
  rw [id_eq]
  exact ⟨UInt32.toNat_ofNat_of_lt' (Nat.lt_of_le_of_lt inside room), reported_eq⟩

theorem Holds.path_setContents (holds : r.Holds paths) (number : UInt32) (contents : Bytes) :
    (r.setContents number contents).2.path id = r.path id := by
  have paths_eq := (holds.setContents number contents).paths_eq.trans holds.paths_eq.symm
  rw [path, path, file?, file?, place?_setContents]
  cases r.place? id with
  | none => rfl
  | some place =>
    have path_eq := congrArg (fun paths => paths[place]?) paths_eq
    simp only [List.getElem?_map] at path_eq
    exact congrArg (fun path => path.getD []) path_eq

theorem contents_setContents (isPlace : r.place? id = some place) :
    (r.setContents id contents).2.contents other =
      if other = id then contents else r.contents other := by
  rw [IndexedRegistry.contents, file?_setContents isPlace]
  by_cases same : other = id
  · obtain ⟨-, inside⟩ := place?_eq_some_iff.mp isPlace
    simp [same, file?, isPlace, inside]
  · rw [if_neg same, if_neg same, IndexedRegistry.contents]

theorem Holds.issued_of_place? (holds : r.Holds (registered normalize history))
    (room : (registered normalize history).length < UInt32.size)
    (isPlace : r.place? id = some place) :
    ∃ path result, RegisteredAs normalize history path result ∧ result.id = id := by
  obtain ⟨id_eq, inside⟩ := place?_eq_some_iff.mp isPlace
  rw [holds.length_eq] at inside
  obtain ⟨before, path, later, rfl, normal_eq⟩ := mem_registered_iff.mp (List.getElem_mem inside)
  have isRegistered : RegisteredAs normalize (before ++ .register path :: later) path _ :=
    ⟨before, later, rfl, rfl⟩
  refine ⟨path, _, isRegistered, ?_⟩
  rw [← UInt32.toNat_inj, (isRegistered.id_eq room).1, normal_eq, holds.nodup.idxOf_getElem, id_eq]

/-- What a history with few enough paths has made of a registry. -/
structure Consistent (normalize : Bytes → Bytes) (history : List RegistryOperation)
    (r : IndexedRegistry) : Prop where
  fileCount_eq : r.fileCount = (registered normalize history).length
  numbered : ∀ path result, RegisteredAs normalize history path result →
    result.id.toNat = (registered normalize history).idxOf (normalize path) + 1 ∧
      result.reported = [] ∧ r.path result.id = normalize path
  same_iff : ∀ path result path' result', RegisteredAs normalize history path result →
    RegisteredAs normalize history path' result' →
      (result.id = result'.id ↔ normalize path = normalize path')
  setContents_issued : ∀ path result contents, RegisteredAs normalize history path result →
    let changed := r.setContents result.id contents
    changed.1 = contents ∧ changed.2.numbers = r.numbers ∧ changed.2.nextId = r.nextId ∧
      changed.2.fileCount = r.fileCount ∧
        ∀ other, changed.2.path other = r.path other ∧
          changed.2.contents other = if other = result.id then contents else r.contents other
  setContents_unissued : ∀ id contents,
    (∀ path result, RegisteredAs normalize history path result → result.id ≠ id) →
      r.setContents id contents = ([], r)
  setContents_zero : ∀ contents, r.setContents 0 contents = ([], r)

theorem consistent_after (room : (registered normalize history).length < UInt32.size) :
    Consistent normalize history (empty.after normalize history) := by
  have holds := holds_after_of_length_lt room
  refine ⟨holds.length_eq, ?numbered, ?same_iff, ?setContents_issued, ?setContents_unissued,
    fun contents => setContents_eq_none rfl⟩
  case numbered =>
    intro path result isRegistered
    obtain ⟨id_eq, reported_eq⟩ := isRegistered.id_eq room
    exact ⟨id_eq, reported_eq, holds.path_eq isRegistered.mem id_eq⟩
  case same_iff =>
    intro path result path' result' isRegistered isRegistered'
    rw [← UInt32.toNat_inj, (isRegistered.id_eq room).1, (isRegistered'.id_eq room).1,
      Nat.add_right_cancel_iff]
    exact List.idxOf_inj isRegistered.mem
  case setContents_issued =>
    intro path result contents isRegistered
    have isPlace := holds.place?_eq isRegistered.mem (isRegistered.id_eq room).1
    have isChange := setContents_eq isPlace contents
    refine ⟨congrArg Prod.fst isChange, congrArg (·.2.numbers) isChange,
      congrArg (·.2.nextId) isChange, ?_, ?_⟩
    · exact (holds.setContents result.id contents).length_eq.trans holds.length_eq.symm
    · intro other
      exact ⟨holds.path_setContents .., contents_setContents isPlace⟩
  case setContents_unissued =>
    intro id contents unissued
    cases isPlace : (empty.after normalize history).place? id with
    | none => exact setContents_eq_none isPlace
    | some place =>
      obtain ⟨path, result, isRegistered, id_eq⟩ := holds.issued_of_place? room isPlace
      exact absurd id_eq (unissued path result isRegistered)

theorem number?_apply (known : r.number? path = some id) (operation : RegistryOperation) :
    (r.apply normalize operation).number? path = some id := by
  cases operation with
  | setContents id contents =>
    rw [apply, setContents]
    split
    · exact known
    · exact known
  | register added =>
    rw [apply, register]
    cases isNumber : r.number? (normalize added) with
    | some id' => exact known
    | none =>
      have differs : path ≠ normalize added := by
        rintro rfl
        cases isNumber.symm.trans known
      simp only
      split
      · exact known
      · rw [number?_added, if_neg differs]
        exact known

/-- The number of a path outlives what happens to the registry. -/
theorem number?_after (known : r.number? path = some id) (later : List RegistryOperation) :
    (r.after normalize later).number? path = some id := by
  induction later generalizing r with
  | nil => exact known
  | cons operation later ih => exact ih (number?_apply known operation)

theorem number?_register (accepted : (r.register normalize path).reported = []) :
    (r.register normalize path).registry.number? (normalize path) =
      some (r.register normalize path).id := by
  rw [register] at accepted ⊢
  cases isNumber : r.number? (normalize path) with
  | some id => exact isNumber
  | none =>
    simp only [isNumber] at accepted ⊢
    split at accepted
    · cases accepted
    · next room =>
      rw [if_neg room, number?_added, if_pos rfl]

end IndexedRegistry

namespace Registry

variable {s : Registry} {r : IndexedRegistry} {path : Bytes}

theorem find?_path_eq_lookup (files : List SourceFile) (path : Bytes) :
    (files.find? fun file => file.path == path).map SourceFile.id =
      (files.map fun file => (file.path, file.id)).lookup path := by
  induction files with
  | nil => rfl
  | cons file files ih =>
    rw [List.map_cons, List.lookup_cons, List.find?_cons, Bool.beq_comm]
    cases path == file.path with
    | true => rfl
    | false => exact ih

/-- A registry that finds paths among the files is one that finds them by a map. -/
structure Mirrors (s : Registry) (r : IndexedRegistry) : Prop where
  entries_eq : r.entries = s.files.map fun file => ⟨file.path, file.contents⟩
  number?_eq : ∀ path,
    r.number? path = (s.files.map fun file => (file.path, file.id)).lookup path
  nextId_eq : r.nextId.toNat = s.nextId

theorem mirrors_empty : empty.Mirrors .empty :=
  ⟨rfl, fun _ => rfl, rfl⟩

theorem Mirrors.append (mirrors : s.Mirrors r) (unknown : r.number? path = none)
    (room : ¬0xFFFFFFFF < r.nextId) :
    Mirrors ⟨s.files ++ [⟨path, .ofNat s.nextId, []⟩], s.nextId + 1⟩
      ⟨r.entries ++ [⟨path, []⟩], (path, r.nextId.toUInt32) :: r.numbers, r.nextId + 1⟩ := by
  refine ⟨?_, ?_, ?_⟩
  · simp [mirrors.entries_eq]
  · intro other
    rw [IndexedRegistry.number?_added, List.map_append, List.lookup_append, ← mirrors.number?_eq,
      IndexedRegistry.toUInt32_eq_ofNat mirrors.nextId_eq]
    by_cases same : other = path
    · simp [same, unknown]
    · simp [same, List.lookup_cons, beq_false_of_ne same]
  · rw [IndexedRegistry.toNat_add_one room, mirrors.nextId_eq]

theorem Mirrors.register (mirrors : s.Mirrors r) (path : Bytes) :
    (s.register? path).map Prod.fst =
        (if (r.register Path.normalize path).reported = [] then
          some (r.register Path.normalize path).id else none) ∧
      (s.apply (.register path)).Mirrors (r.register Path.normalize path).registry := by
  have number?_eq := mirrors.number?_eq (Path.normalize path)
  rw [← find?_path_eq_lookup] at number?_eq
  have exhausted_iff : 0xFFFFFFFF < r.nextId ↔ greatestId < s.nextId := by
    rw [UInt64.lt_iff_toNat_lt, mirrors.nextId_eq]
    rfl
  rw [apply, register?, IndexedRegistry.register, number?_eq]
  cases found : s.files.find? fun file => file.path == Path.normalize path with
  | some file => exact ⟨rfl, mirrors⟩
  | none =>
    by_cases full : greatestId < s.nextId
    · simp only [Option.map_none, if_pos full, if_pos (exhausted_iff.mpr full)]
      exact ⟨rfl, mirrors⟩
    · have room := exhausted_iff.not.mpr full
      simp only [Option.map_none, if_neg full, if_neg room]
      rw [found] at number?_eq
      have id_eq := IndexedRegistry.toUInt32_eq_ofNat mirrors.nextId_eq
      exact ⟨congrArg some id_eq.symm, mirrors.append number?_eq room⟩

theorem Mirrors.place?_eq (mirrors : s.Mirrors r) (id : UInt32) : r.place? id = s.place? id := by
  rw [IndexedRegistry.place?, mirrors.entries_eq, List.length_map]
  rfl

theorem Mirrors.setContents (mirrors : s.Mirrors r) (id : UInt32) (contents : Bytes) :
    (s.setContents id contents).Mirrors (r.setContents id contents).2 := by
  rw [Registry.setContents, IndexedRegistry.setContents, mirrors.place?_eq]
  cases s.place? id with
  | none => exact mirrors
  | some place =>
    refine ⟨?_, ?_, mirrors.nextId_eq⟩
    · simp only [mirrors.entries_eq]
      symm
      apply map_modify
      intro file
      rfl
    · intro path
      have numbers_eq : ((s.files.modify place fun file => { file with contents := contents }).map
          fun file => (file.path, file.id)) = s.files.map fun file => (file.path, file.id) := by
        apply map_modify_of_eq
        intro file
        rfl
      rw [numbers_eq]
      exact mirrors.number?_eq path

theorem mirrors_after (history : List RegistryOperation) :
    (empty.after history).Mirrors (.after Path.normalize .empty history) := by
  induction history using List.reverseRecOn with
  | nil => exact mirrors_empty
  | append_singleton history operation ih =>
    rw [after, IndexedRegistry.after, List.foldl_append, List.foldl_append]
    cases operation with
    | register path => exact (ih.register path).2
    | setContents id contents => exact ih.setContents id contents

theorem Mirrors.file?_eq (mirrors : s.Mirrors r) (id : UInt32) :
    r.file? id = (s.file? id).map fun file => ⟨file.path, file.contents⟩ := by
  rw [IndexedRegistry.file?, mirrors.place?_eq, mirrors.entries_eq, file?]
  cases s.place? id with
  | none => rfl
  | some place => exact List.getElem?_map ..

/-- What is asked of either registry has the same answer. -/
theorem Mirrors.answers (mirrors : s.Mirrors r) (id : UInt32) :
    s.path id = r.path id ∧ s.contents id = r.contents id := by
  rw [IndexedRegistry.path, IndexedRegistry.contents, mirrors.file?_eq, path, contents]
  cases s.file? id with
  | none => exact ⟨rfl, rfl⟩
  | some file => exact ⟨rfl, rfl⟩

end Registry

namespace IndexedRegistry

open RegistryOperation

/-- As long as there are numbers for all of the paths, a registry stays consistent over any history.
Without a number left it refuses new paths and nothing else: a path that was once accepted has its
number for ever. With the normal form of paths all of this holds of the registry of the program. -/
theorem registrations_consistent (normalize : Bytes → Bytes) :
    (∀ history, (registered normalize history).length < UInt32.size →
      Consistent normalize history (empty.after normalize history)) ∧
    (∀ history, 0xFFFFFFFF < (empty.after normalize history).nextId ↔
      Registry.greatestId ≤ (registered normalize history).length) ∧
    (∀ (r : IndexedRegistry) path, 0xFFFFFFFF < r.nextId →
      (∀ id, r.number? (normalize path) = some id → r.register normalize path = ⟨id, [], r⟩) ∧
        (r.number? (normalize path) = none →
          r.register normalize path = ⟨0, [LoadError.noIdentifier.diagnostic], r⟩)) ∧
    (∀ (r : IndexedRegistry) path, (r.register normalize path).reported = [] →
      ∀ later nextId again, normalize again = normalize path →
        let known := { (r.register normalize path).registry.after normalize later with
          nextId := nextId }
        known.register normalize again = ⟨(r.register normalize path).id, [], known⟩) ∧
    ∀ history,
      let s := Registry.empty.after history
      let r := empty.after Path.normalize history
      s.fileCount = r.fileCount ∧
        (∀ id, s.path id = r.path id ∧ s.contents id = r.contents id) ∧
          ∀ path, (s.register? path).map Prod.fst =
            if (r.register Path.normalize path).reported = [] then
              some (r.register Path.normalize path).id else none := by
  refine ⟨fun _ => consistent_after, ?counter, ?exhausted, ?accepted, ?program⟩
  case counter =>
    intro history
    rw [(holds_after normalize history).exhausted_iff, List.length_take]
    exact Nat.le_min.trans (and_iff_right (Nat.le_refl _))
  case exhausted =>
    intro r path exhausted
    refine ⟨fun id known => ?_, fun unknown => ?_⟩
    · rw [register, known]
    · simp only [register, unknown, if_pos exhausted]
  case accepted =>
    intro r path accepted later nextId again same known
    have isNumber : known.number? (normalize again) = some (r.register normalize path).id := by
      rw [same]
      exact number?_after (number?_register accepted) later
    rw [register, isNumber]
  case program =>
    intro history s r
    have mirrors := Registry.mirrors_after history
    refine ⟨?_, mirrors.answers, fun path => (mirrors.register path).1⟩
    rw [fileCount, mirrors.entries_eq, List.length_map, Registry.fileCount]

/-- Two files under three names, one of them with contents; then the numbers are used up. -/
theorem registrations_consistent_two_files :
    let first := Utf8.ofString "./src/../lib/a.s"
    let again := Utf8.ofString "lib//./a.s"
    let text := Utf8.ofString "nop"
    let history : List RegistryOperation :=
      [.register first, .register (Utf8.ofString "b.s"), .setContents 2 text, .register again]
    let r := empty.after Path.normalize history
    let full : IndexedRegistry := { r with nextId := 0x100000000 }
    r.fileCount = 2 ∧ r.path 1 = Utf8.ofString "lib/a.s" ∧
      (r.setContents 1 []).2.contents 2 = text ∧ r.setContents 3 text = ([], r) ∧
        full.register Path.normalize (Utf8.ofString "c.s") =
            ⟨0, [LoadError.noIdentifier.diagnostic], full⟩ ∧
          full.register Path.normalize again = ⟨1, [], full⟩ := by
  intro first again text history r full
  obtain ⟨consistent, -, exhausted, accepted, -⟩ := registrations_consistent Path.normalize
  have two : (registered Path.normalize history).length = 2 := by decide +kernel
  have tracks := consistent history (by rw [two]; decide)
  have isFirst : RegisteredAs Path.normalize history first (empty.register Path.normalize first) :=
    ⟨[], history.tail, rfl, rfl⟩
  have first_eq : (empty.register Path.normalize first).id = 1 := by decide +kernel
  refine ⟨tracks.fileCount_eq.trans two, ?path, ?issued, ?unissued, ?refused, ?known⟩
  case path =>
    have path_eq := (tracks.numbered first _ isFirst).2.2
    rw [first_eq] at path_eq
    exact path_eq.trans (by decide +kernel)
  case issued =>
    have changed := (tracks.setContents_issued first _ [] isFirst).2.2.2.2 2
    rw [first_eq] at changed
    exact changed.2.trans (by decide +kernel)
  case unissued =>
    apply tracks.setContents_unissued
    intro path result isRegistered id_eq
    have number_eq := (tracks.numbered path result isRegistered).1
    have inside := List.idxOf_lt_length_iff.mpr isRegistered.mem
    rw [id_eq] at number_eq
    have three : (3 : UInt32).toNat = 3 := rfl
    omega
  case refused =>
    have isUnknown : full.number? (Path.normalize (Utf8.ofString "c.s")) = none := by decide +kernel
    exact (exhausted full (Utf8.ofString "c.s") (by decide +kernel)).2 isUnknown
  case known =>
    have same : Path.normalize again = Path.normalize first := by decide +kernel
    have known := accepted empty first rfl history.tail 0x100000000 again same
    rwa [first_eq] at known

end IndexedRegistry

end AssemblyLexer
