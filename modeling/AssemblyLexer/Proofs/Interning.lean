import AssemblyLexer.Proofs.NamePlacement

/-!
Interning in every history. The four parts of a table stay in step: its names, the index
that finds them by their texts, the arenas with their bytes, and the pending text. That is so
of the table whose texts are values, and of the one whose names and keys are ranges of arenas.
-/

set_option autoImplicit false

namespace AssemblyLexer

/-- The names and the keys of a table in place are ranges of its arenas, and these read as the texts
of the given table. -/
structure PlacedTable.InStep (placed : PlacedTable) (t : NameTable) : Prop where
  texts_eq : placed.texts = t.texts
  /-- The index has the range of each name as the key of its number. -/
  index_eq : placed.index = placed.ranges.mapIdx fun i range => (range, ⟨i⟩)
  find?_eq : ∀ text, placed.find? text = t.find? text
  pending_eq : placed.pending = t.pending
  size_eq : placed.chain.size = t.size
  arenas_eq : placed.chain.arenas.length = t.arenaCount

theorem PlacedTable.inStep_of_run {allocator : Allocator} {history : List NameOperation}
    {placed : PlacedTable} (finished : empty.run allocator history = .ok placed) :
    placed.InStep (NameTable.empty.after history) := by
  obtain ⟨mirrors, rfl⟩ := mirrors_empty.run holds_empty finished
  obtain ⟨_, _, _, holds⟩ := holds_empty.after allocator history
  exact ⟨mirrors.texts_eq, holds.index_eq, mirrors.find?_eq holds, mirrors.pending_eq,
    mirrors.chain.size_eq, mirrors.chain.count_eq⟩

namespace NameTable

theorem after_append (t : NameTable) (first second : List NameOperation) :
    t.after (first ++ second) = (t.after first).after second :=
  List.foldl_append

theorem after_predefining : empty.after NameOperation.predefining = predefined := by
  rw [after, NameOperation.predefining, List.foldl_map, predefined, addAll, List.foldl_map]
  rfl

/-- Whatever operations an empty table or the predefined one has gone through, its names are the
texts that were interned, in the order in which they first were, and it obeys the laws of an
interner from there on. A table in place that has gone through the same operations, and found memory
and numbers for them, is in step with it. -/
theorem lawful_after {start : NameTable} (isStart : start = .empty ∨ start = .predefined)
    (history : List NameOperation) :
    let interned := NameOperation.internedAll [] history
    (start.after history).Lawful (interned.foldl enter start.texts)
        (NameOperation.pendingAfterAll [] history) ∧
      (∀ text, (start.after history).contains text ↔ text ∈ start.texts ∨ text ∈ interned) ∧
      ∃ opening, (opening = [] ∨ opening = NameOperation.predefining) ∧ start = empty.after opening ∧
        ∀ allocator placed, PlacedTable.empty.run allocator (opening ++ history) = .ok placed →
          placed.InStep (start.after history) := by
  intro interned
  have lawful : (start.after history).Lawful (interned.foldl enter start.texts)
      (NameOperation.pendingAfterAll [] history) := by
    rcases isStart with isEmpty | isPredefined
    · rw [isEmpty]
      exact (represents_empty.after history).lawful
    · rw [isPredefined, represents_predefined.texts_eq]
      exact (represents_predefined.after history).lawful
  obtain ⟨opening, isOpening, start_eq⟩ :
      ∃ opening, (opening = [] ∨ opening = NameOperation.predefining) ∧ start = empty.after opening := by
    rcases isStart with isEmpty | isPredefined
    · exact ⟨[], .inl rfl, isEmpty⟩
    · exact ⟨_, .inr rfl, isPredefined.trans after_predefining.symm⟩
  refine ⟨lawful, ?_, opening, isOpening, start_eq, ?_⟩
  · intro text
    rw [lawful.contains_iff, mem_foldl_enter]
  · intro allocator placed finished
    rw [start_eq, ← after_append]
    exact PlacedTable.inStep_of_run finished

/-- A text that is pending is interned, another is added, and the first is interned again. -/
theorem lawful_after_pending :
    let history : List NameOperation := [.pushPending [0x61], .pushPendingCode 0xE9, .internPending,
      .add [0x62], .intern [0x61, 0xC3, 0xA9], .pushPending [0x62]]
    (empty.after history).Lawful [[], [0x61, 0xC3, 0xA9], [0x62]] [0x62] := by
  intro history
  have ledger_eq : (NameOperation.internedAll [] history).foldl enter empty.texts =
      [[], [0x61, 0xC3, 0xA9], [0x62]] := by
    decide
  have lawful := (lawful_after (.inl rfl) history).1
  rwa [ledger_eq] at lawful

end NameTable

end AssemblyLexer
