import AssemblyLexer.Proofs.NameHistory
import AssemblyLexer.Proofs.SegmentName
import AssemblyLexer.Proofs.Sharing
import Mathlib.Data.List.Perm.Basic

/-!
Room for names. A session grants the names of steps when it has a number for each of
them that is new. It does if the names are all among those of a table that keeps to the
numbers there are, and if the steps are those of a lexer over a short source, in which
there are not as many different names as there are numbers.
-/

set_option autoImplicit false

namespace AssemblyLexer

/-- Most texts that are all different have more than one byte, so that they cannot be many in a few
bytes. -/
theorem two_mul_length_le {texts : List Bytes} (distinct : texts.Nodup) :
    2 * texts.length ≤ texts.flatten.length + 514 := by
  have weighed : ∀ texts : List Bytes, 2 * texts.length ≤
      texts.flatten.length + 2 * (texts.filter fun text => text.length < 2).length := by
    intro texts
    induction texts with
    | nil => exact Nat.le_refl 0
    | cons text texts ih =>
      rw [List.filter_cons, List.flatten_cons, List.length_append, List.length_cons]
      split
      · rw [List.length_cons]
        omega
      · next long =>
        rw [decide_eq_true_eq] at long
        omega
  let few : List Bytes := [] :: (List.finRange 256).map fun i => [UInt8.ofFin i]
  have within : texts.filter (fun text => text.length < 2) ⊆ few := by
    intro text membership
    obtain ⟨_, isShort⟩ := List.mem_filter.mp membership
    rw [decide_eq_true_eq] at isShort
    cases text with
    | nil => exact List.mem_cons_self
    | cons b text =>
      obtain rfl : text = [] :=
        List.eq_nil_of_length_eq_zero (Nat.lt_one_iff.mp (Nat.lt_of_succ_lt_succ isShort))
      exact List.mem_cons_of_mem _ (List.mem_map.mpr ⟨b.toFin, List.mem_finRange _, rfl⟩)
  have bound := (List.subperm_of_subset (distinct.filter _) within).length_le
  have few_length : few.length = 257 := by simp [few]
  have counted := weighed texts
  omega

namespace NameTable.Represents

variable {t : NameTable} {ledger : List Bytes} {pending text : Bytes}

/-- There is always one more text for a table to take, besides a given one. -/
theorem exists_addAll (represents : t.Represents ledger pending) (unknown : text ∉ ledger) (more : Nat) :
    ∃ texts taken, (t.addAll texts).Represents taken pending ∧ taken.length = ledger.length + more ∧
      text ∉ taken := by
  induction more with
  | zero => exact ⟨[], ledger, represents, rfl, unknown⟩
  | succ more ih =>
    obtain ⟨texts, taken, added, length_eq, unknown'⟩ := ih
    let fresh : Bytes := List.replicate ((text :: taken).flatten.length + 1) 0
    have isFresh : fresh ∉ text :: taken := by
      intro membership
      have within := (List.sublist_flatten_of_mem membership).length_le
      rw [List.length_replicate] at within
      omega
    obtain ⟨differs, isNew⟩ := not_or.mp (mt List.mem_cons.mpr isFresh)
    refine ⟨texts ++ [fresh], taken ++ [fresh], ?_, ?_, ?_⟩
    · have added_eq : t.addAll (texts ++ [fresh]) = ((t.addAll texts).add fresh).1 := List.foldl_append
      rw [added_eq, added.add_of_not_mem isNew]
      exact added.insert isNew
    · rw [List.length_append, length_eq]
      rfl
    · rw [List.mem_append, List.mem_singleton, not_or]
      exact ⟨unknown', Ne.symm differs⟩

/-- Any text that is not known comes to be refused when others use up the numbers. -/
theorem exists_refuses (represents : t.Represents ledger pending) (unknown : text ∉ ledger) :
    ∃ texts, (t.addAll texts).Refuses text := by
  obtain ⟨texts, taken, added, length_eq, unknown'⟩ := represents.exists_addAll unknown
    (limit - ledger.length)
  have full : limit ≤ taken.length := by omega
  exact ⟨texts, added.refuses_iff.mpr ⟨full, unknown'⟩⟩

end NameTable.Represents

namespace Session

/-- The names of the tokens are known, or there are numbers for them. -/
def Grants (s : Session) : List Scanned → Prop
  | [] => True
  | scanned :: steps => ¬s.Refuses scanned.token ∧ (s.absorb scanned).1.Grants steps

variable {s : Session} {ledger : List Bytes} {pending : Bytes}

theorem represents_absorb (represents : s.names.Represents ledger pending) (scanned : Scanned) :
    ∃ pending', (s.absorb scanned).1.names.Represents
      (scanned.token.name?.toList.foldl NameTable.enter ledger) pending' := by
  have cleared : ∃ pending', NameTable.Represents
      (if scanned.spelledName then s.names.clearPending else s.names) ledger pending' := by
    split
    · exact ⟨[], represents.setPending []⟩
    · exact ⟨pending, represents⟩
  obtain ⟨pending', cleared⟩ := cleared
  unfold absorb internName
  dsimp only [recordAll]
  cases scanned.token.name? with
  | none => exact ⟨pending', cleared⟩
  | some text => exact ⟨pending', cleared.add text⟩

end Session

namespace Lexer

variable {lexer : Lexer} {file : UInt32} {source passed : Bytes}

/-- The name of a token is among its bytes. -/
theorem name_length_le (lexer : Lexer) {name : Bytes} (named : lexer.next.1.token.name? = some name) :
    name.length ≤ lexer.next.1.place.text.length := by
  rcases lexer.next_cases with takes | finishes
  · generalize lexer.next.1 = s, lexer.next.2 = after at takes named ⊢
    cases takes with
    | @intro last skipped first rest token skips remaining found =>
      have within := Segment.scan_tail_le last.fresh first rest
      have length_le := Segment.length_le_of_named (Segment.named_scan found named)
      change name.length ≤ (first :: rest.take (Segment.scan last.fresh first rest).tail).length
      rwa [List.length_cons, List.length_take_of_le within]
  · rw [finishes.token_eq] at named
    cases named

/-- The bytes of the names that are new are among those that have been passed. -/
theorem grants_firstSteps {s : Session} {ledger : List Bytes} {pending : Bytes} (size : Nat)
    (reads : lexer.Reads file source passed) (represents : s.names.Represents ledger pending)
    (taken : ledger.flatten.length ≤ size + passed.length)
    (room : size + source.length + 514 < 2 * NameTable.limit) (n : Nat) :
    s.Grants (lexer.firstSteps n) := by
  induction n generalizing lexer s ledger pending passed with
  | zero => trivial
  | succ n ih =>
    obtain ⟨skipped, found, stands, _, later⟩ := next_reads reads
    have passed_le : passed.length ≤ source.length := by
      rw [reads.source_eq, List.length_append]
      exact Nat.le_add_right _ _
    constructor
    · rintro ⟨text, _, refuses⟩
      have few := two_mul_length_le represents.distinct
      have full := (represents.refuses_iff.mp refuses).1
      omega
    · obtain ⟨pending', absorbed⟩ := Session.represents_absorb represents lexer.next.1
      refine ih later absorbed ?_
      rw [List.length_append, List.length_append]
      cases named : lexer.next.1.token.name? with
      | none =>
        change ledger.flatten.length ≤ _
        omega
      | some text =>
        have text_le := lexer.name_length_le named
        have entered : (NameTable.enter ledger text).flatten.length ≤
            ledger.flatten.length + text.length := by
          rw [NameTable.enter]
          split
          · exact Nat.le_add_right _ _
          · rw [List.flatten_append, List.length_append, List.flatten_singleton]
        change (NameTable.enter ledger text).flatten.length ≤ _
        omega

/-- A source of less than 4 GiB does not have as many names as there are numbers. -/
theorem grants_ofSource {s : Session} (predefined : s.names = .predefined) (file : UInt32)
    (short : source.length < UInt32.size) (n : Nat) : s.Grants ((ofSource file source).firstSteps n) := by
  have few : (predefinedNames.map Utf8.ofString).flatten.length ≤ 65536 := by decide +kernel
  have represents : s.names.Represents (predefinedNames.map Utf8.ofString) [] := by
    rw [predefined]
    exact NameTable.represents_predefined
  refine grants_firstSteps 65536 (reads_ofSource file source) represents few ?_ n
  simp only [NameTable.limit, UInt32.size] at short ⊢
  omega

end Lexer

end AssemblyLexer
