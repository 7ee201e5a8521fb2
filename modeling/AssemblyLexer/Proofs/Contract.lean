import AssemblyLexer.Proofs.Completion

/-!
The contract of the program with its callers. The status tells whether anything
was complained about, and neither it nor the complaints depend on the flags.
-/

set_option autoImplicit false

namespace AssemblyLexer

theorem Diagnostic.render_ne_nil (path : Bytes) (d : Diagnostic) : d.render path ≠ [] := by
  rw [render]
  exact List.append_ne_nil_of_right_ne_nil _ (List.cons_ne_nil _ _)

namespace Log

theorem render_eq_nil_iff (log : Log) (pathOf : UInt32 → Bytes) :
    log.render pathOf = [] ↔ log.entries.toList = [] := by
  rw [render, List.flatMap_eq_nil_iff]
  constructor
  · intro silent
    apply List.eq_nil_iff_forall_not_mem.mpr
    intro d membership
    exact Diagnostic.render_ne_nil _ d (silent d membership)
  · intro none d membership
    rw [none] at membership
    cases membership

/-- A log that keeps its count and holds errors alone prints something unless the count is zero. -/
theorem Counted.errors_eq_zero_iff {log : Log} (counted : log.Counted)
    (all : ∀ d ∈ log.entries.toList, d.severity = .error) (pathOf : UInt32 → Bytes) :
    log.errors = 0 ↔ log.render pathOf = [] := by
  rw [render_eq_nil_iff, counted, List.countP_eq_zero]
  constructor
  · intro none
    apply List.eq_nil_iff_forall_not_mem.mpr
    intro d membership
    exact none d membership (decide_eq_true (all d membership))
  · intro empty d membership
    rw [empty] at membership
    cases membership

end Log

namespace Session

theorem counted_absorbAll {s : Session} (counted : s.log.Counted) (all : Array Scanned) :
    (s.absorbAll all).log.Counted := by
  rw [absorbAll, ← Array.foldl_toList]
  generalize all.toList = steps
  induction steps generalizing s with
  | nil => exact counted
  | cons scanned steps ih => exact ih (counted_absorb counted scanned)

/-- A session that has only absorbed steps has only errors to print. -/
theorem errors_absorbAll {s : Session} (empty : s.log = .empty) (all : Array Scanned)
    (pathOf : UInt32 → Bytes) :
    (s.absorbAll all).log.errors = 0 ↔ (s.absorbAll all).log.render pathOf = [] := by
  have counted : s.log.Counted := by
    rw [empty]
    rfl
  apply (counted_absorbAll counted all).errors_eq_zero_iff
  intro d membership
  rw [log_entries_absorbAll, empty] at membership
  obtain ⟨scanned, _, reported⟩ := List.mem_flatMap.mp membership
  obtain ⟨report, _, rfl⟩ := List.mem_map.mp reported
  rfl

end Session

/-- How a run has ended and what it complains about. -/
def Outcome.verdict (o : Outcome) : UInt8 × Bytes :=
  (o.status, o.errors)

namespace CommandLine

theorem usage_ne_nil : usage ≠ [] := by
  decide

def isFlag (argument : Bytes) : Bool :=
  argument = traceFlag || argument = memoFlag

/-- The arguments besides the flags. -/
def operands (arguments : List Bytes) : List Bytes :=
  arguments.filter fun argument => !isFlag argument

theorem operands_cons_of_isFlag {argument : Bytes} (flag : isFlag argument) (rest : List Bytes) :
    operands (argument :: rest) = operands rest := by
  rw [operands, List.filter_cons_of_neg (by simpa using flag)]
  rfl

theorem operands_cons_of_not_isFlag {argument : Bytes} (operand : isFlag argument = false)
    (rest : List Bytes) : operands (argument :: rest) = argument :: operands rest := by
  rw [operands, List.filter_cons_of_pos (by simpa using operand)]
  rfl

/-- The one source among those given before and the operands that follow, if it is only one. -/
def onlySource? : Option Bytes → List Bytes → Option Bytes
  | some source, [] => some source
  | none, [source] => if namesSource source then some source else none
  | _, _ => none

theorem source_parseFrom (options : DumpOptions) (source? : Option Bytes) (arguments : List Bytes) :
    (parseFrom options source? arguments).map CommandLine.source =
      onlySource? source? (operands arguments) := by
  induction arguments generalizing options source? with
  | nil =>
    rw [parseFrom, Option.map_map]
    cases source? <;> rfl
  | cons argument rest ih =>
    rw [parseFrom]
    by_cases isTrace : argument = traceFlag
    · rw [if_pos isTrace, ih, operands_cons_of_isFlag (by simp [isFlag, isTrace])]
    by_cases isMemo : argument = memoFlag
    · rw [if_neg isTrace, if_pos isMemo, ih, operands_cons_of_isFlag (by simp [isFlag, isMemo])]
    rw [if_neg isTrace, if_neg isMemo,
      operands_cons_of_not_isFlag (by simp [isFlag, isTrace, isMemo])]
    cases source? with
    | some source => rfl
    | none =>
      by_cases names : namesSource argument
      · rw [if_pos (by simpa using names), ih]
        cases operands rest with
        | nil => exact (if_pos names).symm
        | cons => rfl
      · rw [if_neg (by simpa using names)]
        cases operands rest with
        | nil => exact (if_neg names).symm
        | cons => rfl

theorem source_parse? (arguments : List Bytes) :
    (parse? arguments).map CommandLine.source = onlySource? none (operands arguments) :=
  source_parseFrom _ none arguments

theorem onlySource?_none_iff {operands : List Bytes} {source : Bytes} :
    onlySource? none operands = some source ↔ operands = [source] ∧ namesSource source := by
  match operands with
  | [] => exact ⟨nofun, nofun⟩
  | [operand] =>
    rw [onlySource?, List.cons_eq_cons]
    by_cases names : namesSource operand
    · rw [if_pos names, Option.some_inj]
      exact ⟨fun h => ⟨⟨h, rfl⟩, h ▸ names⟩, fun h => h.1.1⟩
    · rw [if_neg names]
      exact ⟨nofun, fun h => absurd (h.1.1 ▸ h.2) names⟩
  | _ :: _ :: _ => exact ⟨nofun, nofun⟩

/-- The arguments that are accepted. -/
theorem isSome_parse?_iff (arguments : List Bytes) :
    (parse? arguments).isSome ↔
      ∃ source, operands arguments = [source] ∧ namesSource source := by
  rw [← Option.isSome_map (f := CommandLine.source), source_parse?, Option.isSome_iff_exists]
  exact exists_congr fun source => onlySource?_none_iff

/-- The session that is left behind a loaded source. -/
def absorbed (source : LoadedSource) (registry : Registry) : Session :=
  { Session.initial with registry := registry.setContents source.id source.contents }.absorbAll
    (Lexer.ofSource source.id source.contents).run.1

/-- A table is always printed, so that only the session tells how the program ends. -/
theorem dump_eq (c : CommandLine) {source : LoadedSource} (registry : Registry)
    (small : source.contents.length ≤ Registry.sizeLimit) :
    let session := absorbed source registry
    ∃ output, c.dump source registry =
      ⟨if session.log.errors = 0 then 0 else 1, output,
        session.log.render session.registry.path⟩ := by
  intro session
  have short : source.contents.length < UInt32.size - 1 := Nat.lt_of_le_of_lt small (by decide)
  have dumped := Session.dump_eq
    { Session.initial with registry := registry.setContents source.id source.contents }
    c.options c.source source.id short
  refine ⟨Table.render c.options.trace c.source ((Lexer.ofSource source.id source.contents).run.1.toList.map
    (Row.ofToken c.options.memoize)), ?_⟩
  rw [dump]
  dsimp only
  rw [dumped]
  rfl

/-- How the program ends on a source and what it complains about, given what the source leads to. -/
def verdict (source : Bytes) (found : Found) : UInt8 × Bytes :=
  match Registry.empty.loadFound (registeredName source) found with
  | (registry, .ok loaded) =>
    let session := absorbed loaded registry
    (if session.log.errors = 0 then 0 else 1, session.log.render session.registry.path)
  | (_, .error e) => (1, e.diagnostic.render [])

theorem verdict_execute (c : CommandLine) (input : Bytes) (find : Bytes → Found) :
    (c.execute input find).verdict = verdict c.source (reads c.source input find) := by
  rw [execute, verdict, load_eq]
  cases loaded : Registry.empty.loadFound (registeredName c.source) (reads c.source input find) with
  | mk registry result =>
    cases result with
    | error e => rfl
    | ok source =>
      obtain ⟨output, dumped⟩ := c.dump_eq registry (eq_file_of_loadFound loaded).2
      dsimp only
      rw [dumped, Outcome.verdict]

/-- The verdict is read off the operands alone. -/
theorem verdict_run (arguments : List Bytes) (input : Bytes) (find : Bytes → Found) :
    (run arguments input find).verdict =
      match onlySource? none (operands arguments) with
      | some source => verdict source (reads source input find)
      | none => (1, usage) := by
  rw [run, ← source_parse?]
  cases parse? arguments with
  | none => rfl
  | some c => exact c.verdict_execute input find

/-- A verdict is good unless there is something to complain about. -/
theorem verdict_fst (source : Bytes) (found : Found) :
    (verdict source found).1 = if (verdict source found).2 = [] then 0 else 1 := by
  rw [verdict]
  cases Registry.empty.loadFound (registeredName source) found with
  | mk registry result =>
    cases result with
    | error e => exact (if_neg (Diagnostic.render_ne_nil _ _)).symm
    | ok loaded =>
      apply if_congr _ rfl rfl
      apply Session.errors_absorbAll
      simp only [Session.initial]

theorem output_eq_nil (c : CommandLine) {input : Bytes} {find : Bytes → Found}
    (unopened : ∀ contents, reads c.source input find = .file contents →
      Registry.sizeLimit < contents.length) : (c.execute input find).output = [] := by
  rw [execute, load_eq]
  cases loaded : Registry.empty.loadFound (registeredName c.source) (reads c.source input find) with
  | mk registry result =>
    cases result with
    | error e => rfl
    | ok source =>
      obtain ⟨found, small⟩ := eq_file_of_loadFound loaded
      exact absurd (unopened _ found) (Nat.not_lt.mpr small)

/-- What callers can rely on. -/
structure Contract (arguments : List Bytes) (input : Bytes) (find : Bytes → Found) : Prop where
  completes : runInPlace arguments input find = .ok (run arguments input find)
  status_eq : (run arguments input find).status =
    if (run arguments input find).errors = [] then 0 else 1
  accepted_iff : (parse? arguments).isSome ↔
    ∃ source, operands arguments = [source] ∧ namesSource source
  rejected : parse? arguments = none → run arguments input find = ⟨1, [], usage⟩
  /-- Nothing is printed unless there is a file of admissible size. -/
  unopened : ∀ c, parse? arguments = some c →
    (∀ contents, reads c.source input find = .file contents →
      Registry.sizeLimit < contents.length) →
    (run arguments input find).output = []
  /-- Neither flags nor the files that are not asked for make a difference. -/
  verdict_eq : ∀ arguments' input' find', operands arguments' = operands arguments →
    (∀ source ∈ operands arguments, reads source input' find' = reads source input find) →
      (run arguments' input' find').verdict = (run arguments input find).verdict

theorem run_contract (arguments : List Bytes) (input : Bytes) (find : Bytes → Found) :
    Contract arguments input find := by
  constructor
  case completes => exact runInPlace_eq arguments input find
  case status_eq =>
    have judged := verdict_run arguments input find
    change (run arguments input find).verdict.1 =
      if (run arguments input find).verdict.2 = [] then 0 else 1
    rw [judged]
    cases onlySource? none (operands arguments) with
    | none => exact (if_neg usage_ne_nil).symm
    | some source => exact verdict_fst source _
  case accepted_iff => exact isSome_parse?_iff arguments
  case rejected =>
    intro rejected
    rw [run, rejected]
  case unopened =>
    intro c parsed unopened
    rw [run, parsed]
    exact c.output_eq_nil unopened
  case verdict_eq =>
    intro arguments' input' find' operands_eq reads_eq
    rw [verdict_run, verdict_run, operands_eq]
    cases only : onlySource? none (operands arguments) with
    | none => rfl
    | some source =>
      have named : source ∈ operands arguments := by
        rw [(onlySource?_none_iff.mp only).1]
        exact List.mem_singleton_self _
      exact congrArg (verdict source) (reads_eq source named)

end CommandLine

end AssemblyLexer
