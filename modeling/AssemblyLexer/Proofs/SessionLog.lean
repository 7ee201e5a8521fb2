import AssemblyLexer.Session

/-!
What a session's log holds after a lexer's step.
-/

set_option autoImplicit false

namespace AssemblyLexer

theorem Log.entries_foldl_record (log : Log) (reports : List Report) :
    (reports.foldl (fun log report => log.record report.diagnostic) log).entries.toList =
      log.entries.toList ++ reports.map Report.diagnostic := by
  induction reports generalizing log with
  | nil => simp
  | cons report reports ih =>
    rw [List.foldl_cons, ih]
    simp [record]

namespace Session

theorem log_entries_recordAll (s : Session) (reports : Array Report) :
    (s.recordAll reports).log.entries.toList =
      s.log.entries.toList ++ reports.toList.map Report.diagnostic := by
  rw [recordAll, ← Array.foldl_toList]
  exact Log.entries_foldl_record s.log reports.toList

@[simp]
theorem log_internName (s : Session) (scanned : Scanned) :
    (s.internName scanned).1.log = s.log := by
  unfold internName
  dsimp only
  split <;> rfl

/-- A step adds its reports to the log, in order, and nothing else. -/
theorem log_entries_absorb (s : Session) (scanned : Scanned) :
    (s.absorb scanned).1.log.entries.toList =
      s.log.entries.toList ++ scanned.reports.toList.map Report.diagnostic := by
  rw [absorb, log_internName, log_entries_recordAll]

theorem log_entries_absorbAll (s : Session) (all : Array Scanned) :
    (s.absorbAll all).log.entries.toList =
      s.log.entries.toList ++
        all.toList.flatMap fun scanned => scanned.reports.toList.map Report.diagnostic := by
  rw [absorbAll, ← Array.foldl_toList]
  generalize all.toList = steps
  induction steps generalizing s with
  | nil => simp
  | cons scanned steps ih =>
    rw [List.foldl_cons, ih, log_entries_absorb, List.flatMap_cons, List.append_assoc]

end Session

end AssemblyLexer
