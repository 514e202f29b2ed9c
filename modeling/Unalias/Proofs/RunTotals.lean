import Unalias.Proofs.JsonReport

/-! # The totals of a run log

A run log keeps its totals beside its entries, and both change only when a result is logged:
logging the settings or the time the run took writes a trace or sets the time, nothing else
(`RunLog.Appends`). Logging a result adds its entry and counts it once: the file, and its
unresolved specifiers always; then either the failure, or the file as modified with its
replacements (`RunLog.logResult_tally`). An entry of a failed file is never modified and lists
no replacements, and an entry lists replacements only when modified (`RunLog.entryOf_failed`,
`RunLog.entryOf_replaced`).

So after any calls, from the start of a run, the totals are counts over the entries
(`RunLog.totals_agree`), as long as every failure logged has a text: the failures are counted
by the text an entry keeps of them.
-/

namespace Unalias

/-- A call a run makes on its log. -/
inductive LogCall where
  /-- The project's settings and alias table are logged. -/
  | settings (s : ProjectSettings) (table : AliasTable)
  /-- A job's result is logged at a time stamp. -/
  | result (timestamp : String) (r : JobResult)
  /-- The time the run took is recorded, in nanoseconds. -/
  | elapsed (ns : Int)

namespace RunLog

/-- The log after one call. -/
def perform (l : RunLog) : LogCall → RunLog
  | .settings s table => l.logSettings s table
  | .result timestamp r => l.logResult timestamp r
  | .elapsed ns => l.setProcessingTime ns

/-- The log after the calls, in order, from the start of a run with options `o`. -/
def ofCalls (o : RunOptions) (calls : List LogCall) : RunLog := calls.foldl perform (start o)

/-- The totals are counts over the entries, and the entries are consistent: a failed file is not
    modified and lists no replacements, and only a modified file lists replacements. -/
structure TotalsAgree (l : RunLog) : Prop where
  files : l.summary.totalFiles = l.entries.length
  modified : l.summary.modifiedFiles = l.entries.countP (·.modified)
  replacements : l.summary.totalReplacements = (l.entries.map (·.replacements.length)).sum
  unresolved : l.summary.unresolved = (l.entries.map (·.unresolved.length)).sum
  errors : l.summary.errorCount = l.entries.countP fun e => e.error ≠ []
  failed_unmodified : ∀ e ∈ l.entries, e.error ≠ [] → e.modified = false ∧ e.replacements = []
  replaced_modified : ∀ e ∈ l.entries, e.replacements ≠ [] → e.modified = true

/-! ## Entries -/

/-- The entry of a failed job keeps the failure's text, and is neither modified nor replaced. -/
theorem entryOf_failed (timestamp : String) {r : JobResult} {f : Failure} (hf : r.error = some f) :
    (entryOf timestamp r).error = f.text ∧ (entryOf timestamp r).modified = false ∧
      (entryOf timestamp r).replacements = [] := by
  unfold entryOf
  rw [hf]
  exact ⟨rfl, rfl, rfl⟩

theorem entryOf_error_none (timestamp : String) {r : JobResult} (hr : r.error = none) :
    (entryOf timestamp r).error = [] := by
  unfold entryOf
  rw [hr]
  cases r.outcome <;> rfl

/-- An entry lists replacements only when its file was modified. -/
theorem entryOf_replaced (timestamp : String) (r : JobResult) :
    (entryOf timestamp r).replacements ≠ [] → (entryOf timestamp r).modified = true := by
  unfold entryOf
  cases r.error with
  | some f => exact fun h => absurd rfl h
  | none =>
      cases r.outcome with
      | none => exact fun h => absurd rfl h
      | some o =>
          cases hm : o.modified
          · simp [hm]
          · simp [hm]

/-! ## One call -/

/-- Logging a result counts its file, its unresolved specifiers, and its failure or else its
    modification and replacements. -/
theorem logResult_tally (l : RunLog) (timestamp : String) (r : JobResult) :
    (l.logResult timestamp r).summary.totalFiles = l.summary.totalFiles + 1 ∧
    (l.logResult timestamp r).summary.modifiedFiles =
      l.summary.modifiedFiles + (if (entryOf timestamp r).modified then 1 else 0) ∧
    (l.logResult timestamp r).summary.totalReplacements =
      l.summary.totalReplacements + (entryOf timestamp r).replacements.length ∧
    (l.logResult timestamp r).summary.unresolved =
      l.summary.unresolved + (entryOf timestamp r).unresolved.length ∧
    (l.logResult timestamp r).summary.errorCount =
      l.summary.errorCount + (if r.error.isSome then 1 else 0) := by
  -- the trace written after the entry leaves the totals
  have htrace : ∀ l' : RunLog, (if l.options.IsVerbose then l'.traceVerbose (entryOf timestamp r)
      else if l.options.ShouldLog then l'.traceBasic (entryOf timestamp r) else l').summary =
        l'.summary := by
    intro l'
    split
    · exact (appends_traceVerbose _ _).summary
    split
    · exact (appends_traceBasic _ _).summary
    · rfl
  unfold logResult
  dsimp only
  rw [htrace]
  cases hf : r.error with
  | some f =>
      obtain ⟨-, hmod, hreps⟩ := entryOf_failed timestamp hf
      simp [hmod, hreps]
  | none =>
      by_cases hmod : (entryOf timestamp r).modified = true
      · simp [hmod]
      · have hreps : (entryOf timestamp r).replacements = [] :=
          Classical.byContradiction fun h => hmod (entryOf_replaced timestamp r h)
        simp [hmod, hreps]

theorem TotalsAgree.start (o : RunOptions) : (start o).TotalsAgree :=
  ⟨rfl, rfl, rfl, rfl, rfl, fun _ h => absurd h List.not_mem_nil,
    fun _ h => absurd h List.not_mem_nil⟩

/-- Writing keeps the totals and the entries. -/
theorem TotalsAgree.of_appends {l l' : RunLog} (h : l.TotalsAgree) (ha : Appends l l') :
    l'.TotalsAgree := by
  obtain ⟨files, modified, replacements, unresolved, errors, failed, replaced⟩ := h
  rw [← ha.summary, ← ha.entries] at *
  exact ⟨files, modified, replacements, unresolved, errors, failed, replaced⟩

/-- Logging a result whose failure, if any, has a text keeps the totals in agreement. -/
theorem TotalsAgree.logResult {l : RunLog} (h : l.TotalsAgree) (timestamp : String)
    {r : JobResult} (htold : ∀ f, r.error = some f → f.text ≠ []) :
    (l.logResult timestamp r).TotalsAgree := by
  obtain ⟨hfiles, hmod, hreps, hunres, herrs⟩ := logResult_tally l timestamp r
  have hentries := (logResult_entries_options l timestamp r).1
  -- the failure is counted exactly when the entry keeps a text of it
  have herror : (if r.error.isSome then 1 else 0) =
      if (entryOf timestamp r).error ≠ [] then 1 else 0 := by
    cases hf : r.error with
    | some f => simp [(entryOf_failed timestamp hf).1, htold f hf]
    | none => simp [entryOf_error_none timestamp hf]
  refine ⟨?_, ?_, ?_, ?_, ?_, ?_, ?_⟩
  · rw [hfiles, hentries, h.files, List.length_append, List.length_singleton]
  · rw [hmod, hentries, h.modified, List.countP_append, List.countP_singleton]
  · rw [hreps, hentries, h.replacements, List.map_append, List.sum_append, List.map_singleton,
      List.sum_singleton]
  · rw [hunres, hentries, h.unresolved, List.map_append, List.sum_append, List.map_singleton,
      List.sum_singleton]
  · rw [herrs, hentries, h.errors, List.countP_append, List.countP_singleton, herror]
    simp
  · intro e he herr
    rw [hentries, List.mem_append, List.mem_singleton] at he
    rcases he with he | rfl
    · exact h.failed_unmodified e he herr
    · cases hf : r.error with
      | some f => exact (entryOf_failed timestamp hf).2
      | none => exact absurd (entryOf_error_none timestamp hf) herr
  · intro e he hreps'
    rw [hentries, List.mem_append, List.mem_singleton] at he
    rcases he with he | rfl
    · exact h.replaced_modified e he hreps'
    · exact entryOf_replaced timestamp r hreps'

/-- Every call keeps the totals in agreement, a logged result's failure having a text. -/
theorem TotalsAgree.perform {l : RunLog} (h : l.TotalsAgree) {c : LogCall}
    (htold : ∀ timestamp r, c = .result timestamp r → ∀ f, r.error = some f → f.text ≠ []) :
    (l.perform c).TotalsAgree := by
  cases c with
  | settings s table =>
      -- the settings are a record of the base directory and a write
      have hbase : TotalsAgree { l with basePath := s.baseDirectory } :=
        ⟨h.files, h.modified, h.replacements, h.unresolved, h.errors, h.failed_unmodified,
          h.replaced_modified⟩
      exact hbase.of_appends (appends_logSettings l s table)
  | result timestamp r => exact h.logResult timestamp (htold timestamp r rfl)
  | elapsed ns =>
      exact ⟨h.files, h.modified, h.replacements, h.unresolved, h.errors, h.failed_unmodified,
        h.replaced_modified⟩

/-! ## A whole run -/

theorem TotalsAgree.foldl_perform :
    ∀ {calls : List LogCall} {l : RunLog}, l.TotalsAgree →
      (∀ timestamp r, LogCall.result timestamp r ∈ calls → ∀ f, r.error = some f → f.text ≠ []) →
      (calls.foldl RunLog.perform l).TotalsAgree
  | [], _, h, _ => h
  | c :: calls, l, h, htold => by
      -- the first call keeps the agreement, and the rest go on from there
      rw [List.foldl_cons]
      exact foldl_perform (h.perform fun timestamp r hc => htold timestamp r (hc ▸ List.mem_cons_self))
        fun timestamp r hmem => htold timestamp r (List.mem_cons_of_mem c hmem)

/-- After any calls from the start of a run, in which every failure logged has a text, the
    totals count the entries: the files, the modified files, their replacements, the unresolved
    specifiers and the failed files; a failed file is not modified and lists no replacements,
    and only a modified file lists replacements. -/
theorem totals_agree (o : RunOptions) (calls : List LogCall)
    (htold : ∀ timestamp r, LogCall.result timestamp r ∈ calls →
      ∀ f, r.error = some f → f.text ≠ []) :
    (ofCalls o calls).TotalsAgree :=
  TotalsAgree.foldl_perform (TotalsAgree.start o) htold

/-- The calls of a run that logs its settings, a file that failed, a file in which one
    specifier was replaced, and the time it took. -/
def failedThenReplaced : List LogCall :=
  [.settings plainSettings [],
    .result "t" { index := 0, filePath := [97], error := some (.plain [98]) },
    .result "t" replacedResult, .elapsed 5]

/-- The failed file counts as failed and not as modified; the other one as modified, with its
    replacement. -/
theorem totals_agree_failedThenReplaced :
    (∀ timestamp r, LogCall.result timestamp r ∈ failedThenReplaced →
      ∀ f, r.error = some f → f.text ≠ []) ∧ (ofCalls {} failedThenReplaced).TotalsAgree := by
  have htold : ∀ timestamp r, LogCall.result timestamp r ∈ failedThenReplaced →
      ∀ f, r.error = some f → f.text ≠ [] := by
    intro timestamp r hmem f hf
    simp only [failedThenReplaced, List.mem_cons, reduceCtorEq, LogCall.result.injEq,
      List.not_mem_nil, or_false, false_or] at hmem
    rcases hmem with ⟨-, rfl⟩ | ⟨-, rfl⟩
    · cases hf
      simp [Failure.text]
    · cases hf
  exact ⟨htold, totals_agree {} _ htold⟩

end RunLog

end Unalias
