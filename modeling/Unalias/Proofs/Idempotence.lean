import Unalias.Proofs.ProbeCache
import Unalias.Proofs.RoundTrip

/-! # A second pass changes nothing

With an existence check that answers at once, as a file system does, the outcome of a file is
the outcome of each specifier's own resolution (`FileOutcome.compute_pure`). Run again on the
content it wrote, the rewrite finds the old specifiers where the splice moved them
(`scan_relocate`): a replaced one now starts with a dot, which no alias stem takes when no stem is
empty or starts with a dot (`Layout.resolve_dot`), and any other keeps its value and resolves as
before. No resolution replaces, so the second outcome is unmodified and without replacements
(`FileOutcome.compute_idempotent`).
-/

namespace Unalias

theorem ProbePlan.Always.eval {α : Type} {P : α → Prop} {x : ProbePlan α} (h : x.Always P)
    (answer : Path → Bool) : P (x.eval answer) := by
  induction x with
  | done a => exact h
  | ask p next ih => exact ih _ (h _)

theorem Layout.resolve_pure (l : Layout) (exists? : Path → Bool) (specifier : Bytes)
    (outputFile : Path) :
    (l.resolve (m := Id) (fun p => pure (exists? p)) specifier outputFile).run =
      (l.resolve ProbePlan.probe specifier outputFile).eval exists? := by
  rw [Layout.resolve_eq_run, ProbePlan.run_answer]
  rfl

namespace Layout

/-- With stems that hold bytes and do not start with a dot, no alias takes a specifier starting
    with a dot. -/
theorem resolve_dot (l : Layout) (hstems : ∀ e ∈ l.table, e.stem ≠ [] ∧ e.stem.head? ≠ some Path.dot)
    {specifier : Bytes} (hs : specifier.head? = some Path.dot) (outputFile : Path) :
    (l.resolve ProbePlan.probe specifier outputFile).Always fun r => r.Matched = false := by
  have hnone : l.table.match? specifier = none := by
    unfold AliasTable.match?
    rw [List.find?_eq_none]
    intro e he hp
    obtain ⟨hne, hhead⟩ := hstems e he
    obtain ⟨t, ht⟩ : e.stem <+: specifier := by simpa using hp
    cases hst : e.stem with
    | nil => exact hne hst
    | cons b bs =>
        rw [hst] at ht hhead
        subst ht
        simp only [List.cons_append, List.head?_cons, ne_eq, Option.some.injEq] at hs hhead
        exact hhead hs
  unfold resolve
  rw [hnone]
  exact ProbePlan.Always.pure rfl

end Layout

/-- The scanned occurrences of the content, each with its resolution, the existence checks
    answered at once by `exists?`. -/
def Layout.resolutions (l : Layout) (exists? : Path → Bool) (path : Path) (content : Bytes) :
    List (Occurrence × Resolution) :=
  (scan content).map fun o => (o, (l.resolve (m := Id) (fun p => pure (exists? p)) o.value path).run)

/-- With an existence check that answers at once, a file with specifiers under an alias table
    has the outcome of each specifier's own resolution. -/
theorem FileOutcome.compute_pure (l : Layout) (exists? : Path → Bool) (path : Path)
    (content : Bytes) :
    FileOutcome.compute (m := Id) l (fun p => pure (exists? p)) path content =
        { path, oldSize := content.length, newSize := content.length } ∨
      FileOutcome.compute (m := Id) l (fun p => pure (exists? p)) path content =
        FileOutcome.ofResolutions path content (l.resolutions exists? path content) := by
  unfold FileOutcome.compute
  split
  · exact .inl rfl
  · dsimp only
    split
    · exact .inl rfl
    · -- binding in the identity monad is application, and so mapping there is a plain map
      right
      show FileOutcome.ofResolutions path content (List.mapM (m := Id) _ (scan content)).run = _
      congr 1
      exact List.idRun_mapM

/-- Resolutions none of which replaces leave the content unmodified, with no replacement. -/
theorem FileOutcome.ofResolutions_unchanged {path content : Bytes}
    {rs : List (Occurrence × Resolution)} (h : ∀ p ∈ rs, p.2.Replaces = false) :
    (FileOutcome.ofResolutions path content rs).modified = false ∧
      (FileOutcome.ofResolutions path content rs).replacements = [] := by
  have hnil : (collect content {} {} rs).replacements = [] := by
    have := collect_edits content rs {} {}
    rw [List.filter_eq_nil_iff.mpr fun p hp => by simp [h p hp]] at this
    simpa using this
  unfold FileOutcome.ofResolutions
  simp [hnil]

namespace Layout

variable (l : Layout) (exists? : Path → Bool) (path : Path)

theorem resolutions_fst (content : Bytes) :
    (l.resolutions exists? path content).map Prod.fst = scan content := by
  rw [resolutions, List.map_map]
  exact List.map_id _

theorem resolutions_answers (content : Bytes) :
    ∀ p ∈ l.resolutions exists? path content, p.2.Answers p.1.value := by
  intro p hp
  obtain ⟨o, -, rfl⟩ := List.mem_map.mp hp
  rw [resolve_pure]
  exact (l.resolve_answers o.value path).eval exists?

/-- Where the splice of a pass moved an occurrence, its specifier resolves without replacing on
    the next pass: a replaced one now starts with a dot, and any other resolves as it did. -/
theorem resolutions_relocated (hstems : ∀ e ∈ l.table, e.stem ≠ [] ∧ e.stem.head? ≠ some Path.dot)
    {content : Bytes}
    (hwf : (Splice.ofResolutions content (l.resolutions exists? path content)).WellFormed) :
    ∀ o ∈ scan content, (l.resolve (m := Id) (fun p => pure (exists? p))
      ((Splice.ofResolutions content (l.resolutions exists? path content)).relocate o).value
        path).run.Replaces = false := by
  intro o ho
  have hans := l.resolutions_answers exists? path content
  have hp : (o, (l.resolve (m := Id) (fun p => pure (exists? p)) o.value path).run) ∈
      l.resolutions exists? path content := List.mem_map_of_mem ho
  have hv := Splice.ofResolutions_relocate (l.resolutions_fst exists? path content) hans hwf _ hp
  rw [resolve_pure]
  split at hv
  case isTrue hrep =>
    have hdot := replaced_specifier_head hans _ hp hrep
    rw [← hv] at hdot
    have hmatched := (l.resolve_dot hstems hdot path).eval exists?
    simp [Resolution.Replaces, hmatched]
  case isFalse hrep =>
    rw [hv, ← resolve_pure]
    simpa using hrep

end Layout

/-- A second pass over the content a pass wrote, with the same layout and the same existence
    checks, changes nothing: the specifiers the first pass wrote start with a dot, which no alias
    takes, and the others resolve as before. -/
theorem FileOutcome.compute_idempotent (l : Layout) (exists? : Path → Bool) (path : Path)
    (content after : Bytes) (hsize : content.length < 2 ^ 63)
    (hstems : ∀ e ∈ l.table, e.stem ≠ [] ∧ e.stem.head? ≠ some Path.dot)
    (hmod : (FileOutcome.compute (m := Id) l (fun p => pure (exists? p)) path content).modified =
      true)
    (hcontent : (FileOutcome.compute (m := Id) l (fun p => pure (exists? p)) path content).content =
      some after)
    (hinert : ∀ r ∈ (FileOutcome.compute (m := Id) l (fun p => pure (exists? p)) path
      content).replacements, Inert r.before ∧ Inert r.after) :
    (FileOutcome.compute (m := Id) l (fun p => pure (exists? p)) path after).modified = false ∧
      (FileOutcome.compute (m := Id) l (fun p => pure (exists? p)) path after).replacements = [] := by
  rcases FileOutcome.compute_pure l exists? path content with hbase | hfirst
  · rw [hbase] at hmod
    exact absurd hmod Bool.false_ne_true
  rw [hfirst] at hcontent hinert
  have hocc := l.resolutions_fst exists? path content
  have hans := l.resolutions_answers exists? path content
  obtain ⟨hnew, -, -⟩ := FileOutcome.ofResolutions_splice hsize hocc hans hcontent
  have hwf := FileOutcome.ofResolutions_wellFormed hsize hocc hans hcontent hinert
  -- the second pass sees the first pass's specifiers where the splice moved them
  have hscan := scan_relocate _ hwf
  rw [hnew, Splice.ofResolutions_old hocc] at hscan
  rcases FileOutcome.compute_pure l exists? path after with hbase | hsecond
  · rw [hbase]
    exact ⟨rfl, rfl⟩
  rw [hsecond]
  apply FileOutcome.ofResolutions_unchanged
  intro q hq
  rw [Layout.resolutions, hscan, List.map_map] at hq
  obtain ⟨o, ho, rfl⟩ := List.mem_map.mp hq
  exact l.resolutions_relocated exists? path hstems hwf o ho

theorem FileOutcome.compute_idempotent_of_call :
    (FileOutcome.compute (m := Id)
        ⟨[⟨Bytes.ofString "@/", [Bytes.ofString "/src"]⟩], Bytes.ofString "/src", Bytes.ofString "/out"⟩
        (fun _ => pure true) (Bytes.ofString "/out/m.js") (Bytes.ofString "import('@/a')")).content =
      some (Bytes.ofString "import('./a')") ∧
    (FileOutcome.compute (m := Id)
        ⟨[⟨Bytes.ofString "@/", [Bytes.ofString "/src"]⟩], Bytes.ofString "/src", Bytes.ofString "/out"⟩
        (fun _ => pure true) (Bytes.ofString "/out/m.js") (Bytes.ofString "import('./a')")).modified =
      false ∧
    (FileOutcome.compute (m := Id)
        ⟨[⟨Bytes.ofString "@/", [Bytes.ofString "/src"]⟩], Bytes.ofString "/src", Bytes.ofString "/out"⟩
        (fun _ => pure true) (Bytes.ofString "/out/m.js")
        (Bytes.ofString "import('./a')")).replacements = [] := by
  have hcontent := (by decide +kernel : (FileOutcome.compute (m := Id)
      ⟨[⟨Bytes.ofString "@/", [Bytes.ofString "/src"]⟩], Bytes.ofString "/src", Bytes.ofString "/out"⟩
      (fun _ => pure true) (Bytes.ofString "/out/m.js") (Bytes.ofString "import('@/a')")).content =
    some (Bytes.ofString "import('./a')"))
  exact ⟨hcontent, FileOutcome.compute_idempotent _ (fun _ => true) _ _ _ (by decide +kernel)
    (by decide +kernel) (by decide +kernel) hcontent (by decide +kernel)⟩

end Unalias
