import Unalias.Proofs.Edits
import Unalias.Proofs.ProbePlan

/-! # The edits of an outcome always apply

An outcome replaces, at their own offsets, the specifiers the scanner found: one edit for each
aliased specifier that resolved to a new one, in order (`collect_edits`). The scanner's
occurrences are placed in the content, so these edits fit it and applying them cannot fail. No
outcome carries an error then, whatever the layout, the file, its content and the answers of the
existence checks (`FileOutcome.compute_error_eq_none`), for content no longer than the largest
word, the bound on the length of every byte slice.
-/

namespace Unalias

/-- Whether a resolution replaces its specifier: an alias took it, a module was found, and the
    specifier changes. -/
def Resolution.Replaces (r : Resolution) : Bool := r.Matched && r.Resolved && r.Changed

/-- The edits of the collected replacements: those before, then one for each occurrence whose
    resolution replaces its specifier, in order. -/
theorem collect_edits (content : Bytes) :
    ∀ (rs : List (Occurrence × Resolution)) (cur : LineCursor) (f : Findings),
      (collect content cur f rs).replacements.map (fun r => (⟨r.offset, r.before, r.after⟩ : Edit)) =
        f.replacements.reverse.map (fun r => ⟨r.offset, r.before, r.after⟩) ++
          (rs.filter (·.2.Replaces)).map fun p => ⟨p.1.start, p.2.requested, p.2.specifier⟩
  | [], cur, f => by simp [collect]
  | (o, r) :: rs, cur, f => by
      unfold collect
      by_cases hm : r.Matched
      · by_cases hr : r.Resolved
        · by_cases hc : r.Changed
          · simp [Resolution.Replaces, hm, hr, hc, apply_ite Findings.replacements,
              collect_edits content rs]
          · simp [Resolution.Replaces, hm, hr, hc, apply_ite Findings.replacements,
              collect_edits content rs]
        · simp [Resolution.Replaces, hm, hr, apply_ite Findings.replacements, collect_edits content rs]
      · simp [Resolution.Replaces, hm, collect_edits content rs]

/-- Resolutions each taken for its occurrence's value collect edits that replace those values. -/
theorem collect_edits_requested (content : Bytes) {rs : List (Occurrence × Resolution)}
    (hreq : ∀ p ∈ rs, p.2.requested = p.1.value) :
    (collect content {} {} rs).replacements.map (fun r => (⟨r.offset, r.before, r.after⟩ : Edit)) =
      (rs.filter (·.2.Replaces)).map fun p => ⟨p.1.start, p.1.value, p.2.specifier⟩ := by
  rw [collect_edits]
  simp only [List.reverse_nil, List.map_nil, List.nil_append]
  apply List.map_congr_left
  intro p hp
  rw [hreq p (List.mem_of_mem_filter hp)]

/-- The replaced occurrences are some of the scanner's, so they are placed too. -/
theorem replaced_placed {content : Bytes} {rs : List (Occurrence × Resolution)}
    (hocc : rs.map Prod.fst = scan content) :
    Occurrence.Placed content 0 ((rs.filter (·.2.Replaces)).map Prod.fst) :=
  (scan_placed content).sublist (by rw [← hocc]; exact List.filter_sublist.map _)

/-- Resolutions taken for the scanner's occurrences, in order, each for the occurrence's own
    value, give an outcome without error. -/
theorem FileOutcome.ofResolutions_error (path : Path) (content : Bytes)
    (rs : List (Occurrence × Resolution)) (hsize : content.length < 2 ^ 63)
    (hocc : rs.map Prod.fst = scan content) (hreq : ∀ p ∈ rs, p.2.requested = p.1.value) :
    (FileOutcome.ofResolutions path content rs).error = none := by
  have hedits := collect_edits_requested content hreq
  have hplaced := replaced_placed hocc
  have hfit := Edit.Fit.of_placed Prod.fst (fun p => p.2.specifier) _ 0 hplaced
  obtain ⟨out, offsets, hok⟩ := applyEdits_ok hsize hfit
  unfold FileOutcome.ofResolutions
  simp only [hedits, hok]
  split
  · rfl
  · split <;> rfl

theorem resolved_pairs {P : Occurrence → Resolution → Prop} {os : List Occurrence}
    {rs : List (Occurrence × Resolution)}
    (h : List.Forall₂ (fun o p => p.1 = o ∧ P o p.2) os rs) :
    rs.map Prod.fst = os ∧ ∀ p ∈ rs, P p.1 p.2 := by
  induction h with
  | nil => simp
  | cons hp _ ih =>
      obtain ⟨rfl, hP⟩ := hp
      refine ⟨by simp [ih.1], ?_⟩
      intro p hmem
      rcases List.mem_cons.mp hmem with rfl | hmem
      · exact hP
      · exact ih.2 p hmem

/-- Whatever the existence checks answer, the outcome of a file is the plain one, for content
    with nothing to do, or the outcome of resolutions that answer the scanner's occurrences. -/
theorem FileOutcome.compute_cases (l : Layout) (path : Path) (content : Bytes) :
    (FileOutcome.compute l ProbePlan.probe path content).Always fun o =>
      o = { path, oldSize := content.length, newSize := content.length } ∨
        ∃ rs : List (Occurrence × Resolution), rs.map Prod.fst = scan content ∧
          (∀ p ∈ rs, p.2.Answers p.1.value) ∧ o = FileOutcome.ofResolutions path content rs := by
  unfold FileOutcome.compute
  split
  · exact ProbePlan.Always.pure (.inl rfl)
  · dsimp only
    split
    · exact ProbePlan.Always.pure (.inl rfl)
    · -- each occurrence is paired with a resolution that answers its value
      refine ProbePlan.Always.bind (ProbePlan.Always.mapM
        (R := fun o p => p.1 = o ∧ p.2.Answers o.value) _ fun o _ => ?_) fun rs hrs => ?_
      · exact ProbePlan.Always.bind (l.resolve_answers o.value path) fun r hr =>
          ProbePlan.Always.pure ⟨rfl, hr⟩
      · obtain ⟨hocc, hans⟩ := resolved_pairs hrs
        exact ProbePlan.Always.pure (.inr ⟨rs, hocc, hans, rfl⟩)

/-- Whatever the existence checks answer, the outcome plan ends without error. -/
theorem FileOutcome.compute_plan_error (l : Layout) (path : Path) (content : Bytes)
    (hsize : content.length < 2 ^ 63) :
    (FileOutcome.compute l ProbePlan.probe path content).Always (·.error = none) := by
  refine ProbePlan.Always.imp (fun o ho => ?_) (FileOutcome.compute_cases l path content)
  rcases ho with rfl | ⟨rs, hocc, hans, rfl⟩
  · rfl
  · exact FileOutcome.ofResolutions_error path content rs hsize hocc fun p hp => (hans p hp).1

/-- The outcome of a file never carries an error: in any lawful monad, with any existence check,
    it is the run of a plan every outcome of which is free of error. -/
theorem FileOutcome.compute_error_eq_none {m : Type → Type} [Monad m] [LawfulMonad m]
    (l : Layout) (exists? : Path → m Bool) (path : Path) (content : Bytes)
    (hsize : content.length < 2 ^ 63) :
    ∃ plan : ProbePlan FileOutcome, FileOutcome.compute l exists? path content = plan.run exists? ∧
      plan.Always (·.error = none) :=
  ⟨_, FileOutcome.compute_eq_run exists? l path content,
    FileOutcome.compute_plan_error l path content hsize⟩

theorem FileOutcome.compute_error_eq_none_of_call :
    (Bytes.ofString "import('@/a')").length < 2 ^ 63 ∧
      ∃ plan : ProbePlan FileOutcome,
        FileOutcome.compute (m := Id)
            ⟨[⟨Bytes.ofString "@/", [Bytes.ofString "/src"]⟩], Bytes.ofString "/src",
              Bytes.ofString "/out"⟩
            (fun _ => pure true) (Bytes.ofString "/out/m.js") (Bytes.ofString "import('@/a')") =
          plan.run (fun _ => pure true) ∧
        plan.Always (·.error = none) :=
  ⟨by decide +kernel, FileOutcome.compute_error_eq_none _ _ _ _ (by decide +kernel)⟩

end Unalias
