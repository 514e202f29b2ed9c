import Unalias.Proofs.Outcome
import Unalias.Proofs.Remap
import Unalias.Proofs.Replacing

/-! # Replaying a file's replacements both ways

A report records each replacement with its offset in the content before the run and the offset
of the replacing bytes after it. Replaying the records forward on the old content makes the
replacements again; replaying them backward on the new content undoes them, with every hint
already on its specifier, so that no shift is searched for (`Replay.RoundTrip`).

The replacements of an outcome are the edits of the splice of its resolutions
(`FileOutcome.ofResolutions_splice`): the occurrences whose resolution replaces them, paired with
their new specifiers. The new content is that splice's new content, and the offsets recorded
after the run are where the splice wrote. When the specifiers replaced and their replacements are
inert, the splice is well formed, so the new content scans to the old occurrences moved and the
generic replay of a splice applies in both directions (`FileOutcome.ofResolutions_replay`).
Whatever the existence checks answer, every modified outcome round-trips
(`FileOutcome.compute_round_trip`).
-/

namespace Unalias

/-- The splice that makes the replacements of resolved occurrences of the content. -/
def Splice.ofResolutions (content : Bytes) (rs : List (Occurrence × Resolution)) : Splice :=
  Splice.build content 0 ((rs.filter (·.2.Replaces)).map fun p => (p.1, p.2.specifier))

/-- What a report records of a replacement. -/
def Replacement.record (r : Replacement) : RecordedReplacement :=
  { before := r.before, after := r.after, target := r.target, line := r.line, column := r.column,
    offset := r.offset, newOffset := r.newOffset }

/-- Records replay both ways between two contents: forward they turn `before` into `after`, and
    backward, each hint on its specifier as recorded, they turn `after` into `before`. -/
def Replay.RoundTrip (file : Path) (rs : List RecordedReplacement) (before after : Bytes) : Prop :=
  Replay.content .forward file rs before = .ok (some after) ∧
    Replay.content .backward file rs after = .ok (some before) ∧
    ∃ hints, Replay.hintsOf .backward file rs = .ok hints ∧ Hints.MatchAt (scan after) hints 0 = true

theorem FileOutcome.ofResolutions_content {path content after : Bytes}
    {rs : List (Occurrence × Resolution)}
    (h : (FileOutcome.ofResolutions path content rs).content = some after) :
    (collect content {} {} rs).replacements ≠ [] ∧ ∃ offsets,
      applyEdits content ((collect content {} {} rs).replacements.map
        fun r => (⟨r.offset, r.before, r.after⟩ : Edit)) = .ok (after, offsets) ∧
      (FileOutcome.ofResolutions path content rs).replacements =
        ((collect content {} {} rs).replacements.zip offsets).map
          fun (r, n) => { r with newOffset := n } := by
  unfold FileOutcome.ofResolutions at h ⊢
  dsimp only at h ⊢
  split at h
  · simp at h
  · rename_i hne
    refine ⟨by simpa using hne, ?_⟩
    split at h
    · simp at h
    · rename_i out offsets hok
      split at h
      · simp at h
      · rename_i hout
        simp only [Option.some.injEq] at h
        subst h
        refine ⟨offsets, hok, ?_⟩
        simp only [hne, hout, if_false, Bool.false_eq_true]

section Resolutions

variable {content : Bytes} {rs : List (Occurrence × Resolution)}

theorem replaced_value_ne (hans : ∀ p ∈ rs, p.2.Answers p.1.value) :
    ∀ p ∈ rs, p.2.Replaces = true → p.1.value ≠ [] := by
  intro p hp hrep
  simp only [Resolution.Replaces, Bool.and_eq_true] at hrep
  exact (hans p hp).2.1 hrep.1.1

theorem replaced_specifier_head (hans : ∀ p ∈ rs, p.2.Answers p.1.value) :
    ∀ p ∈ rs, p.2.Replaces = true → p.2.specifier.head? = some Path.dot := by
  intro p hp hrep
  simp only [Resolution.Replaces, Bool.and_eq_true] at hrep
  exact (hans p hp).2.2 hrep.1.1 hrep.1.2

theorem replaced_specifier_ne (hans : ∀ p ∈ rs, p.2.Answers p.1.value) :
    ∀ p ∈ rs, p.2.Replaces = true → p.2.specifier ≠ [] := by
  intro p hp hrep hnil
  have := replaced_specifier_head hans p hp hrep
  simp [hnil] at this

theorem pairwise_starts (hocc : rs.map Prod.fst = scan content) :
    rs.Pairwise fun p q => p.1.start = q.1.start → p.1.value = [] ∧ q.1.value = [] := by
  have := scan_starts content
  rwa [← hocc, List.pairwise_map] at this

theorem replaced_pairs_ne (hans : ∀ p ∈ rs, p.2.Answers p.1.value) :
    ∀ p ∈ (rs.filter (·.2.Replaces)).map (fun p => (p.1, p.2.specifier)), p.1.value ≠ [] := by
  intro p hp
  obtain ⟨q, hq, rfl⟩ := List.mem_map.mp hp
  exact replaced_value_ne hans q (List.mem_of_mem_filter hq) (List.mem_filter.mp hq).2

theorem Splice.ofResolutions_placed (hocc : rs.map Prod.fst = scan content) :
    Occurrence.Placed content 0
      (((rs.filter (·.2.Replaces)).map fun p => (p.1, p.2.specifier)).map Prod.fst) := by
  rw [List.map_map]
  exact replaced_placed hocc

theorem Splice.ofResolutions_old (hocc : rs.map Prod.fst = scan content) :
    (Splice.ofResolutions content rs).old = content := by
  simpa [Splice.ofResolutions] using Splice.build_old (Splice.ofResolutions_placed hocc)

theorem Splice.ofResolutions_edits (hocc : rs.map Prod.fst = scan content) :
    (Splice.ofResolutions content rs).edits 0 =
      (rs.filter (·.2.Replaces)).map fun p => p.1.edit p.2.specifier := by
  rw [Splice.ofResolutions, Splice.build_edits (Splice.ofResolutions_placed hocc), List.map_map]
  rfl

theorem collect_edits_splice (hocc : rs.map Prod.fst = scan content)
    (hans : ∀ p ∈ rs, p.2.Answers p.1.value) :
    (collect content {} {} rs).replacements.map (fun r => (⟨r.offset, r.before, r.after⟩ : Edit)) =
      (Splice.ofResolutions content rs).edits 0 := by
  rw [collect_edits_requested content fun p hp => (hans p hp).1, Splice.ofResolutions_edits hocc]
  rfl

theorem Splice.ofResolutions_swap_edits (hocc : rs.map Prod.fst = scan content)
    (hans : ∀ p ∈ rs, p.2.Answers p.1.value) :
    (Splice.ofResolutions content rs).swap.edits 0 =
      (rs.filter (·.2.Replaces)).map fun p =>
        ⟨(Splice.ofResolutions content rs).move p.1.start, p.2.specifier, p.1.value⟩ := by
  rw [Splice.ofResolutions, Splice.build_swap_edits (Splice.ofResolutions_placed hocc)
    (replaced_pairs_ne hans), List.map_map]
  simp only [Nat.zero_add, Nat.sub_zero]
  rfl

theorem FileOutcome.ofResolutions_splice {path after : Bytes} (hsize : content.length < 2 ^ 63)
    (hocc : rs.map Prod.fst = scan content) (hans : ∀ p ∈ rs, p.2.Answers p.1.value)
    (h : (FileOutcome.ofResolutions path content rs).content = some after) :
    (Splice.ofResolutions content rs).new = after ∧
      (FileOutcome.ofResolutions path content rs).replacements.map
        (fun r => (⟨r.offset, r.before, r.after⟩ : Edit)) = (Splice.ofResolutions content rs).edits 0 ∧
      (FileOutcome.ofResolutions path content rs).replacements.map
        (fun r => (⟨r.newOffset, r.after, r.before⟩ : Edit)) =
          (Splice.ofResolutions content rs).swap.edits 0 := by
  obtain ⟨-, offsets, hok, hreps⟩ := FileOutcome.ofResolutions_content h
  have hedits := collect_edits_splice hocc hans
  have hold := Splice.ofResolutions_old hocc
  set sp := Splice.ofResolutions content rs
  have happly := sp.applyEdits_edits (by rw [hold]; exact hsize)
  rw [hold, ← hedits, hok] at happly
  obtain ⟨hnew, hoffsets⟩ : after = sp.new ∧ offsets = (sp.swap.edits 0).map (·.offset.toNat) := by
    simpa using happly
  have hlen : (collect content {} {} rs).replacements.length ≤ offsets.length := by
    have := congrArg List.length hedits
    simp only [List.length_map] at this
    rw [hoffsets, List.length_map, sp.length_swap_edits 0 0]
    exact Nat.le_of_eq this
  refine ⟨hnew.symm, ?_, ?_⟩
  · rw [hreps, ← hedits, List.map_map]
    calc _ = (((collect content {} {} rs).replacements.zip offsets).map Prod.fst).map
          (fun r => (⟨r.offset, r.before, r.after⟩ : Edit)) := by rw [List.map_map]; rfl
      _ = _ := by rw [List.map_fst_zip hlen]
  · conv => rhs; rw [sp.swap_edits 0 0]
    rw [hreps, ← hoffsets, ← hedits, List.zip_map_left, List.map_map, List.map_map]
    rfl

theorem Splice.ofResolutions_wellFormed (hocc : rs.map Prod.fst = scan content)
    (hans : ∀ p ∈ rs, p.2.Answers p.1.value)
    (hinert : ∀ e ∈ (Splice.ofResolutions content rs).edits 0, Inert e.old ∧ Inert e.new) :
    (Splice.ofResolutions content rs).WellFormed := by
  have hplaced := Splice.ofResolutions_placed hocc
  refine Splice.build_wellFormed hplaced (fun h => absurd h (Nat.lt_irrefl 0)) fun p hp => ?_
  obtain ⟨q, hq, rfl⟩ := List.mem_map.mp hp
  obtain ⟨hqrs, hrep⟩ := List.mem_filter.mp hq
  have hedit : ⟨q.1.start, q.1.value, q.2.specifier⟩ ∈ (Splice.ofResolutions content rs).edits 0 := by
    rw [Splice.ofResolutions, Splice.build_edits hplaced]
    exact List.mem_map_of_mem hp
  refine ⟨scan_quoted content q.1 (by rw [← hocc]; exact List.mem_map_of_mem hqrs),
    replaced_value_ne hans q hqrs hrep, replaced_specifier_ne hans q hqrs hrep, hinert _ hedit⟩

theorem Splice.ofResolutions_outside (hocc : rs.map Prod.fst = scan content)
    (hwf : (Splice.ofResolutions content rs).WellFormed) :
    ∀ p ∈ rs, (Splice.ofResolutions content rs).Outside p.1.start := by
  intro p hp
  apply Splice.outside_start hwf
  rw [Splice.ofResolutions_old hocc]
  exact scan_quoted content p.1 (by rw [← hocc]; exact List.mem_map_of_mem hp)

theorem Splice.ofResolutions_relocate (hocc : rs.map Prod.fst = scan content)
    (hans : ∀ p ∈ rs, p.2.Answers p.1.value) (hwf : (Splice.ofResolutions content rs).WellFormed) :
    ∀ p ∈ rs, ((Splice.ofResolutions content rs).relocate p.1).value =
      if p.2.Replaces then p.2.specifier else p.1.value := by
  intro p hp
  have hplaced := Splice.ofResolutions_placed hocc
  show Splice.newValue _ p.1.start p.1.value = _
  split
  case isTrue hrep =>
    simpa [Splice.ofResolutions] using Splice.build_newValue hplaced (replaced_pairs_ne hans)
      (p.1, p.2.specifier)
      (List.mem_map_of_mem (List.mem_filter.mpr ⟨hp, hrep⟩))
  case isFalse hrep =>
    refine Splice.build_newValue_of_ne hplaced p.1.value
      (Splice.ofResolutions_outside hocc hwf p hp) fun p' hp' heq => ?_
    -- a replaced occurrence at the same start would leave both empty, yet it holds bytes
    obtain ⟨q, hq, rfl⟩ := List.mem_map.mp hp'
    obtain ⟨hqrs, hqrep⟩ := List.mem_filter.mp hq
    have hqp : q ≠ p := fun h => hrep (h ▸ hqrep)
    exact replaced_value_ne hans q hqrs hqrep
      (empty_of_start_eq (pairwise_starts hocc) hqrs hp hqp (by simpa using heq)).1

/-- In the new content, the relocated occurrences still share a start only when both are
    empty. -/
theorem Splice.ofResolutions_relocated_starts (hocc : rs.map Prod.fst = scan content)
    (hans : ∀ p ∈ rs, p.2.Answers p.1.value) (hwf : (Splice.ofResolutions content rs).WellFormed) :
    (rs.map fun p => ((Splice.ofResolutions content rs).relocate p.1, p)).Pairwise
      fun q q' => q.1.start = q'.1.start → q.1.value = [] ∧ q'.1.value = [] := by
  have hout := Splice.ofResolutions_outside hocc hwf
  have hvalue := Splice.ofResolutions_relocate hocc hans hwf
  -- occurrences without bytes are not replaced, so they stay without bytes
  have keep : ∀ p ∈ rs, p.1.value = [] →
      ((Splice.ofResolutions content rs).relocate p.1).value = [] := by
    intro p hp hv
    rw [hvalue p hp]
    split
    case isTrue hrep => exact absurd hv (replaced_value_ne hans p hp hrep)
    case isFalse => exact hv
  rw [List.pairwise_map]
  refine (pairwise_starts hocc).imp_of_mem fun {p p'} hp hp' hnil heq => ?_
  obtain ⟨hv, hv'⟩ := hnil (Splice.move_inj hwf (hout p hp) (hout p' hp') heq)
  exact ⟨keep p hp hv, keep p' hp' hv'⟩

/-- The edits back are made at the replaced occurrences as the new content has them. -/
theorem Splice.ofResolutions_relocated_edits (hocc : rs.map Prod.fst = scan content)
    (hans : ∀ p ∈ rs, p.2.Answers p.1.value) (hwf : (Splice.ofResolutions content rs).WellFormed) :
    ((rs.map fun p => ((Splice.ofResolutions content rs).relocate p.1, p)).filter
        (·.2.2.Replaces)).map (fun q => q.1.edit q.2.1.value) =
      (Splice.ofResolutions content rs).swap.edits 0 := by
  rw [Splice.ofResolutions_swap_edits hocc hans, List.filter_map, List.map_map]
  apply List.map_congr_left
  intro p hp
  have hv := Splice.ofResolutions_relocate hocc hans hwf p (List.mem_of_mem_filter hp)
  rw [if_pos (show p.2.Replaces = true from (List.mem_filter.mp hp).2)] at hv
  simp only [Function.comp, Occurrence.edit, hv]
  rfl

/-- The splice of an outcome whose replaced specifiers and replacements are inert is well
    formed. -/
theorem FileOutcome.ofResolutions_wellFormed {path after : Bytes} (hsize : content.length < 2 ^ 63)
    (hocc : rs.map Prod.fst = scan content) (hans : ∀ p ∈ rs, p.2.Answers p.1.value)
    (h : (FileOutcome.ofResolutions path content rs).content = some after)
    (hinert : ∀ r ∈ (FileOutcome.ofResolutions path content rs).replacements,
      Inert r.before ∧ Inert r.after) :
    (Splice.ofResolutions content rs).WellFormed := by
  obtain ⟨-, hfwd, -⟩ := FileOutcome.ofResolutions_splice hsize hocc hans h
  refine Splice.ofResolutions_wellFormed hocc hans fun e he => ?_
  rw [← hfwd] at he
  obtain ⟨r, hr, rfl⟩ := List.mem_map.mp he
  exact hinert r hr

/-- Replaying the replacements of an outcome forward turns the content into the outcome's, and
    replaying them backward turns it back, every hint on its specifier as recorded. -/
theorem FileOutcome.ofResolutions_replay {path after : Bytes} (hsize : content.length < 2 ^ 63)
    (hsize' : after.length < 2 ^ 63) (hocc : rs.map Prod.fst = scan content)
    (hans : ∀ p ∈ rs, p.2.Answers p.1.value)
    (h : (FileOutcome.ofResolutions path content rs).content = some after)
    (hinert : ∀ r ∈ (FileOutcome.ofResolutions path content rs).replacements,
      Inert r.before ∧ Inert r.after) :
    Replay.RoundTrip path ((FileOutcome.ofResolutions path content rs).replacements.map
      Replacement.record) content after := by
  obtain ⟨hnew, hfwd, hbwd⟩ := FileOutcome.ofResolutions_splice hsize hocc hans h
  have hold := Splice.ofResolutions_old hocc
  have hchosen : (Splice.ofResolutions content rs).edits 0 ≠ [] := by
    rw [← collect_edits_splice hocc hans]
    simpa using (FileOutcome.ofResolutions_content h).1
  have hwf := FileOutcome.ofResolutions_wellFormed hsize hocc hans h hinert
  have hstarts := Splice.ofResolutions_relocated_starts hocc hans hwf
  have hback := Splice.ofResolutions_relocated_edits hocc hans hwf
  set sp := Splice.ofResolutions content rs
  set records := (FileOutcome.ofResolutions path content rs).replacements.map Replacement.record
  -- forward, the edits are made at the replaced occurrences of the content
  have hf := sp.replay hwf (by rw [hold]; exact hsize) .forward path records rs (·.2.Replaces)
    (·.2.specifier) (by rw [hold]; exact hocc) (replaced_value_ne hans) (pairwise_starts hocc)
    (Splice.ofResolutions_edits hocc).symm hchosen
    (by rw [← hfwd, List.map_map, List.map_map]; rfl)
  -- backward, at the same occurrences, where the new content has them
  have hne : ∀ q ∈ rs.map (fun p => (sp.relocate p.1, p)), q.2.2.Replaces = true →
      q.1.value ≠ [] := by
    intro q hq hrep
    obtain ⟨p, hp, rfl⟩ := List.mem_map.mp hq
    rw [Splice.ofResolutions_relocate hocc hans hwf p hp, if_pos hrep]
    exact replaced_specifier_ne hans p hp hrep
  have hb := sp.swap.replay (Splice.wellFormed_swap hwf) (by rw [sp.swap_old, hnew]; exact hsize')
    .backward path records (rs.map fun p => (sp.relocate p.1, p)) (·.2.2.Replaces) (·.2.1.value)
    (by rw [List.map_map, Splice.swap_old, scan_relocate sp hwf, hold, ← hocc, List.map_map]; rfl)
    hne hstarts hback
    (by rw [← List.length_pos_iff, sp.length_swap_edits 0 0, List.length_pos_iff]; exact hchosen)
    (by rw [← hbwd, List.map_map, List.map_map]; rfl)
  rw [hold, hnew] at hf
  rw [Splice.swap_old, Splice.swap_new, hold, hnew] at hb
  exact ⟨hf.1, hb.1, hb.2⟩

end Resolutions

theorem FileOutcome.compute_plan_round_trip (l : Layout) (path : Path) (content : Bytes)
    (hsize : content.length < 2 ^ 63) :
    (FileOutcome.compute l ProbePlan.probe path content).Always fun o =>
      ∀ after, o.modified = true → o.content = some after → after.length < 2 ^ 63 →
        (∀ r ∈ o.replacements, Inert r.before ∧ Inert r.after) →
        Replay.RoundTrip path (o.replacements.map Replacement.record) content after := by
  refine ProbePlan.Always.imp (fun o ho => ?_) (FileOutcome.compute_cases l path content)
  intro after _ hcontent hsize' hinert
  rcases ho with rfl | ⟨rs, hocc, hans, rfl⟩
  · exact absurd hcontent (by simp)
  · exact FileOutcome.ofResolutions_replay hsize hsize' hocc hans hcontent hinert

/-- Whatever the existence checks answer, the replacements of a modified outcome replay both
    ways between the content and the outcome's, when the replaced specifiers and their
    replacements are inert. -/
theorem FileOutcome.compute_round_trip {m : Type → Type} [Monad m] [LawfulMonad m] (l : Layout)
    (exists? : Path → m Bool) (path : Path) (content : Bytes) (hsize : content.length < 2 ^ 63) :
    ∃ plan : ProbePlan FileOutcome, FileOutcome.compute l exists? path content = plan.run exists? ∧
      plan.Always fun o => ∀ after, o.modified = true → o.content = some after →
        after.length < 2 ^ 63 → (∀ r ∈ o.replacements, Inert r.before ∧ Inert r.after) →
        Replay.RoundTrip path (o.replacements.map Replacement.record) content after :=
  ⟨_, FileOutcome.compute_eq_run exists? l path content,
    FileOutcome.compute_plan_round_trip l path content hsize⟩

theorem FileOutcome.compute_round_trip_of_call :
    (Bytes.ofString "import('@/a')").length < 2 ^ 63 ∧
      ∃ plan : ProbePlan FileOutcome,
        FileOutcome.compute (m := Id)
            ⟨[⟨Bytes.ofString "@/", [Bytes.ofString "/src"]⟩], Bytes.ofString "/src",
              Bytes.ofString "/out"⟩
            (fun _ => pure true) (Bytes.ofString "/out/m.js") (Bytes.ofString "import('@/a')") =
          plan.run (fun _ => pure true) ∧
        plan.Always fun o => ∀ after, o.modified = true → o.content = some after →
          after.length < 2 ^ 63 → (∀ r ∈ o.replacements, Inert r.before ∧ Inert r.after) →
          Replay.RoundTrip (Bytes.ofString "/out/m.js") (o.replacements.map Replacement.record)
            (Bytes.ofString "import('@/a')") after :=
  ⟨by decide +kernel, FileOutcome.compute_round_trip _ _ _ _ (by decide +kernel)⟩

end Unalias
