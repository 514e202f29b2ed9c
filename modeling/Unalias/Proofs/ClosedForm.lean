import Unalias.Proofs.Position
import Unalias.Proofs.Separated
import Unalias.Proofs.Idempotence

/-! # The outcome of a file in one piece

The rewrite of a file runs in stages that each may end it: nothing is done for empty content, an
empty alias table or content without specifiers; the specifiers are then resolved in order, the
replacements made in one pass of edits, and the file counted as modified when its bytes changed.
`FileOutcome.expected` says the whole outcome at once. Walking the specifiers in order, each with
its resolution:

* one replacement for each specifier that an alias took, a module answered, and that changes: at
  the line and column of its start, its new bytes moved by what the replacements before it added;
* one unresolved entry for each specifier that an alias took and no module answered;
* the source file of the first specifier an alias took;
* the content with each replaced specifier substituted, written exactly when something was
  replaced.

The rewrite gives that outcome for every content, layout and existence check
(`FileOutcome.compute_eq_expected`). Three facts carry the proof. The cursor that finds lines and
columns is asked for increasing offsets (`collect_lists`). Where the edits put each new
specifier is where the ones before it moved it to (`Splice.swap_edits_offsets`). And a file with
a replacement always changes: the old specifiers hold no quote, so the new content has at least
as many quotes as the old, more when a new specifier holds one, and the first replaced specifier
otherwise differs from its replacement before the quote that closes both (`Splice.build_new_ne`).
-/

namespace Unalias

/-- Whether an alias took the specifier and no module was found for it. -/
def Resolution.Missing (r : Resolution) : Bool := r.Matched && !r.Resolved

/-- What a replacement adds to the length of the content. -/
def Replacement.growth (r : Replacement) : Int := r.after.length - r.before.length

/-- The replacement of an occurrence by the specifier its resolution gives, at the line and
    column of its start; its new offset is still to come. -/
def Replacement.atStart (content : Bytes) (p : Occurrence × Resolution) : Replacement :=
  { before := p.1.value, after := p.2.specifier, target := p.2.target,
    line := (lineColumn content p.1.start).1, column := (lineColumn content p.1.start).2,
    offset := p.1.start }

/-- An occurrence left as it is, at the line and column of its start. -/
def Unresolved.atStart (content : Bytes) (o : Occurrence) : Unresolved :=
  { specifier := o.value, line := (lineColumn content o.start).1,
    column := (lineColumn content o.start).2 }

namespace FileOutcome

/-- The outcome of content whose specifiers, in order, resolved as given. -/
def expectedOf (path content : Bytes) (rs : List (Occurrence × Resolution)) : FileOutcome :=
  let replaced := (rs.filter (·.2.Replaces)).map (Replacement.atStart content)
  let replacements := replaced.mapIdx fun i r =>
    { r with newOffset := r.offset + ((replaced.take i).map Replacement.growth).sum }
  let new := (Splice.ofResolutions content rs).new
  { path, oldSize := content.length,
    sourceFile := ((rs.find? (·.2.Matched)).map (·.2.sourceFile)).getD [],
    replacements,
    unresolved := (rs.filter (·.2.Missing)).map fun p => Unresolved.atStart content p.1,
    modified := !replacements.isEmpty,
    newSize := if replacements.isEmpty then content.length else new.length,
    content := if replacements.isEmpty then none else some new }

/-- The outcome of a file, said in one piece: nothing for empty content, an empty alias table or
    content without specifiers, and otherwise the outcome of its specifiers each resolved against
    the file. -/
def expected (l : Layout) (exists? : Path → Bool) (path content : Bytes) : FileOutcome :=
  if content = [] ∨ l.table = [] ∨ scan content = [] then
    { path, oldSize := content.length, newSize := content.length }
  else expectedOf path content (l.resolutions exists? path content)

end FileOutcome

section Collect

variable (content : Bytes)

/-- Collecting resolutions in order, with a cursor that has walked the content no further than
    their starts, records each replaced and each unresolved occurrence at the line and column of
    its start. -/
theorem collect_lists :
    ∀ (rs : List (Occurrence × Resolution)) (cur : LineCursor) (f : Findings), cur.Walked content →
      (∀ p ∈ rs, cur.offset ≤ p.1.start ∧ p.1.start ≤ content.length) →
      rs.Pairwise (fun p q => p.1.start ≤ q.1.start) → (∀ p ∈ rs, p.2.requested = p.1.value) →
      (collect content cur f rs).replacements =
          f.replacements.reverse ++ (rs.filter (·.2.Replaces)).map (Replacement.atStart content) ∧
        (collect content cur f rs).unresolved =
          f.unresolved.reverse ++
            (rs.filter (·.2.Missing)).map fun p => Unresolved.atStart content p.1
  | [], _, _, _, _, _, _ => by simp [collect]
  | (o, r) :: rs, cur, f, hcur, hbounds, hsorted, hreq => by
      obtain ⟨hlater, hsorted⟩ := List.pairwise_cons.mp hsorted
      have hreq' : ∀ p ∈ rs, p.2.requested = p.1.value :=
        fun p hp => hreq p (List.mem_cons_of_mem _ hp)
      rw [collect]
      by_cases hm : r.Matched = true
      · -- the cursor moves on to the occurrence's start and reports its line and column
        obtain ⟨hnear, hlen⟩ := hbounds (o, r) List.mem_cons_self
        obtain ⟨hpos, hwalked, hoffset⟩ := cur.locate_walked hcur hnear hlen
        have hbounds' : ∀ p ∈ rs, (cur.locate content o.start).2.offset ≤ p.1.start ∧
            p.1.start ≤ content.length := by
          intro p hp
          rw [hoffset]
          exact ⟨hlater p hp, (hbounds p (List.mem_cons_of_mem _ hp)).2⟩
        have hr : r.requested = o.value := hreq (o, r) List.mem_cons_self
        generalize cur.locate content o.start = res at hpos hwalked hbounds'
        obtain ⟨⟨line, column⟩, cur'⟩ := res
        simp only at hpos hwalked hbounds'
        have ih1 := fun g => (collect_lists rs cur' g hwalked hbounds' hsorted hreq').1
        have ih2 := fun g => (collect_lists rs cur' g hwalked hbounds' hsorted hreq').2
        simp only [hm, Bool.not_true, Bool.false_eq_true, if_false]
        -- taking the source file leaves the lists alone
        have hkept : ∀ g : Findings, (if g.sourceFile = [] then
            { g with sourceFile := r.sourceFile } else g).replacements = g.replacements ∧
            (if g.sourceFile = [] then
            { g with sourceFile := r.sourceFile } else g).unresolved = g.unresolved := by
          intro g
          split <;> exact ⟨rfl, rfl⟩
        by_cases hres : r.Resolved = true
        · by_cases hc : r.Changed = true
          · simp [ih1, ih2, hres, hc, Resolution.Replaces, Resolution.Missing, hm,
              Replacement.atStart, ← hpos, hr, (hkept f).1, (hkept f).2]
          · simp [ih1, ih2, hres, hc, Resolution.Replaces, Resolution.Missing, hm, (hkept f).1,
              (hkept f).2]
        · simp [ih1, ih2, hres, Resolution.Replaces, Resolution.Missing, hm,
            Unresolved.atStart, ← hpos, (hkept f).1, (hkept f).2]
      · obtain ⟨h1, h2⟩ := collect_lists rs cur f hcur
          (fun p hp => hbounds p (List.mem_cons_of_mem _ hp)) hsorted hreq'
        simp [h1, h2, hm, Resolution.Replaces, Resolution.Missing]

/-- With no source file among the resolutions, none is found first. -/
theorem firstSource_eq_nil {rs : List (Occurrence × Resolution)}
    (hnil : ∀ p ∈ rs, p.2.Matched = true → p.2.sourceFile = []) :
    ((rs.find? (·.2.Matched)).map (·.2.sourceFile)).getD [] = [] := by
  cases h : rs.find? (·.2.Matched) with
  | none => rfl
  | some p => exact hnil p (List.mem_of_find?_eq_some h) (by simpa using List.find?_some h)

/-- Collecting records the source file of the first resolution an alias took, when all such
    resolutions name one source file and none was recorded before. -/
theorem collect_sourceFile {s : Path} :
    ∀ (rs : List (Occurrence × Resolution)) (cur : LineCursor) (f : Findings),
      (∀ p ∈ rs, p.2.Matched = true → p.2.sourceFile = s) →
      (collect content cur f rs).sourceFile =
        if f.sourceFile = [] then ((rs.find? (·.2.Matched)).map (·.2.sourceFile)).getD []
        else f.sourceFile
  | [], _, f, _ => by by_cases hf : f.sourceFile = [] <;> simp [collect, hf]
  | (o, r) :: rs, cur, f, hsame => by
      have hsame' : ∀ p ∈ rs, p.2.Matched = true → p.2.sourceFile = s :=
        fun p hp => hsame p (List.mem_cons_of_mem _ hp)
      rw [collect]
      by_cases hm : r.Matched = true
      · generalize cur.locate content o.start = res
        obtain ⟨⟨line, column⟩, cur'⟩ := res
        have ih := fun g => collect_sourceFile rs cur' g hsame'
        have hr : r.sourceFile = s := hsame (o, r) List.mem_cons_self hm
        -- a first source file that is empty leaves the later ones, all equal to it, empty
        have hlater : r.sourceFile = [] →
            ((rs.find? (·.2.Matched)).map (·.2.sourceFile)).getD [] = [] := by
          intro hnil
          exact firstSource_eq_nil fun p hp hpm => (hsame' p hp hpm).trans (hr.symm.trans hnil)
        by_cases hf : f.sourceFile = []
        · by_cases hrs : r.sourceFile = []
          · simp [hm, hf, hrs, ih, hlater hrs, apply_ite Findings.sourceFile]
          · simp [hm, hf, hrs, ih, apply_ite Findings.sourceFile]
        · simp [hm, hf, ih, apply_ite Findings.sourceFile]
      · have ih := collect_sourceFile rs cur f hsame'
        simp [hm, ih]

end Collect

/-- Whatever the existence checks answer, a specifier an alias took is resolved from the source
    file of the compiled file. -/
theorem Layout.resolve_sourceFile (l : Layout) (specifier : Bytes) (outputFile : Path) :
    (l.resolve ProbePlan.probe specifier outputFile).Always fun r =>
      r.Matched = true → r.sourceFile = l.sourceOf outputFile := by
  unfold Layout.resolve
  cases l.table.match? specifier with
  | none => exact ProbePlan.Always.pure (by simp [Resolution.Matched])
  | some e =>
      refine ProbePlan.Always.bind (ProbePlan.Always.of_true _) fun found _ => ?_
      cases found with
      | some mf => exact ProbePlan.Always.pure fun _ => rfl
      | none => exact ProbePlan.Always.pure fun _ => rfl

theorem Layout.resolutions_sourceFile (l : Layout) (exists? : Path → Bool) (path content : Bytes) :
    ∀ p ∈ l.resolutions exists? path content, p.2.Matched = true → p.2.sourceFile = l.sourceOf path := by
  intro p hp
  obtain ⟨o, -, rfl⟩ := List.mem_map.mp hp
  rw [Layout.resolve_pure]
  exact (l.resolve_sourceFile o.value path).eval exists?

section Offsets

/-- Each edit's offset moved by `d` and by what the edits before it added. -/
def shiftedOffsets : Int → List Edit → List Int
  | _, [] => []
  | d, e :: es => (e.offset + d) :: shiftedOffsets (d + e.new.length - e.old.length) es

/-- The edits back of a splice stand where its edits wrote: at each old offset, moved by what the
    regions before it grew. -/
theorem Splice.swap_edits_offsets : ∀ (sp : Splice) (base written : Nat),
    (sp.swap.edits written).map (fun e => (e.offset.toNat : Int)) =
      shiftedOffsets ((written : Int) - base) (sp.edits base)
  | .tail _, _, _ => rfl
  | .region g v w r, base, written => by
      simp only [Splice.swap, Splice.edits, List.map_cons, shiftedOffsets, Int.toNat_natCast]
      rw [Splice.swap_edits_offsets r (base + g.length + v.length) (written + g.length + w.length)]
      congr 2
      · push_cast
        omega
      · push_cast
        omega

/-- Replacements paired with the offsets at which their edits wrote, each moved by `d` and by
    what the replacements before it added, are the replacements with those new offsets. -/
theorem zip_shiftedOffsets : ∀ (reps : List Replacement) (d : Int) (offsets : List Nat),
    offsets.map (fun n : Nat => (n : Int)) =
        shiftedOffsets d (reps.map fun r => ⟨r.offset, r.before, r.after⟩) →
      (reps.zip offsets).map (fun x : Replacement × Nat => { x.1 with newOffset := (x.2 : Int) }) =
        reps.mapIdx fun i r =>
          { r with newOffset := r.offset + (d + ((reps.take i).map Replacement.growth).sum) }
  | [], _, _, _ => by simp
  | r :: reps, d, offsets, h => by
      obtain ⟨n, offsets, rfl⟩ : ∃ n rest, offsets = n :: rest := by
        cases offsets with
        | nil => simp [shiftedOffsets] at h
        | cons n rest => exact ⟨n, rest, rfl⟩
      simp only [List.map_cons, shiftedOffsets, List.cons.injEq] at h
      obtain ⟨hn, hrest⟩ := h
      rw [List.zip_cons_cons, List.map_cons, List.mapIdx_cons,
        zip_shiftedOffsets reps _ offsets hrest]
      congr 1
      · simp [hn]
      · congr 1
        funext i r'
        simp only [List.take_succ_cons, List.map_cons, List.sum_cons, Replacement.growth]
        congr 1
        omega

end Offsets

section Changes

/-- Counting bytes across a splice: the new content has the old content's, less those of the
    regions as they were, plus those of the regions as they become. -/
theorem Splice.countP_new (P : UInt8 → Bool) : ∀ (sp : Splice) (base : Nat),
    sp.new.countP P + ((sp.edits base).flatMap (·.old)).countP P =
      sp.old.countP P + ((sp.edits base).flatMap (·.new)).countP P
  | .tail _, _ => by simp [Splice.new, Splice.old, Splice.edits]
  | .region g v w r, base => by
      have := Splice.countP_new P r (base + g.length + v.length)
      simp only [Splice.new, Splice.old, Splice.edits, List.flatMap_cons, List.countP_append]
      omega

/-- The new content of a splice of placed occurrences, each of which starts past `last`, starts
    as the content from `last` on does. -/
theorem Splice.build_new_head {content : Bytes} :
    ∀ {last : Nat} {ps : List (Occurrence × Bytes)},
      Occurrence.Placed content last (ps.map Prod.fst) → (∀ p ∈ ps, last < p.1.start) →
        (Splice.build content last ps).new.head? = (content.drop last).head?
  | _, [], _, _ => rfl
  | last, (o, w) :: ps, h, hafter => by
      obtain ⟨-, hsits, -⟩ : last ≤ o.start ∧ o.SitsIn content ∧
          Occurrence.Placed content o.stop (ps.map Prod.fst) := h
      have hlt : last < o.start := hafter (o, w) List.mem_cons_self
      -- the gap before the first region is not empty
      obtain ⟨b, t, hbt⟩ : ∃ b t, content.drop last = b :: t := by
        apply List.exists_cons_of_ne_nil
        have := hsits.stop_le
        have := hsits.stop_eq
        simp only [ne_eq, List.drop_eq_nil_iff, Nat.not_le]
        omega
      simp only [Splice.build, Splice.new]
      rw [List.append_assoc, List.head?_append, List.head?_take, if_neg (by omega), hbt]
      rfl

/-- Two runs without quotes, each followed by one quote, that read the same are the same. -/
theorem eq_of_append_quote {v w x y : Bytes} {q : UInt8} (hq : IsQuote q = true)
    (hv : ∀ b ∈ v, IsQuote b = false) (hw : ∀ b ∈ w, IsQuote b = false)
    (h : v ++ q :: x = w ++ q :: y) : v = w := by
  rw [← @takeWhile_unquoted_append v x q hv hq, h, takeWhile_unquoted_append hw hq]

/-- Replacing quoted occurrences that lie apart, each by other bytes, changes the content. If it
    did not, no new bytes could hold a quote, as the old ones hold none and the count of quotes
    would grow; then the first occurrence and its replacement, both followed by the quote that
    closed the occurrence, would be equal. -/
theorem Splice.build_new_ne {content : Bytes} {ps : List (Occurrence × Bytes)} (hps : ps ≠ [])
    (hplaced : Occurrence.Placed content 0 (ps.map Prod.fst))
    (hsep : (ps.map Prod.fst).Pairwise fun a b => a.stop < b.start)
    (hquoted : ∀ p ∈ ps, p.1.Quoted content) (hne : ∀ p ∈ ps, p.2 ≠ p.1.value) :
    (Splice.build content 0 ps).new ≠ content := by
  intro heq
  have hold : (Splice.build content 0 ps).old = content := by
    rw [Splice.build_old hplaced, List.drop_zero]
  have hcount := Splice.countP_new IsQuote (Splice.build content 0 ps) 0
  rw [Splice.build_edits hplaced, heq, hold] at hcount
  have holds : ((ps.map fun p => (⟨p.1.start, p.1.value, p.2⟩ : Edit)).flatMap
      (·.old)).countP IsQuote = 0 := by
    rw [List.countP_eq_zero]
    intro b hb
    obtain ⟨e, he, hb⟩ := List.mem_flatMap.mp hb
    obtain ⟨p, hp, rfl⟩ := List.mem_map.mp he
    simp [(hquoted p hp).unquoted b hb]
  have hnews := List.countP_eq_zero.mp (show ((ps.map fun p => (⟨p.1.start, p.1.value, p.2⟩ : Edit)).flatMap
      (·.new)).countP IsQuote = 0 by omega)
  obtain ⟨⟨o, w⟩, ps, rfl⟩ := List.exists_cons_of_ne_nil hps
  have hw : ∀ b ∈ w, IsQuote b = false := by
    intro b hb
    simpa using hnews b (List.mem_flatMap.mpr ⟨⟨o.start, o.value, w⟩, List.mem_cons_self, hb⟩)
  obtain ⟨-, hsits, hrest⟩ : 0 ≤ o.start ∧ o.SitsIn content ∧
      Occurrence.Placed content o.stop (ps.map Prod.fst) := hplaced
  -- the bytes after the first region, old and new, start with the quote that closed it
  obtain ⟨q, hq, hquote⟩ := (hquoted (o, w) List.mem_cons_self).closes
  have hafter : ∀ p ∈ ps, o.stop < p.1.start := by
    intro p hp
    exact List.rel_of_pairwise_cons hsep (List.mem_map_of_mem hp)
  have hrold : (Splice.build content o.stop ps).old = content.drop o.stop := Splice.build_old hrest
  have hdrop : ∃ t, content.drop o.stop = q :: t := by
    rw [← List.head?_eq_some_iff, List.head?_drop, hq]
  obtain ⟨t, ht⟩ := hdrop
  obtain ⟨t', ht'⟩ : ∃ t', (Splice.build content o.stop ps).new = q :: t' := by
    rw [← List.head?_eq_some_iff, Splice.build_new_head hrest hafter, ht]
    rfl
  have hsame : w ++ q :: t' = o.value ++ q :: t := by
    have h := heq.trans hold.symm
    simp only [Splice.build, Splice.new, Splice.old, List.append_assoc] at h
    rw [← ht', ← ht, ← hrold]
    exact List.append_cancel_left h
  exact hne (o, w) List.mem_cons_self
    (eq_of_append_quote hquote hw (hquoted (o, w) List.mem_cons_self).unquoted hsame)

end Changes

section Assembly

/-- With an existence check that answers at once, the outcome of a file is the plain one when
    there is nothing to do, and otherwise the outcome of its specifiers' resolutions. -/
theorem FileOutcome.compute_pure_eq (l : Layout) (exists? : Path → Bool) (path content : Bytes) :
    FileOutcome.compute (m := Id) l (fun p => pure (exists? p)) path content =
      if content = [] ∨ l.table = [] ∨ scan content = [] then
        { path, oldSize := content.length, newSize := content.length }
      else FileOutcome.ofResolutions path content (l.resolutions exists? path content) := by
  unfold FileOutcome.compute
  by_cases hfirst : content = [] ∨ l.table = []
  · rw [if_pos (by rcases hfirst with h | h <;> simp [h]), if_pos (hfirst.imp_right Or.inl)]
    rfl
  rw [if_neg (by simpa [not_or] using hfirst)]
  dsimp only
  by_cases hscan : scan content = []
  · rw [if_pos (by simp [hscan]), if_pos (Or.inr (Or.inr hscan))]
    rfl
  rw [if_neg (by simpa using hscan),
    if_neg fun h => h.elim (fun h => hfirst (.inl h)) (·.elim (fun h => hfirst (.inr h)) hscan)]
  -- binding in the identity monad is application, and so mapping there is a plain map
  show FileOutcome.ofResolutions path content (List.mapM (m := Id) _ (scan content)).run = _
  congr 1
  exact List.idRun_mapM

/-- Resolutions taken for the scanner's occurrences in order, each answering its occurrence's
    value, and all naming one source file where an alias took the specifier, give the outcome
    said in one piece. -/
theorem FileOutcome.ofResolutions_eq_expectedOf {path content : Bytes}
    {rs : List (Occurrence × Resolution)} {s : Path} (hsize : content.length < 2 ^ 63)
    (hocc : rs.map Prod.fst = scan content) (hans : ∀ p ∈ rs, p.2.Answers p.1.value)
    (hsame : ∀ p ∈ rs, p.2.Matched = true → p.2.sourceFile = s) :
    FileOutcome.ofResolutions path content rs = FileOutcome.expectedOf path content rs := by
  have hreq : ∀ p ∈ rs, p.2.requested = p.1.value := fun p hp => (hans p hp).1
  have hmem : ∀ p ∈ rs, p.1 ∈ scan content := fun p hp => hocc ▸ List.mem_map_of_mem hp
  have hsits : ∀ p ∈ rs, p.1.SitsIn content := fun p hp =>
    (scan_placed content).sitsIn p.1 (hmem p hp)
  -- the scanner's occurrences lie apart, in order, inside the content
  have hsep : rs.Pairwise fun p q => p.1.stop < q.1.start := by
    have := scan_separated content
    rwa [← hocc, List.pairwise_map] at this
  have hsorted : rs.Pairwise fun p q => p.1.start ≤ q.1.start := by
    refine hsep.imp_of_mem fun {p q} hp _ h => ?_
    have := (hsits p hp).stop_eq
    omega
  have hbounds : ∀ p ∈ rs, ({} : LineCursor).offset ≤ p.1.start ∧ p.1.start ≤ content.length := by
    intro p hp
    have := (hsits p hp).stop_le
    have := (hsits p hp).stop_eq
    exact ⟨Nat.zero_le _, by omega⟩
  obtain ⟨hreps, hunres⟩ :=
    collect_lists content rs {} {} (LineCursor.walked_start content) hbounds hsorted hreq
  have hsrc := collect_sourceFile content rs {} {} hsame
  simp only [List.reverse_nil, List.nil_append] at hreps hunres
  rw [if_pos rfl] at hsrc
  unfold FileOutcome.ofResolutions FileOutcome.expectedOf
  simp only [hreps, hunres, hsrc]
  by_cases hnil : rs.filter (·.2.Replaces) = []
  · simp [hnil]
  -- the edits are those of the splice, which apply and change the content
  have hedits := collect_edits_splice hocc hans
  rw [hreps] at hedits
  have hold := Splice.ofResolutions_old hocc
  have happly := (Splice.ofResolutions content rs).applyEdits_edits (by rw [hold]; exact hsize)
  rw [hold] at happly
  have hnew : (Splice.ofResolutions content rs).new ≠ content := by
    apply Splice.build_new_ne (by simpa using hnil) (Splice.ofResolutions_placed hocc)
    · simp only [List.map_map, List.pairwise_map, Function.comp_apply]
      exact hsep.sublist List.filter_sublist
    · intro p hp
      obtain ⟨q, hq, rfl⟩ := List.mem_map.mp hp
      exact scan_quoted content q.1 (hmem q (List.mem_of_mem_filter hq))
    · intro p hp
      obtain ⟨q, hq, rfl⟩ := List.mem_map.mp hp
      obtain ⟨hqrs, hrep⟩ := List.mem_filter.mp hq
      simp only [Resolution.Replaces, Resolution.Changed, Bool.and_eq_true, bne_iff_ne] at hrep
      rw [← hreq q hqrs]
      exact hrep.2
  -- each new offset is the old one moved by what the replacements before it added
  have hoffsets := Splice.swap_edits_offsets (Splice.ofResolutions content rs) 0 0
  rw [← hedits, Int.sub_self] at hoffsets
  have hzip := zip_shiftedOffsets ((rs.filter (·.2.Replaces)).map (Replacement.atStart content)) 0
    (((Splice.ofResolutions content rs).swap.edits 0).map (·.offset.toNat))
    (by rw [List.map_map]; exact hoffsets)
  simp only [Int.zero_add] at hzip
  rw [hedits, happly]
  simp only [hnew, if_false, hzip]
  simp [hnil]

/-- The rewrite of a file gives the outcome said in one piece, for every layout, every existence
    check that answers at once, every file and all content no longer than the largest word. -/
theorem FileOutcome.compute_eq_expected (l : Layout) (exists? : Path → Bool) (path content : Bytes)
    (hsize : content.length < 2 ^ 63) :
    FileOutcome.compute (m := Id) l (fun p => pure (exists? p)) path content =
      FileOutcome.expected l exists? path content := by
  rw [FileOutcome.compute_pure_eq, FileOutcome.expected]
  split
  · rfl
  · exact FileOutcome.ofResolutions_eq_expectedOf hsize (l.resolutions_fst exists? path content)
      (l.resolutions_answers exists? path content) (l.resolutions_sourceFile exists? path content)

theorem FileOutcome.compute_eq_expected_of_import :
    (Bytes.ofString "import a from '@/a';\nrequire('@/b')").length < 2 ^ 63 ∧
      FileOutcome.compute (m := Id)
          ⟨[⟨Bytes.ofString "@/", [Bytes.ofString "/src"]⟩], Bytes.ofString "/src",
            Bytes.ofString "/out"⟩
          (fun p => pure (p == Bytes.ofString "/src/a.js")) (Bytes.ofString "/out/m.js")
          (Bytes.ofString "import a from '@/a';\nrequire('@/b')") =
        FileOutcome.expected
          ⟨[⟨Bytes.ofString "@/", [Bytes.ofString "/src"]⟩], Bytes.ofString "/src",
            Bytes.ofString "/out"⟩
          (fun p => p == Bytes.ofString "/src/a.js") (Bytes.ofString "/out/m.js")
          (Bytes.ofString "import a from '@/a';\nrequire('@/b')") :=
  ⟨by decide +kernel, FileOutcome.compute_eq_expected _ _ _ _ (by decide +kernel)⟩

end Assembly

end Unalias
