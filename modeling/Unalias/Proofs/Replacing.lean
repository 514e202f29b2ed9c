import Mathlib.Data.List.Pairwise
import Unalias.Proofs.Separated

/-! # Rescanning after replacing specifiers

The search of each form walks a splice of quoted regions in step with its old content
(`Splice.findAll_place`). No two matches start together, in the old content or in the new, and
moving keeps the order of positions, so sorting the matches by start commutes with placing them:
once the specifiers of the regions are replaced, the scanner finds exactly the specifiers it found
before, placed (`Splice.scan_place`). On a well-formed splice placing is relocating
(`scan_relocate`).

Replacing some of the specifiers the scanner found, each inert one by an inert specifier, by the
edits that put each new value at its occurrence's start, is making such a splice. The scanner
then finds the same specifiers in the result: each moved by what the replaced ones before it
added, the replaced ones with their new value (`scan_after_replacing`).
-/

namespace Unalias

/-- An occurrence moved past content that comes before it sits in the content after it. -/
theorem Occurrence.SitsIn.of_shift {pre rest : Bytes} {o : Occurrence}
    (h : (o.shift pre.length).SitsIn (pre ++ rest)) : o.SitsIn rest where
  stop_eq := by
    have := h.stop_eq
    simp only [Occurrence.shift] at this
    omega
  stop_le := by
    have := h.stop_le
    simp only [Occurrence.shift, List.length_append] at this
    omega
  value_eq := by
    have := h.value_eq
    simp only [Occurrence.shift] at this
    rwa [Nat.add_comm, List.drop_length_add_append] at this

/-- An occurrence moved past content that comes before it, between quotes, lies between quotes
    of the content after it, unless it starts that content. -/
theorem Occurrence.Quoted.of_shift {pre rest : Bytes} {o : Occurrence}
    (h : (o.shift pre.length).Quoted (pre ++ rest)) (hpos : 0 < o.start) : o.Quoted rest where
  start_pos := hpos
  opens := by
    obtain ⟨q, hq, hquote⟩ := h.opens
    refine ⟨q, ?_, hquote⟩
    simp only [Occurrence.shift] at hq
    rwa [List.getElem?_append_right (by omega),
      show o.start + pre.length - 1 - pre.length = o.start - 1 by omega] at hq
  closes := by
    obtain ⟨q, hq, hquote⟩ := h.closes
    refine ⟨q, ?_, hquote⟩
    simp only [Occurrence.shift] at hq
    rwa [List.getElem?_append_right (by omega), Nat.add_sub_cancel] at hq
  unquoted := h.unquoted

/-- A run without quotes that a quote ends, read at the start of bytes that hold such a run and
    then a quote, is that run. -/
theorem eq_of_unquoted_run {q : UInt8} (t : Bytes) (hq : IsQuote q = true) :
    ∀ {v value : Bytes}, (∀ b ∈ v, IsQuote b = false) → (∀ b ∈ value, IsQuote b = false) →
      (v ++ q :: t).take value.length = value →
      (∃ q', (v ++ q :: t)[value.length]? = some q' ∧ IsQuote q' = true) → value = v
  | [], [], _, _, _, _ => rfl
  | [], b :: value, _, hvalue, htake, _ => by
    -- a longer run would hold the quote
    simp only [List.nil_append, List.length_cons, List.take_succ_cons, List.cons.injEq] at htake
    have := hvalue b List.mem_cons_self
    rw [← htake.1, hq] at this
    cases this
  | c :: v, [], hv, _, _, ⟨q', hq', hquote⟩ => by
    -- a shorter run would stop on a byte of the other
    simp only [List.cons_append, List.length_nil, List.getElem?_cons_zero, Option.some.injEq] at hq'
    have := hv c List.mem_cons_self
    rw [hq', hquote] at this
    cases this
  | c :: v, b :: value, hv, hvalue, htake, hend => by
    simp only [List.cons_append, List.length_cons, List.take_succ_cons, List.cons.injEq] at htake
    obtain ⟨rfl, htake⟩ := htake
    rw [eq_of_unquoted_run t hq (fun x hx => hv x (List.mem_cons_of_mem _ hx))
      (fun x hx => hvalue x (List.mem_cons_of_mem _ hx)) htake (by simpa using hend)]

namespace Splice

/-- Rescanning: once the inert specifiers of a splice of quoted regions are replaced, the scanner
    finds exactly the specifiers it found before, each placed in the new content. -/
theorem scan_place (sp : Splice) (hq : sp.QuotedRegions) :
    scan sp.new = (scan sp.old).map sp.place := by
  have hforms : ∀ f ∈ SpecifierForm.all,
      f.findAll 0 sp.new = (f.findAll 0 sp.old).map sp.place := fun f hf => by
    simpa using findAll_place hf sp hq 0 sp.reach_zero
  have hfound : foundMatches sp.new = (foundMatches sp.old).map sp.place := by
    unfold foundMatches
    rw [List.map_flatMap]
    unfold List.flatMap
    rw [List.map_congr_left hforms]
  -- the new content's matches start apart, so placing keeps two matches' starts apart
  have hapart : ∀ a ∈ foundMatches sp.old, ∀ b ∈ foundMatches sp.old, a ≠ b →
      sp.move a.start ≠ sp.move b.start := by
    have hne := foundMatches_starts_ne sp.new
    rw [hfound, List.pairwise_map] at hne
    have : Std.Symm fun a b : Occurrence => (sp.place a).start ≠ (sp.place b).start :=
      ⟨fun _ _ h => Ne.symm h⟩
    exact fun a ha b hb hab => hne.forall ha hb hab
  have hsort : ((foundMatches sp.old).map sp.place).mergeSort (fun a b => a.start ≤ b.start) =
      ((foundMatches sp.old).mergeSort fun a b => a.start ≤ b.start).map sp.place := by
    refine (List.map_mergeSort fun a ha b hb => ?_).symm
    rw [decide_eq_decide]
    simp only [place]
    refine ⟨sp.move_mono, fun hle => ?_⟩
    by_cases hab : a = b
    · exact hab ▸ Nat.le_refl a.start
    · refine Nat.le_of_not_lt fun hlt => hapart a ha b hb hab ?_
      have := sp.move_mono (Nat.le_of_lt hlt)
      omega
  rw [scan_eq_sortedMatches, scan_eq_sortedMatches]
  unfold sortedMatches
  rw [hfound, hsort]

/-- On a well-formed splice, relocating an occurrence that sits between quotes of the old
    content places it: its stop moves to where its new value ends. -/
theorem relocate_eq_place : ∀ {sp : Splice}, sp.WellFormed → ∀ {o : Occurrence},
    o.SitsIn sp.old → o.Quoted sp.old → sp.relocate o = sp.place o
  | tail _, _, _, hsits, _ => by simp only [relocate, place, move, newValue, ← hsits.stop_eq]
  | region g v w r, hwf, o, hsits, hq => by
    obtain ⟨⟨g', qg, hg, hqg⟩, hvne, -, hv, -, ⟨q', t, hr, hq'⟩, hwfr⟩ := hwf
    have hstop := hsits.stop_eq
    have hold : (region g v w r).old = g ++ (v ++ q' :: t) := by simp [old, hr]
    rcases Nat.lt_trichotomy o.start g.length with hlt | heq | hgt
    · -- in the gap, the quote that ends the gap ends the value
      have hin : o.stop < g.length := by
        refine Nat.lt_of_not_le fun hge => ?_
        have hat := hsits.getElem? (show g.length - 1 - o.start < o.value.length by omega)
        have hlast : g.length - 1 = g'.length := by simp [hg]
        rw [show o.start + (g.length - 1 - o.start) = g.length - 1 by omega, hold, hlast, hg,
          List.append_assoc, List.getElem?_append_right (Nat.le_refl _), Nat.sub_self,
          List.singleton_append, List.getElem?_cons_zero] at hat
        have := hq.unquoted qg (List.mem_of_getElem? hat.symm)
        rw [hqg] at this
        cases this
      rw [relocate_gap hin (by omega), place_gap hlt hstop]
    · -- at the region, the value is the region's old side
      have hvalue : o.value = v := by
        obtain ⟨qq, hqq, hquote⟩ := hq.closes
        refine eq_of_unquoted_run t hq' hv.unquoted hq.unquoted ?_ ⟨qq, ?_, hquote⟩
        · have := hsits.value_eq
          rwa [hold, heq, List.drop_left] at this
        · rwa [hstop, hold, heq, List.getElem?_append_right (by omega), Nat.add_sub_cancel_left]
            at hqq
      obtain ⟨start, stop, value, kind⟩ := o
      simp only at heq hvalue hstop
      subst heq hvalue hstop
      rw [relocate_region hvne, place_region]
    · -- past the region: its opening quote lies past the region, which holds no quote
      obtain ⟨qq, hqq, hquote⟩ := hq.opens
      have hpast : (g ++ v).length < o.start := by
        refine Nat.lt_of_not_le fun hle => ?_
        rw [List.length_append] at hle
        rw [hold, List.getElem?_append_right (by omega), List.getElem?_append_left (by omega)]
          at hqq
        have := hv.unquoted qq (List.mem_of_getElem? hqq)
        rw [hquote] at this
        cases this
      obtain ⟨o', rfl⟩ : ∃ o' : Occurrence, o = o'.shift (g ++ v).length := by
        refine ⟨⟨o.start - (g ++ v).length, o.stop - (g ++ v).length, o.value, o.kind⟩, ?_⟩
        obtain ⟨start, stop, value, kind⟩ := o
        simp only at hpast hstop
        simp only [Occurrence.shift, Occurrence.mk.injEq]
        exact ⟨by omega, by omega, trivial, trivial⟩
      have hpos : 0 < o'.start := by
        simp only [Occurrence.shift] at hpast
        omega
      rw [show (region g v w r).old = (g ++ v) ++ r.old by simp [old]] at hsits hq
      rw [List.length_append, relocate_shift hvne, place_shift hpos,
        relocate_eq_place hwfr hsits.of_shift (hq.of_shift hpos)]

end Splice

/-- Rescanning a well-formed splice: the scanner finds exactly the specifiers it found before,
    each relocated. -/
theorem scan_relocate (sp : Splice) (hwf : sp.WellFormed) :
    scan sp.new = (scan sp.old).map sp.relocate := by
  rw [Splice.scan_place sp hwf.quotedRegions]
  apply List.map_congr_left
  intro o ho
  exact (Splice.relocate_eq_place hwf ((scan_placed sp.old).sitsIn o ho)
    (scan_quoted sp.old o ho)).symm

/-- The occurrences to replace, each with its new value. -/
def replacementsOf (new : Occurrence → Option Bytes) (os : List Occurrence) :
    List (Occurrence × Bytes) :=
  os.filterMap fun o => (new o).map (o, ·)

/-- What the replaced occurrences among `os` that start before position `p` added to the
    content. -/
def growthBefore (new : Occurrence → Option Bytes) (os : List Occurrence) (p : Nat) : Int :=
  ((os.filter (·.start < p)).map fun o =>
    ((new o).map fun w => (w.length : Int) - o.value.length).getD 0).sum

/-- An occurrence of `os` once the occurrences of `os` are replaced, each by its new value if it
    has one: its start moved by what the replaced occurrences before it added, its own new value
    if it has one, and its stop after that value. -/
def Occurrence.afterReplacing (new : Occurrence → Option Bytes) (os : List Occurrence)
    (o : Occurrence) : Occurrence :=
  { o with start := (o.start + growthBefore new os o.start).toNat,
           stop := (o.start + growthBefore new os o.start).toNat + ((new o).getD o.value).length,
           value := (new o).getD o.value }

section Replacements

variable {new : Occurrence → Option Bytes}

theorem replacementsOf_cons_none {o : Occurrence} {os : List Occurrence} (h : new o = none) :
    replacementsOf new (o :: os) = replacementsOf new os := by
  simp [replacementsOf, h]

theorem replacementsOf_cons_some {o : Occurrence} {os : List Occurrence} {w : Bytes}
    (h : new o = some w) : replacementsOf new (o :: os) = (o, w) :: replacementsOf new os := by
  simp [replacementsOf, h]

theorem mem_replacementsOf {os : List Occurrence} {p : Occurrence × Bytes} :
    p ∈ replacementsOf new os ↔ p.1 ∈ os ∧ new p.1 = some p.2 := by
  constructor
  · intro h
    obtain ⟨o, ho, hp⟩ := List.mem_filterMap.mp h
    obtain ⟨w, hw, rfl⟩ := Option.map_eq_some_iff.mp hp
    exact ⟨ho, hw⟩
  · rintro ⟨ho, hw⟩
    exact List.mem_filterMap.mpr ⟨p.1, ho, by rw [hw]; rfl⟩

theorem replacementsOf_sublist :
    ∀ os : List Occurrence, ((replacementsOf new os).map Prod.fst).Sublist os
  | [] => List.Sublist.slnil
  | o :: os => by
    cases h : new o with
    | none =>
      rw [replacementsOf_cons_none h]
      exact (replacementsOf_sublist os).cons o
    | some w =>
      rw [replacementsOf_cons_some h, List.map_cons]
      exact (replacementsOf_sublist os).cons_cons o

theorem edits_replacementsOf (os : List Occurrence) :
    (replacementsOf new os).map (fun p => (⟨p.1.start, p.1.value, p.2⟩ : Edit)) =
      os.filterMap fun o => (new o).map fun w => ⟨o.start, o.value, w⟩ := by
  simp only [replacementsOf, List.map_filterMap, Option.map_map]
  rfl

theorem growthBefore_cons (o : Occurrence) (os : List Occurrence) (p : Nat) :
    growthBefore new (o :: os) p =
      (if o.start < p then ((new o).map fun w => (w.length : Int) - o.value.length).getD 0
        else 0) + growthBefore new os p := by
  unfold growthBefore
  by_cases h : o.start < p <;> simp [h]

theorem growthBefore_eq_zero {os : List Occurrence} {p : Nat} (h : ∀ o ∈ os, p ≤ o.start) :
    growthBefore new os p = 0 := by
  unfold growthBefore
  rw [List.filter_eq_nil_iff.mpr fun o ho => by simpa using h o ho]
  rfl

end Replacements

namespace Splice

section Build

variable {content : Bytes}

/-- The splice that replaces quoted inert specifiers, each stopping before the next starts, by
    inert specifiers has quoted regions. -/
theorem build_quotedRegions : ∀ {last : Nat} {ps : List (Occurrence × Bytes)},
    Occurrence.Placed content last (ps.map Prod.fst) →
    (ps.map Prod.fst).Pairwise (fun o o' => o.stop < o'.start) → (∀ p ∈ ps, last < p.1.start) →
    (∀ p ∈ ps, p.1.Quoted content ∧ Inert p.1.value ∧ Inert p.2) →
      (build content last ps).QuotedRegions
  | _, [], _, _, _, _ => trivial
  | last, (o, w) :: ps, h, hsep, hlast, hps => by
    obtain ⟨-, -, hrest⟩ : last ≤ o.start ∧ o.SitsIn content ∧
        Occurrence.Placed content o.stop (ps.map Prod.fst) := h
    obtain ⟨hquoted, hv, hw⟩ := hps (o, w) List.mem_cons_self
    obtain ⟨hafter, hsep⟩ := List.pairwise_cons.mp hsep
    obtain ⟨q, hq, hquote⟩ := hquoted.opens
    obtain ⟨q', hq', hquote'⟩ := hquoted.closes
    refine ⟨⟨_, q, build_gap_eq (hlast (o, w) List.mem_cons_self) hq, hquote⟩, hv, hw,
      ⟨q', _, by rw [build_old hrest, drop_eq_cons hq'], hquote'⟩, ?_⟩
    -- the later occurrences start past this one's stop
    exact build_quotedRegions hrest hsep (fun p hp => hafter p.1 (List.mem_map_of_mem hp))
      fun p hp => hps p (List.mem_cons_of_mem _ hp)

/-- Up to the first replaced occurrence nothing moves. -/
theorem build_move_le : ∀ {last s : Nat} {ps : List (Occurrence × Bytes)},
    Occurrence.Placed content last (ps.map Prod.fst) → (∀ p ∈ ps, last + s ≤ p.1.start) →
      (build content last ps).move s = s
  | _, _, [], _, _ => rfl
  | last, s, (o, w) :: ps, h, hs => by
    obtain ⟨hle, hsits, -⟩ : last ≤ o.start ∧ o.SitsIn content ∧
        Occurrence.Placed content o.stop (ps.map Prod.fst) := h
    have hfirst : last + s ≤ o.start := hs (o, w) List.mem_cons_self
    simp only [build, move, build_gap_length hle hsits]
    rw [if_pos (by omega)]

/-- Before the first replaced occurrence every value stays. -/
theorem build_newValue_lt : ∀ {last s : Nat} {ps : List (Occurrence × Bytes)},
    Occurrence.Placed content last (ps.map Prod.fst) → (∀ p ∈ ps, last + s < p.1.start) →
      ∀ value, (build content last ps).newValue s value = value
  | _, _, [], _, _, _ => rfl
  | last, s, (o, w) :: ps, h, hs, value => by
    obtain ⟨hle, hsits, -⟩ : last ≤ o.start ∧ o.SitsIn content ∧
        Occurrence.Placed content o.stop (ps.map Prod.fst) := h
    have hfirst : last + s < o.start := hs (o, w) List.mem_cons_self
    simp only [build, newValue, build_gap_length hle hsits]
    rw [if_pos (by omega)]

variable (new : Occurrence → Option Bytes)

/-- Replacing some of the occurrences of a list that sit in the content apart from each other,
    each occurrence of the list moves by what the replaced ones before it added, and takes its
    new value if it has one. -/
theorem build_move_newValue : ∀ {last : Nat} {os : List Occurrence},
    Occurrence.Placed content last os → os.Pairwise (fun o o' => o.stop < o'.start) →
    ∀ o ∈ os,
      ((build content last (replacementsOf new os)).move (o.start - last) + last : Int) =
          o.start + growthBefore new os o.start ∧
        (build content last (replacementsOf new os)).newValue (o.start - last) o.value =
          (new o).getD o.value
  | _, [], _, _, _, ho => absurd ho List.not_mem_nil
  | last, o :: os, ⟨hle, hsits, hrest⟩, hsep, o', ho' => by
    obtain ⟨hafter, hsep⟩ := List.pairwise_cons.mp hsep
    have hstop := hsits.stop_eq
    have hplaced : Occurrence.Placed content o.stop ((replacementsOf new os).map Prod.fst) :=
      hrest.sublist (replacementsOf_sublist os)
    -- the replaced occurrences after `o` start past its stop
    have hlater : ∀ p ∈ replacementsOf new os, o.stop < p.1.start :=
      fun p hp => hafter p.1 (mem_replacementsOf.mp hp).1
    rcases List.mem_cons.mp ho' with rfl | ho'
    · -- `o` itself: nothing before it was replaced
      have hzero : growthBefore new (o' :: os) o'.start = 0 :=
        growthBefore_eq_zero fun p hp => by
          rcases List.mem_cons.mp hp with rfl | hp
          · exact Nat.le_refl _
          · have := hafter p hp
            omega
      rw [hzero]
      cases hnew : new o' with
      | none =>
        rw [replacementsOf_cons_none hnew]
        have hfirst := Occurrence.Placed.mono (by omega : last ≤ o'.stop) hplaced
        refine ⟨?_, build_newValue_lt hfirst (fun p hp => ?_) o'.value⟩
        · rw [build_move_le hfirst fun p hp => by have := hlater p hp; omega]
          omega
        · have := hlater p hp
          omega
      | some w =>
        rw [replacementsOf_cons_some hnew]
        simp only [build, move, newValue, build_gap_length hle hsits, Option.getD_some]
        rw [if_pos (Nat.le_refl _), if_neg (Nat.lt_irrefl _), if_pos trivial]
        exact ⟨by omega, rfl⟩
    · have hlt := hafter o' ho'
      rw [growthBefore_cons, if_pos (by omega)]
      cases hnew : new o with
      | none =>
        -- the same splice as for the occurrences after `o`
        rw [replacementsOf_cons_none hnew]
        obtain ⟨hmove, hvalue⟩ :=
          build_move_newValue (Occurrence.Placed.mono (by omega : last ≤ o.stop) hrest) hsep o' ho'
        exact ⟨by simp only [Option.map_none, Option.getD_none]; omega, hvalue⟩
      | some w =>
        -- past the region of `o`, the splice of the occurrences after it, from its stop
        rw [replacementsOf_cons_some hnew]
        obtain ⟨hmove, hvalue⟩ := build_move_newValue hrest hsep o' ho'
        have hpast : o'.start - last - (o.start - last + o.value.length) = o'.start - o.stop := by
          omega
        simp only [build, move, newValue, build_gap_length hle hsits, Option.map_some,
          Option.getD_some]
        rw [if_neg (by omega), if_neg (by omega), if_neg (by omega), hpast, hvalue]
        refine ⟨?_, rfl⟩
        push_cast
        omega

/-- Replacing some of the occurrences of a list that sit in the content apart from each other,
    from the start of the content, places each occurrence of the list where the replacements
    leave it. -/
theorem build_place {os : List Occurrence} (hplaced : Occurrence.Placed content 0 os)
    (hsep : os.Pairwise fun o o' => o.stop < o'.start) :
    ∀ o ∈ os, (build content 0 (replacementsOf new os)).place o = o.afterReplacing new os := by
  intro o ho
  obtain ⟨hmove, hvalue⟩ := build_move_newValue new hplaced hsep o ho
  simp only [Nat.sub_zero, Int.natCast_zero, Int.add_zero] at hmove hvalue
  simp only [place, Occurrence.afterReplacing, hvalue, ← hmove, Int.toNat_natCast]

end Build

end Splice

/-- Replacing some of the scanner's specifiers, each inert one by an inert specifier, with the
    edits that put each new value at its occurrence's start: the edits apply, and the scanner
    finds in the result the specifiers it found before, each moved by what the replaced ones
    before it added, the replaced ones with their new value. -/
theorem scan_after_replacing (content : Bytes) (new : Occurrence → Option Bytes)
    (hsize : content.length < 2 ^ 63)
    (hinert : ∀ o ∈ scan content, ∀ w ∈ new o, Inert o.value ∧ Inert w) :
    ∃ out offsets, applyEdits content ((scan content).filterMap fun o =>
        (new o).map fun w => ⟨o.start, o.value, w⟩) = .ok (out, offsets) ∧
      scan out = (scan content).map (Occurrence.afterReplacing new (scan content)) := by
  have hsub : ((replacementsOf new (scan content)).map Prod.fst).Sublist (scan content) :=
    replacementsOf_sublist _
  have hplaced := (scan_placed content).sublist hsub
  have hold : (Splice.build content 0 (replacementsOf new (scan content))).old = content := by
    rw [Splice.build_old hplaced, List.drop_zero]
  have hedits := Splice.build_edits hplaced
  rw [edits_replacementsOf] at hedits
  have happly := (Splice.build content 0 (replacementsOf new (scan content))).applyEdits_edits
    (by rw [hold]; exact hsize)
  rw [hold, hedits] at happly
  refine ⟨_, _, happly, ?_⟩
  -- the replaced specifiers are quoted and inert, on both sides
  have hquoted : (Splice.build content 0 (replacementsOf new (scan content))).QuotedRegions := by
    refine Splice.build_quotedRegions hplaced ((scan_separated content).sublist hsub)
      (fun p hp => (scan_quoted content p.1 (mem_replacementsOf.mp hp).1).start_pos)
      fun p hp => ?_
    obtain ⟨hmem, hnew⟩ := mem_replacementsOf.mp hp
    exact ⟨scan_quoted content p.1 hmem, hinert p.1 hmem p.2 hnew⟩
  rw [Splice.scan_place _ hquoted, hold]
  exact List.map_congr_left (Splice.build_place new (scan_placed content) (scan_separated content))

/-- Filling an empty specifier. -/
theorem scan_after_replacing_filled :
    ∃ out offsets, applyEdits (Bytes.ofString "import('')")
        ((scan (Bytes.ofString "import('')")).filterMap fun o =>
          (some (Bytes.ofString "./b")).map fun w => ⟨o.start, o.value, w⟩) = .ok (out, offsets) ∧
      scan out = (scan (Bytes.ofString "import('')")).map
        (Occurrence.afterReplacing (fun _ => some (Bytes.ofString "./b"))
          (scan (Bytes.ofString "import('')"))) :=
  scan_after_replacing _ _ (by decide +kernel) (by decide +kernel)

end Unalias
