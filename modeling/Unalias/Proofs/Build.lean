import Unalias.Proofs.Rescan

/-! # Splices of scanned occurrences

The scanner's occurrences sit between quotes (`scan_quoted`), and two of them share a start only
when both are empty (`scan_starts`). Pairing some of them, in order, with the bytes that replace
them builds a splice (`Splice.build`) whose old content is the content, whose edits are the
replacements (`Splice.build_edits`), and whose edits back sit where the new bytes were written
(`Splice.build_swap_edits`). When the specifiers replaced and their replacements are inert, the
splice is well formed (`Splice.build_wellFormed`), so rescanning its new content finds the old
occurrences moved (`scan_relocate`), and those outside every region never meet.
-/

namespace Unalias

theorem mem_of_mem_dropOverlaps {o : Occurrence} :
    ∀ {last : Nat} {os : List Occurrence}, o ∈ dropOverlaps last os → o ∈ os
  | _, [], h => h
  | last, o' :: os, h => by
      unfold dropOverlaps at h
      split at h
      · exact List.mem_cons_of_mem _ (mem_of_mem_dropOverlaps h)
      · rcases List.mem_cons.mp h with rfl | h
        · exact List.mem_cons_self
        · exact List.mem_cons_of_mem _ (mem_of_mem_dropOverlaps h)

theorem mem_scan {content : Bytes} {o : Occurrence} (h : o ∈ scan content) :
    ∃ f ∈ SpecifierForm.all, o ∈ f.findAll 0 content :=
  List.mem_flatMap.mp (List.mem_mergeSort.mp (mem_of_mem_dropOverlaps h))

theorem scan_quoted (content : Bytes) : ∀ o ∈ scan content, o.Quoted content := by
  intro o ho
  obtain ⟨f, -, hf⟩ := mem_scan ho
  exact f.findAll_quoted content o hf

namespace Occurrence.Placed

variable {content : Bytes}

theorem start_ge : ∀ {last : Nat} {os : List Occurrence}, Placed content last os →
    ∀ o ∈ os, last ≤ o.start
  | _, [], _ => by simp
  | _, o :: os, ⟨hle, hsits, hrest⟩ => by
      intro o' ho'
      rcases List.mem_cons.mp ho' with rfl | ho'
      · exact hle
      · have := start_ge hrest o' ho'
        have := hsits.stop_eq
        omega

theorem sitsIn : ∀ {last : Nat} {os : List Occurrence}, Placed content last os →
    ∀ o ∈ os, o.SitsIn content
  | _, [], _ => by simp
  | _, o :: os, ⟨_, hsits, hrest⟩ => by
      intro o' ho'
      rcases List.mem_cons.mp ho' with rfl | ho'
      · exact hsits
      · exact sitsIn hrest o' ho'

theorem pairwise : ∀ {last : Nat} {os : List Occurrence}, Placed content last os →
    os.Pairwise (fun o o' => o.stop ≤ o'.start)
  | _, [], _ => List.Pairwise.nil
  | _, _ :: _, ⟨_, _, hrest⟩ => List.Pairwise.cons (start_ge hrest) (pairwise hrest)

end Occurrence.Placed

theorem Occurrence.SitsIn.getElem? {content : Bytes} {o : Occurrence} (h : o.SitsIn content)
    {i : Nat} (hi : i < o.value.length) : content[o.start + i]? = o.value[i]? := by
  have := congrArg (fun l => l[i]?) h.value_eq
  simpa [List.getElem?_take, List.getElem?_drop, hi] using this

/-- Two specifiers the scanner finds at one start are both empty: a specifier that holds a byte
    ends after it starts, and an empty one stops on a quote, where no other specifier starts. -/
theorem scan_starts (content : Bytes) :
    (scan content).Pairwise fun o o' => o.start = o'.start → o.value = [] ∧ o'.value = [] := by
  have hplaced := scan_placed content
  refine hplaced.pairwise.imp_of_mem fun {o o'} ho ho' hle heq => ?_
  have hsits := hplaced.sitsIn o ho
  have hsits' := hplaced.sitsIn o' ho'
  have hempty : o.value = [] := by
    have := hsits.stop_eq
    exact List.eq_nil_of_length_eq_zero (by omega)
  refine ⟨hempty, ?_⟩
  -- the empty one stops on a quote, where the other's first byte stands
  obtain ⟨q, hq, hquote⟩ := (scan_quoted content o ho).closes
  cases hv : o'.value with
  | nil => rfl
  | cons b bs =>
      have hfirst : content[o'.start]? = some b := by
        have h := hsits'.value_eq
        rw [hv] at h
        have := congrArg (fun l => l[0]?) h
        simpa [List.getElem?_take, List.getElem?_drop] using this
      have hstop : o.stop = o'.start := by rw [hsits.stop_eq, hempty]; simp [heq]
      rw [hstop, hfirst, Option.some.injEq] at hq
      have := (scan_quoted content o' ho').unquoted b (by simp [hv])
      simp_all

namespace Splice

/-- The splice that replaces, from offset `last` of the content on, each of the placed
    occurrences by the bytes paired with it. -/
def build (content : Bytes) : Nat → List (Occurrence × Bytes) → Splice
  | last, [] => tail (content.drop last)
  | last, (o, w) :: ps =>
    region ((content.drop last).take (o.start - last)) o.value w (build content o.stop ps)

section Build

variable {content : Bytes}

theorem build_gap_length {last : Nat} {o : Occurrence} (hle : last ≤ o.start)
    (hsits : o.SitsIn content) :
    ((content.drop last).take (o.start - last)).length = o.start - last := by
  have := hsits.stop_le
  have := hsits.stop_eq
  simp only [List.length_take, List.length_drop]
  omega

theorem build_old : ∀ {last : Nat} {ps : List (Occurrence × Bytes)},
    Occurrence.Placed content last (ps.map Prod.fst) →
      (build content last ps).old = content.drop last
  | _, [], _ => rfl
  | last, (o, w) :: ps, h => by
      obtain ⟨hle, hsits, hrest⟩ : last ≤ o.start ∧ o.SitsIn content ∧
          Occurrence.Placed content o.stop (ps.map Prod.fst) := h
      simp only [build, old, build_old hrest]
      -- the content from `last` on: the gap, the occurrence's value, and the content after it
      have hvalue : content.drop o.start = o.value ++ content.drop o.stop := by
        rw [← hsits.value_eq, hsits.stop_eq, ← List.drop_drop, List.take_append_drop]
      rw [List.append_assoc, ← hvalue]
      conv => rhs; rw [← List.take_append_drop (o.start - last) (content.drop last)]
      rw [List.drop_drop, Nat.add_sub_cancel' hle]

theorem build_edits : ∀ {last : Nat} {ps : List (Occurrence × Bytes)},
    Occurrence.Placed content last (ps.map Prod.fst) →
      (build content last ps).edits last = ps.map fun p => ⟨p.1.start, p.1.value, p.2⟩
  | _, [], _ => rfl
  | last, (o, w) :: ps, h => by
      obtain ⟨hle, hsits, hrest⟩ : last ≤ o.start ∧ o.SitsIn content ∧
          Occurrence.Placed content o.stop (ps.map Prod.fst) := h
      simp only [build, edits, build_gap_length hle hsits, List.map_cons]
      have hstart : last + (o.start - last) = o.start := by omega
      rw [hstart, ← hsits.stop_eq, build_edits hrest]

theorem build_later {last : Nat} {o : Occurrence} {ps : List (Occurrence × Bytes)}
    (hle : last ≤ o.start) (hsits : o.SitsIn content) (hv : o.value ≠ [])
    (hrest : Occurrence.Placed content o.stop (ps.map Prod.fst)) :
    ∀ p ∈ ps, o.start - last < p.1.start - last ∧ o.stop ≤ p.1.start := by
  intro p hp
  have := hrest.start_ge p.1 (List.mem_map_of_mem hp)
  have := hsits.stop_eq
  have : 0 < o.value.length := List.length_pos_iff.mpr hv
  omega

theorem build_swap_edits : ∀ {last written : Nat} {ps : List (Occurrence × Bytes)},
    Occurrence.Placed content last (ps.map Prod.fst) → (∀ p ∈ ps, p.1.value ≠ []) →
      (build content last ps).swap.edits written =
        ps.map fun p => ⟨(written + (build content last ps).move (p.1.start - last) : Nat), p.2,
          p.1.value⟩
  | _, _, [], _, _ => rfl
  | last, written, (o, w) :: ps, h, hne => by
      obtain ⟨hle, hsits, hrest⟩ : last ≤ o.start ∧ o.SitsIn content ∧
          Occurrence.Placed content o.stop (ps.map Prod.fst) := h
      have hv : o.value ≠ [] := hne (o, w) (by simp)
      have hlater := build_later hle hsits hv hrest
      simp only [build, swap, edits, build_gap_length hle hsits, List.map_cons, move]
      rw [build_swap_edits hrest fun p hp => hne p (by simp [hp])]
      congr 1
      · rw [if_pos (Nat.le_refl _)]
      apply List.map_congr_left
      intro p hp
      obtain ⟨hlt, hstop⟩ := hlater p hp
      have := hsits.stop_eq
      rw [if_neg (by omega), show p.1.start - last - (o.start - last + o.value.length) =
        p.1.start - o.stop by omega]
      congr 2
      omega

theorem build_newValue : ∀ {last : Nat} {ps : List (Occurrence × Bytes)},
    Occurrence.Placed content last (ps.map Prod.fst) → (∀ p ∈ ps, p.1.value ≠ []) →
      ∀ p ∈ ps, (build content last ps).newValue (p.1.start - last) p.1.value = p.2
  | _, [], _, _ => by simp
  | last, (o, w) :: ps, h, hne => by
      obtain ⟨hle, hsits, hrest⟩ : last ≤ o.start ∧ o.SitsIn content ∧
          Occurrence.Placed content o.stop (ps.map Prod.fst) := h
      have hlater := build_later hle hsits (hne (o, w) (by simp)) hrest
      intro p hp
      simp only [build, newValue, build_gap_length hle hsits]
      rcases List.mem_cons.mp hp with rfl | hp
      · simp
      · obtain ⟨hlt, hstop⟩ := hlater p hp
        have := hsits.stop_eq
        rw [if_neg (by omega), if_neg (by omega), show p.1.start - last - (o.start - last +
          o.value.length) = p.1.start - o.stop by omega]
        exact build_newValue hrest (fun p hp => hne p (by simp [hp])) p hp

theorem build_newValue_of_ne : ∀ {last : Nat} {ps : List (Occurrence × Bytes)},
    Occurrence.Placed content last (ps.map Prod.fst) → ∀ {s : Nat} (value : Bytes),
      (build content last ps).Outside s → (∀ p ∈ ps, p.1.start ≠ last + s) →
      (build content last ps).newValue s value = value
  | _, [], _, _, _, _, _ => rfl
  | last, (o, w) :: ps, h, s, value, hout, hne => by
      obtain ⟨hle, hsits, hrest⟩ : last ≤ o.start ∧ o.SitsIn content ∧
          Occurrence.Placed content o.stop (ps.map Prod.fst) := h
      have hstart : o.start ≠ last + s := hne (o, w) (by simp)
      have := hsits.stop_eq
      simp only [build, Outside, newValue, build_gap_length hle hsits] at hout ⊢
      rcases hout with hout | ⟨hout, hout'⟩
      · rw [if_pos (by omega)]
      · rw [if_neg (by omega), if_neg (by omega)]
        refine build_newValue_of_ne hrest value hout' fun p hp => ?_
        have := hne p (by simp [hp])
        omega

/-- The gap up to an occurrence that starts past `last` ends with the byte before the
    occurrence. -/
theorem build_gap_eq {last : Nat} {o : Occurrence} {q : UInt8} (hlt : last < o.start)
    (hq : content[o.start - 1]? = some q) :
    (content.drop last).take (o.start - last) = (content.drop last).take (o.start - last - 1) ++ [q] := by
  have hget : (content.drop last)[o.start - last - 1]? = some q := by
    rw [List.getElem?_drop, show last + (o.start - last - 1) = o.start - 1 by omega, hq]
  rw [show o.start - last = o.start - last - 1 + 1 by omega, List.take_add_one, hget]
  rfl

/-- The content from a position on starts with the byte there. -/
theorem drop_eq_cons {i : Nat} {q : UInt8} (hq : content[i]? = some q) :
    content.drop i = q :: content.drop (i + 1) := by
  obtain ⟨hi, hget⟩ := List.getElem?_eq_some_iff.mp hq
  rw [List.drop_eq_getElem_cons hi, hget]

/-- The splice of placed quoted specifiers, each non-empty and inert and replaced by a non-empty
    inert specifier, is well formed, when no quote stands just before where it starts. -/
theorem build_wellFormed : ∀ {last : Nat} {ps : List (Occurrence × Bytes)},
    Occurrence.Placed content last (ps.map Prod.fst) →
    (0 < last → ∀ q, content[last - 1]? = some q → IsQuote q = false) →
    (∀ p ∈ ps, p.1.Quoted content ∧ p.1.value ≠ [] ∧ p.2 ≠ [] ∧ Inert p.1.value ∧ Inert p.2) →
      (build content last ps).WellFormed
  | _, [], _, _, _ => trivial
  | last, (o, w) :: ps, h, hlast, hps => by
      obtain ⟨hle, hsits, hrest⟩ : last ≤ o.start ∧ o.SitsIn content ∧
          Occurrence.Placed content o.stop (ps.map Prod.fst) := h
      obtain ⟨hquoted, hvne, hwne, hv, hw⟩ : o.Quoted content ∧ o.value ≠ [] ∧ w ≠ [] ∧
          Inert o.value ∧ Inert w := hps (o, w) (by simp)
      obtain ⟨q, hq, hquote⟩ := hquoted.opens
      obtain ⟨q', hq', hquote'⟩ := hquoted.closes
      -- the quote before the specifier lies after `last`, so the gap ends with it
      have hlt : last < o.start := by
        rcases Nat.lt_or_eq_of_le hle with hlt | heq
        · exact hlt
        · have := hlast (by have := hquoted.start_pos; omega) q (by rw [heq]; exact hq)
          simp_all
      refine ⟨⟨(content.drop last).take (o.start - last - 1), q, ?_, hquote⟩, hvne, hwne, hv, hw,
        ?_, ?_⟩
      · exact build_gap_eq hlt hq
      · exact ⟨q', _, by rw [build_old hrest, drop_eq_cons hq'], hquote'⟩
      · refine build_wellFormed hrest (fun hpos b hb => ?_) fun p hp => hps p (by simp [hp])
        -- the byte before the stop is the specifier's last
        have hlen : 0 < o.value.length := List.length_pos_iff.mpr hvne
        have hget := hsits.getElem? (i := o.value.length - 1) (by omega)
        rw [show o.start + (o.value.length - 1) = o.stop - 1 by rw [hsits.stop_eq]; omega, hb]
          at hget
        exact hv.unquoted b (List.mem_of_getElem? hget.symm)

end Build

theorem edits_offset : ∀ {sp : Splice}, sp.WellFormed → ∀ base : Nat,
    (sp.edits base).Pairwise (fun e e' => e.offset < e'.offset) ∧
      ∀ e ∈ sp.edits base, (base : Int) ≤ e.offset
  | tail _, _, _ => ⟨List.Pairwise.nil, by simp [edits]⟩
  | region g v w r, hwf, base => by
      obtain ⟨-, hvne, -, -, -, -, hwfr⟩ := hwf
      have hv : 0 < v.length := List.length_pos_iff.mpr hvne
      obtain ⟨hpair, hge⟩ := edits_offset hwfr (base + g.length + v.length)
      simp only [edits, List.pairwise_cons, List.mem_cons, forall_eq_or_imp]
      refine ⟨⟨fun e he => ?_, hpair⟩, by omega, fun e he => ?_⟩
      · have := hge e he
        push_cast at this ⊢
        omega
      · have := hge e he
        push_cast at this ⊢
        omega

/-- The edits that lead back sit where the splice put its new bytes, and swap the two sides. -/
theorem swap_edits : ∀ (sp : Splice) (base written : Nat),
    sp.swap.edits written = ((sp.edits base).zip ((sp.swap.edits written).map (·.offset.toNat))).map
      fun (e, n) => ⟨n, e.new, e.old⟩
  | tail _, _, _ => rfl
  | region g v w r, base, written => by
      simp only [swap, edits, List.map_cons, List.zip_cons_cons, Int.toNat_natCast]
      rw [← swap_edits r (base + g.length + v.length) (written + g.length + w.length)]

theorem wellFormed_swap : ∀ {sp : Splice}, sp.WellFormed → sp.swap.WellFormed
  | tail _, _ => trivial
  | region g v w r, ⟨hg, hvne, hwne, hv, hw, ⟨q, t, hr, hq⟩, hwfr⟩ => by
      obtain ⟨t', hr', -⟩ := hwfr.quotedRegions.new_cons hr
      exact ⟨hg, hwne, hvne, hw, hv, ⟨q, t', by rw [swap_old, hr'], hq⟩, wellFormed_swap hwfr⟩

theorem length_swap_edits : ∀ (sp : Splice) (base written : Nat),
    (sp.swap.edits written).length = (sp.edits base).length
  | tail _, _, _ => rfl
  | region g v w r, base, written => by
      simp [swap, edits, length_swap_edits r (base + g.length + v.length)]

theorem outside_start {sp : Splice} (hwf : sp.WellFormed) {o : Occurrence}
    (ho : o.Quoted sp.old) : sp.Outside o.start := by
  obtain ⟨q, hq, hquote⟩ := ho.opens
  have := (outside_of_quote hwf hq hquote).2
  rwa [Nat.sub_add_cancel ho.start_pos] at this

theorem move_inj {sp : Splice} (hwf : sp.WellFormed) {p q : Nat} (hp : sp.Outside p)
    (hq : sp.Outside q) (h : sp.move p = sp.move q) : p = q := by
  rcases Nat.lt_trichotomy p q with hlt | heq | hgt
  · exact absurd h (Nat.ne_of_lt ((move_lt_iff hwf hp hq).mpr hlt))
  · exact heq
  · exact absurd h (Nat.ne_of_gt ((move_lt_iff hwf hq hp).mpr hgt))

end Splice

end Unalias
