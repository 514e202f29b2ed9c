import Unalias.Proofs.Match
import Unalias.Proofs.Splice

/-! # Rescanning spliced content

A splice has quoted regions when its regions are quoted specifiers: each gap ends with a quote,
the content after each region starts with one, and both sides of a region are inert, empty or
not. Making such a splice moves every position of the old content: a gap's positions shift by
how much the regions before them grew. An occurrence of the old content is placed by moving its
start; it takes the new side of the region that starts where it starts, and stops after that.

The search of each form walks the new content in step with the old one
(`Splice.findAll_place_region` for one region, `Splice.findAll_place` for a splice): inside a gap
both read the same bytes, at a region both read the specifier between its quotes, and inside a
region neither finds anything.

A splice is well formed when, besides, both sides of each region are non-empty. A region then
has an end apart from its start, and an occurrence is also relocated by moving its stop; the
positions the scanner compares, the starts and stops of occurrences, lie outside the regions,
where moving keeps their order strictly (`Splice.move_lt_iff`).
-/

namespace Unalias

namespace Splice

/-- Where a position of the old content lands in the new: a gap's positions shift by what the
    regions before them grew, and a position inside a region goes to the region's end. -/
def move : Splice → Nat → Nat
  | tail _, p => p
  | region g v w r, p =>
    if p ≤ g.length then p else g.length + w.length + r.move (p - (g.length + v.length))

/-- The value of an occurrence starting at `s` once the splice is made: the new bytes of a
    region that starts there, the value itself elsewhere. -/
def newValue : Splice → Nat → Bytes → Bytes
  | tail _, _, value => value
  | region g v w r, s, value =>
    if s < g.length then value
    else if s = g.length then w
    else r.newValue (s - (g.length + v.length)) value

/-- An occurrence of the old content, where it stands in the new. -/
def relocate (sp : Splice) (o : Occurrence) : Occurrence :=
  { o with start := sp.move o.start, stop := sp.move o.stop, value := sp.newValue o.start o.value }

/-- Each gap ends with a quote, each region's two sides are non-empty inert specifiers, and the
    content after a region starts with a quote: the regions are quoted specifiers. -/
def WellFormed : Splice → Prop
  | tail _ => True
  | region g v w r =>
    (∃ g' q, g = g' ++ [q] ∧ IsQuote q = true) ∧ v ≠ [] ∧ w ≠ [] ∧ Inert v ∧ Inert w ∧
      (∃ q t, r.old = q :: t ∧ IsQuote q = true) ∧ r.WellFormed

/-- The positions up to the end of the first gap. -/
def Reach : Splice → Nat → Prop
  | tail _, _ => True
  | region g _ _ _, k => k ≤ g.length

/-- Each gap ends with a quote, each region's two sides are inert specifiers, and the content
    after a region starts with a quote: the regions are quoted specifiers, possibly empty. -/
def QuotedRegions : Splice → Prop
  | tail _ => True
  | region g v w r =>
    (∃ g' q, g = g' ++ [q] ∧ IsQuote q = true) ∧ Inert v ∧ Inert w ∧
      (∃ q t, r.old = q :: t ∧ IsQuote q = true) ∧ r.QuotedRegions

/-- An occurrence of the old content, where it stands in the new: its start moved, the new side
    of the region that starts where it starts as its value, and its stop after that value. -/
def place (sp : Splice) (o : Occurrence) : Occurrence :=
  { o with start := sp.move o.start, stop := sp.move o.start + (sp.newValue o.start o.value).length,
           value := sp.newValue o.start o.value }

@[simp] theorem move_zero (sp : Splice) : sp.move 0 = 0 := by
  cases sp <;> simp [move]

theorem reach_zero (sp : Splice) : sp.Reach 0 := by
  cases sp <;> simp [Reach]

/-- Well-formed splices have quoted regions. -/
theorem WellFormed.quotedRegions : ∀ {sp : Splice}, sp.WellFormed → sp.QuotedRegions
  | tail _, _ => trivial
  | region _ _ _ _, ⟨hg, _, _, hv, hw, hr, hwf⟩ => ⟨hg, hv, hw, hr, hwf.quotedRegions⟩

/-- Moving keeps the order of positions. -/
theorem move_mono : ∀ (sp : Splice) {p q : Nat}, p ≤ q → sp.move p ≤ sp.move q
  | tail _, _, _, h => h
  | region g v w r, p, q, h => by
    simp only [move]
    by_cases hp : p ≤ g.length
    · rw [if_pos hp]
      split <;> omega
    · rw [if_neg hp, if_neg (by omega)]
      have := move_mono r (p := p - (g.length + v.length)) (q := q - (g.length + v.length))
        (by omega)
      omega

section Region

variable {g v w : Bytes} {r : Splice}

theorem relocate_gap {o : Occurrence} (hstop : o.stop < g.length) (hle : o.start ≤ o.stop) :
    (region g v w r).relocate o = o := by
  simp only [relocate, move, newValue, if_pos (Nat.le_of_lt hstop),
    if_pos (Nat.le_trans hle (Nat.le_of_lt hstop)), if_pos (Nat.lt_of_le_of_lt hle hstop)]

theorem relocate_region (hv : v ≠ []) (kind : SpecifierKind) :
    (region g v w r).relocate ⟨g.length, g.length + v.length, v, kind⟩ =
      ⟨g.length, g.length + w.length, w, kind⟩ := by
  have : 0 < v.length := List.length_pos_iff.mpr hv
  have hstop : ¬ g.length + v.length ≤ g.length := by omega
  simp only [relocate, move, newValue, Nat.le_refl, if_true, hstop, if_false, Nat.sub_self,
    move_zero, Nat.add_zero, Nat.lt_irrefl]

theorem relocate_shift (hv : v ≠ []) (o : Occurrence) :
    (region g v w r).relocate (o.shift (g.length + v.length)) =
      (r.relocate o).shift (g.length + w.length) := by
  have : 0 < v.length := List.length_pos_iff.mpr hv
  have hstart : ¬ o.start + (g.length + v.length) ≤ g.length := by omega
  have hstop : ¬ o.stop + (g.length + v.length) ≤ g.length := by omega
  have hlt : ¬ o.start + (g.length + v.length) < g.length := by omega
  have hne : o.start + (g.length + v.length) ≠ g.length := by omega
  simp only [relocate, Occurrence.shift, move, newValue, hstart, hstop, hlt, hne, if_false,
    Nat.add_sub_cancel, Occurrence.mk.injEq]
  refine ⟨by omega, by omega, trivial, trivial⟩

theorem place_gap {o : Occurrence} (hstart : o.start < g.length)
    (hstop : o.stop = o.start + o.value.length) : (region g v w r).place o = o := by
  simp only [place, move, newValue, if_pos (Nat.le_of_lt hstart), if_pos hstart, ← hstop]

theorem place_region (kind : SpecifierKind) :
    (region g v w r).place ⟨g.length, g.length + v.length, v, kind⟩ =
      ⟨g.length, g.length + w.length, w, kind⟩ := by
  simp only [place, move, newValue, Nat.le_refl, if_true, Nat.lt_irrefl, if_false]

/-- An occurrence past the region, that does not start at the region's end, moves with the
    content after it. -/
theorem place_shift {o : Occurrence} (hpos : 0 < o.start) :
    (region g v w r).place (o.shift (g.length + v.length)) =
      (r.place o).shift (g.length + w.length) := by
  have hstart : ¬ o.start + (g.length + v.length) ≤ g.length := by omega
  have hlt : ¬ o.start + (g.length + v.length) < g.length := by omega
  have hne : o.start + (g.length + v.length) ≠ g.length := by omega
  simp only [place, Occurrence.shift, move, newValue, hstart, hlt, hne, if_false,
    Nat.add_sub_cancel, Occurrence.mk.injEq]
  refine ⟨by omega, by omega, trivial, trivial⟩

end Region

/-- The content after a quoted region starts, old and new, with the same byte, and a closer that
    is empty or a parenthesis reads the same after it in both. -/
theorem QuotedRegions.new_cons : ∀ {r : Splice}, r.QuotedRegions → ∀ {q : UInt8} {t : Bytes},
    r.old = q :: t → ∃ t', r.new = q :: t' ∧
      ∀ closer : Bytes, closer = [] ∨ closer = [41] → closer.isPrefixOf t = closer.isPrefixOf t'
  | tail _, _, _, t, hr => ⟨t, hr, fun _ _ => rfl⟩
  | region g v w r, hq, q, t, hr => by
    obtain ⟨⟨g', qg, rfl, -⟩, hv, hw, ⟨q', t', hr', hq'⟩, hqr⟩ := hq
    -- after the region, both contents start with the same quote
    obtain ⟨t'', hnew, -⟩ := QuotedRegions.new_cons hqr hr'
    obtain ⟨c, gt, hgt⟩ : ∃ c gt, g' ++ [qg] = c :: gt := by
      cases g' with
      | nil => exact ⟨qg, [], rfl⟩
      | cons c g' => exact ⟨c, g' ++ [qg], rfl⟩
    simp only [old, hgt, List.cons_append, List.cons.injEq] at hr
    obtain ⟨rfl, rfl⟩ := hr
    refine ⟨gt ++ (w ++ r.new), by simp [new, hgt], fun closer hc => ?_⟩
    rw [List.append_assoc]
    apply closer_isPrefixOf_append hc
    · rw [hr']
      exact head_append_quote hv.head_ne hq'
    · rw [hnew]
      exact head_append_quote hw.head_ne hq'

/-- After a match that closes where the content after a quoted region starts, the search resumes
    inside that content's first gap. -/
theorem QuotedRegions.reach_of_closer {r : Splice} (hq : r.QuotedRegions) {q : UInt8}
    {t closer : Bytes} (hr : r.old = q :: t) (hc : closer = [] ∨ closer = [41])
    (hclose : closer.isPrefixOf t) : r.Reach (1 + closer.length) := by
  cases r with
  | tail rest => trivial
  | region g v w r =>
    obtain ⟨⟨g', qg, rfl, -⟩, hv, -, ⟨q', t', hr', hq'⟩, -⟩ := hq
    show 1 + closer.length ≤ (g' ++ [qg]).length
    rcases hc with rfl | rfl
    · simp
    · cases g' with
      | nil =>
        -- a gap of one quote leaves the parenthesis to the region, and a region, empty or not,
        -- is followed by a quote
        simp only [old, List.nil_append, List.cons_append, List.cons.injEq] at hr
        obtain ⟨-, rfl⟩ := hr
        rw [hr', paren_isPrefixOf (head_append_quote hv.head_ne hq')] at hclose
        contradiction
      | cons c g' => simp

@[simp] theorem place_tail_findAll (f : SpecifierForm) (rest : Bytes) (k : Nat) (s : Bytes) :
    (f.findAll k s).map (tail rest).place = f.findAll k s := by
  have hid : ∀ o ∈ f.findAll k s, (tail rest).place o = id o := fun o ho => by
    simp only [place, move, newValue, id, ← SpecifierForm.findAll_stop_eq ho]
  rw [List.map_congr_left hid, List.map_id]

/-- One quoted region: if the search of the content after it finds, from every offset of its
    first gap, the placed occurrences, then so does the search of the region's gap, from every
    offset. -/
theorem findAll_place_region {f : SpecifierForm} (hf : f ∈ SpecifierForm.all) {g v w : Bytes}
    {r : Splice} (hq : (region g v w r).QuotedRegions)
    (hrest : ∀ k, r.Reach k →
      f.findAll k (r.new.drop k) = (f.findAll k (r.old.drop k)).map r.place) :
    ∀ k ≤ g.length, f.findAll k ((region g v w r).new.drop k) =
      (f.findAll k ((region g v w r).old.drop k)).map (region g v w r).place := by
  obtain ⟨⟨g', qg, hg, hqg⟩, hv, hw, ⟨q', t, hr, hq'⟩, hqr⟩ := hq
  obtain ⟨t', hr', hclose⟩ := hqr.new_cons hr
  -- the occurrences after the region are the rest's, moved past the region on either side; none
  -- of them starts where the content after the region starts
  have hafter : ∀ j, r.Reach j →
      f.findAll (j + (g.length + w.length)) (r.new.drop j) =
        (f.findAll (j + (g.length + v.length)) (r.old.drop j)).map (region g v w r).place := by
    intro j hj
    rw [SpecifierForm.findAll_shift, SpecifierForm.findAll_shift, hrest j hj, List.map_map,
      List.map_map]
    apply List.map_congr_left
    intro o ho
    exact (place_shift (Nat.lt_of_le_of_lt (Nat.zero_le j) (SpecifierForm.findAll_start_gt ho))).symm
  intro k hk
  induction hn : g.length - k using Nat.strongRecOn generalizing k with
  | _ n ih =>
    rcases Nat.lt_or_ge k g.length with hlt | hge
    · have hk' : k ≤ g'.length := by simp [hg] at hlt; omega
      have hs : (region g v w r).old.drop k = g'.drop k ++ qg :: (v ++ q' :: t) := by
        simp [old, hg, hr, List.drop_append_of_le_length hk']
      have hs' : (region g v w r).new.drop k = g'.drop k ++ qg :: (w ++ q' :: t') := by
        simp [new, hg, hr', List.drop_append_of_le_length hk']
      have hx : (g'.drop k).length + 1 = g.length - k := by simp [hg]; omega
      -- the new content's match is the old one's, the region's own taking the new specifier
      have hsplice : f.matchHead ((region g v w r).new.drop k) =
          (f.matchHead ((region g v w r).old.drop k)).map
            (adjustMatch ((g'.drop k).length + 1) v w) := by
        rw [hs, hs']
        exact SpecifierForm.matchHead_splice hf hqg hq' hv.unquoted hw.unquoted hv.head_ne
          hw.head_ne (hclose f.closer (closer_empty_or_paren f hf))
      cases hm : f.matchHead ((region g v w r).old.drop k) with
      | none =>
        rw [hm] at hsplice
        rw [SpecifierForm.findAll_none k hm, SpecifierForm.findAll_none k hsplice, List.drop_drop,
          List.drop_drop]
        exact ih _ (by omega) (k + 1) (by omega) rfl
      | some m =>
        rw [hm] at hsplice
        rw [hs] at hm
        rcases SpecifierForm.matchHead_splice_cases hf hqg hq' hv.unquoted hv.head_ne hm with
          ⟨hat, hle⟩ | ⟨rfl, hcl⟩
        · -- a match inside the gap reads the same bytes in both
          obtain ⟨at_, value, len⟩ := m
          rw [← hs] at hm
          have hm' : f.matchHead ((region g v w r).new.drop k) = some (at_, value, len) := by
            rw [hsplice]
            simp only [Option.map_some, adjustMatch]
            rw [if_neg (by simp only at hat; omega)]
          obtain ⟨-, hbound, -⟩ := SpecifierForm.matchHead_bounds hm
          simp only at hle hbound hat
          rw [SpecifierForm.findAll_some k hm, SpecifierForm.findAll_some k hm', List.map_cons,
            place_gap (by simp only; omega) rfl, List.drop_drop, List.drop_drop,
            ih _ (by omega) (k + len) (by omega) rfl]
        · -- the region's own match takes the new specifier and resumes after the closer
          rw [← hs] at hm
          have hm' : f.matchHead ((region g v w r).new.drop k) =
              some ((g'.drop k).length + 1, w,
                (g'.drop k).length + w.length + 2 + f.closer.length) := by
            rw [hsplice]
            simp only [Option.map_some, adjustMatch, if_pos, Option.some.injEq, Prod.mk.injEq]
            refine ⟨trivial, trivial, by omega⟩
          rw [SpecifierForm.findAll_some k hm, SpecifierForm.findAll_some k hm', List.map_cons,
            List.drop_drop, List.drop_drop]
          have hstart : k + ((g'.drop k).length + 1) = g.length := by omega
          have hold : (region g v w r).old.drop
              (k + ((g'.drop k).length + v.length + 2 + f.closer.length)) =
                r.old.drop (1 + f.closer.length) := by
            rw [show k + ((g'.drop k).length + v.length + 2 + f.closer.length) =
              (g ++ v).length + (1 + f.closer.length) by simp only [List.length_append]; omega]
            simp only [old, List.append_assoc]
            rw [← List.append_assoc, List.drop_length_add_append]
          have hnew : (region g v w r).new.drop
              (k + ((g'.drop k).length + w.length + 2 + f.closer.length)) =
                r.new.drop (1 + f.closer.length) := by
            rw [show k + ((g'.drop k).length + w.length + 2 + f.closer.length) =
              (g ++ w).length + (1 + f.closer.length) by simp only [List.length_append]; omega]
            simp only [new, List.append_assoc]
            rw [← List.append_assoc, List.drop_length_add_append]
          rw [hold, hnew, hstart, place_region f.kind]
          congr 1
          have hj := hafter (1 + f.closer.length)
            (hqr.reach_of_closer hr (closer_empty_or_paren f hf) hcl)
          rw [show k + ((g'.drop k).length + w.length + 2 + f.closer.length) =
              1 + f.closer.length + (g.length + w.length) by omega,
            show k + ((g'.drop k).length + v.length + 2 + f.closer.length) =
              1 + f.closer.length + (g.length + v.length) by omega]
          exact hj
    · -- at the end of the gap the search walks over the specifier, up to the quote after it
      have hs : (region g v w r).old.drop g.length = v ++ q' :: t := by simp [old, hr]
      have hs' : (region g v w r).new.drop g.length = w ++ q' :: t' := by simp [new, hr']
      have hj := hafter 0 (reach_zero r)
      rw [show k = g.length by omega, hs, hs',
        SpecifierForm.findAll_append_unquoted hf hq' v hv.unquoted hv.no_leadIn,
        SpecifierForm.findAll_append_unquoted hf hq' w hw.unquoted hw.no_leadIn, ← hr, ← hr']
      simpa using hj

/-- The search of the new content of a splice of quoted regions finds, from every offset of its
    first gap, the occurrences of its old content, placed. -/
theorem findAll_place {f : SpecifierForm} (hf : f ∈ SpecifierForm.all) :
    ∀ sp : Splice, sp.QuotedRegions → ∀ k, sp.Reach k →
      f.findAll k (sp.new.drop k) = (f.findAll k (sp.old.drop k)).map sp.place
  | tail rest, _, k, _ => by simp [old, new]
  | region g v w r, hq, k, hk =>
    findAll_place_region hf hq (findAll_place hf r hq.2.2.2.2) k hk

/-- The positions of the old content that lie inside no region: up to a region's start or from
    its end on. -/
def Outside : Splice → Nat → Prop
  | tail _, _ => True
  | region g v _ r, p =>
    p ≤ g.length ∨ (g.length + v.length ≤ p ∧ r.Outside (p - (g.length + v.length)))

/-- A quote of the old content lies in no region, and neither does the position after it. -/
theorem outside_of_quote : ∀ {sp : Splice}, sp.WellFormed → ∀ {i : Nat} {q : UInt8},
    sp.old[i]? = some q → IsQuote q = true → sp.Outside i ∧ sp.Outside (i + 1)
  | tail _, _, _, _, _, _ => ⟨trivial, trivial⟩
  | region g v w r, hwf, i, q, hi, hq => by
      obtain ⟨-, -, -, hv, -, -, hwfr⟩ := hwf
      simp only [old, List.append_assoc] at hi
      rcases Nat.lt_or_ge i g.length with hlt | hge
      · exact ⟨.inl (by omega), .inl (by omega)⟩
      · rw [List.getElem?_append_right hge] at hi
        rcases Nat.lt_or_ge (i - g.length) v.length with hlt' | hge'
        · -- a byte of a region is no quote
          rw [List.getElem?_append_left hlt'] at hi
          have := hv.unquoted q (List.mem_of_getElem? hi)
          simp_all
        · rw [List.getElem?_append_right hge'] at hi
          obtain ⟨h1, h2⟩ := outside_of_quote hwfr (i := i - g.length - v.length) hi hq
          refine ⟨.inr ⟨by omega, ?_⟩, .inr ⟨by omega, ?_⟩⟩
          · rwa [show i - (g.length + v.length) = i - g.length - v.length by omega]
          · rwa [show i + 1 - (g.length + v.length) = i - g.length - v.length + 1 by omega]

/-- Positions outside the regions keep their order, strictly, when moved to the new content. -/
theorem move_lt_iff : ∀ {sp : Splice}, sp.WellFormed → ∀ {p q : Nat}, sp.Outside p →
    sp.Outside q → (sp.move p < sp.move q ↔ p < q)
  | tail _, _, _, _, _, _ => Iff.rfl
  | region g v w r, hwf, p, q, hp, hq => by
      obtain ⟨-, hvne, hwne, -, -, -, hwfr⟩ := hwf
      have hv : 0 < v.length := List.length_pos_iff.mpr hvne
      have hw : 0 < w.length := List.length_pos_iff.mpr hwne
      simp only [move]
      rcases hp with hp | ⟨hp, hp'⟩ <;> rcases hq with hq | ⟨hq, hq'⟩
      · simp [hp, hq]
      · rw [if_pos hp, if_neg (by omega)]; omega
      · rw [if_neg (by omega), if_pos hq]; omega
      · rw [if_neg (by omega), if_neg (by omega), Nat.add_lt_add_iff_left, move_lt_iff hwfr hp' hq']
        omega

end Splice

end Unalias
