import Unalias.Proofs.ClosedForm
import Unalias.Proofs.Utf8

/-! # The law of edits

Applying a list of edits walks the content once. Edit `i` must start at or after the end of edit
`i - 1` (the first at or after offset 0), end inside the content, and find its old bytes where it
starts (`Edit.FitsAt`). When every edit ends within a signed 64-bit word, these checks are exactly
what decides the outcome: the edits apply if and only if each of them fits, and otherwise the
pass stops at the first that does not, naming it in the message (`Edit.applyFrom_error`).

Edits that fit cut the content into gaps and the regions they replace (`Splice.ofEdits`). The
output is the splice's new content: the gaps with each edit's new bytes between them. Where
edit `i` wrote is its offset moved by what the edits before it added (`shiftedOffsets_eq_mapIdx`),
the output holds its new bytes there, and the edits that put the old bytes back at those offsets
give the content and the old offsets back (`applyEdits_law`).
-/

namespace Unalias

namespace Edit

/-- Where an edit ends, without wrapping. -/
def reach (e : Edit) : Int := e.offset + e.old.length

/-- How much longer an edit makes the content. -/
def growth (e : Edit) : Int := (e.new.length : Int) - e.old.length

/-- The end of the edit is a signed 64-bit word: computing it does not wrap. -/
def InWords (e : Edit) : Prop := -2 ^ 63 ≤ e.reach ∧ e.reach < 2 ^ 63

/-- The edit fits the content after position `last`: it starts at or after `last`, ends inside
    the content, and finds its old bytes where it starts. -/
def FitsAfter (content : Bytes) (last : Int) (e : Edit) : Prop :=
  last ≤ e.offset ∧ e.reach ≤ content.length ∧
    (content.drop e.offset.toNat).take e.old.length = e.old

/-- Edit `i` of the list fits the content after the end of edit `i - 1`, the first after
    `last`. -/
def FitsAt (content : Bytes) (last : Int) (es : List Edit) (i : Nat) : Prop :=
  ∀ e ∈ es[i]?, e.FitsAfter content ((last :: es.map reach).getD i 0)

section Fits

variable {content : Bytes} {last : Int} {e : Edit} {es : List Edit}

theorem fitsAt_cons_zero : FitsAt content last (e :: es) 0 ↔ e.FitsAfter content last := by
  simp [FitsAt]

theorem fitsAt_cons_succ {i : Nat} :
    FitsAt content last (e :: es) (i + 1) ↔ FitsAt content e.reach es i := by
  simp [FitsAt]

/-- Every edit of the list fits when the first fits and every later one fits after its
    predecessor. -/
theorem forall_fitsAt_cons :
    (∀ i < (e :: es).length, FitsAt content last (e :: es) i) ↔
      e.FitsAfter content last ∧ ∀ i < es.length, FitsAt content e.reach es i := by
  constructor
  · intro h
    exact ⟨fitsAt_cons_zero.mp (h 0 (by simp)),
      fun i hi => fitsAt_cons_succ.mp (h (i + 1) (by simp [hi]))⟩
  · rintro ⟨hhead, hrest⟩ i hi
    rcases i with _ | i
    · exact fitsAt_cons_zero.mpr hhead
    · exact fitsAt_cons_succ.mpr (hrest i (by simpa using hi))

/-- An edit that fits after a position at or past 0 starts at a natural offset and ends at
    its reach. -/
theorem FitsAfter.offset_eq (h : e.FitsAfter content last) (hlast : 0 ≤ last) :
    e.offset = (e.offset.toNat : Int) ∧ e.reach = ((e.offset.toNat + e.old.length : Nat) : Int) := by
  have := h.1
  refine ⟨by omega, ?_⟩
  unfold reach
  push_cast
  omega

end Fits

theorem stop_eq_reach {e : Edit} (h : e.InWords) : e.stop = e.reach := by
  unfold InWords reach at h
  unfold stop wordSum
  apply Int.bmod_eq_of_le <;> simp [Nat.pow] <;> omega

theorem message_outOfRange (i : Nat) (off : Int) :
    (EditError.outOfRange i off).message =
      Bytes.ofString s!"edit {i} at offset {off}" ++
        Bytes.ofString " is out of order or out of range" := by
  rw [← Bytes.ofString_append]
  rfl

theorem message_mismatch (i : Nat) (off : Int) (old : Bytes) :
    (EditError.mismatch i off old).message =
      Bytes.ofString s!"edit {i} at offset {off}" ++ (Bytes.ofString ": expected " ++ Text.quote old) := by
  rw [← List.append_assoc, ← Bytes.ofString_append]
  rfl

/-- An edit that does not fit stops the pass, and the message names it. -/
theorem applyFrom_cons_error {content : Bytes} {e : Edit} (es : List Edit) {last : Nat}
    (written index : Nat) (hword : e.InWords) (hfit : ¬ e.FitsAfter content last) :
    ∃ err, applyFrom content last written index (e :: es) = .error err ∧
      ∃ rest, err.message = Bytes.ofString s!"edit {index} at offset {e.offset}" ++ rest := by
  have hstop := stop_eq_reach hword
  rw [applyFrom, hstop]
  by_cases hrange : e.offset < last ∨ e.reach > content.length
  · rw [if_pos hrange]
    exact ⟨_, rfl, _, message_outOfRange index e.offset⟩
  · -- in order and in range, so it is the old bytes that are not there
    have hwrap : ¬ e.reach < e.offset := by unfold reach; omega
    rw [if_neg hrange, if_neg hwrap]
    have hlen : e.reach.toNat - e.offset.toNat = e.old.length := by unfold reach; omega
    have hold : (content.drop e.offset.toNat).take e.old.length ≠ e.old :=
      fun hold => hfit ⟨by omega, by omega, hold⟩
    rw [if_pos (by rw [hlen]; exact hold)]
    exact ⟨_, rfl, _, message_mismatch index e.offset e.old⟩

/-- An edit that fits, and ends within a word, is made. -/
theorem applyFrom_cons_fits {content : Bytes} {e : Edit} {es : List Edit}
    {last written index : Nat} (hword : e.InWords) (hfit : e.FitsAfter content last) :
    applyFrom content last written index (e :: es) =
      (applyFrom content (e.offset.toNat + e.old.length)
          (written + (e.offset.toNat - last) + e.new.length) (index + 1) es).map
        fun (rest, offsets) =>
          ((content.drop last).take (e.offset.toNat - last) ++ e.new ++ rest,
            (written + (e.offset.toNat - last)) :: offsets) := by
  obtain ⟨hoff, hreach⟩ := hfit.offset_eq (Int.natCast_nonneg last)
  have hlast := hfit.1
  have hend := hfit.2.1
  have := hword.2
  rw [hreach] at hend this
  exact applyFrom_cons (by omega) hoff (by omega) (by omega) hfit.2.2

/-- A pass that succeeds met only edits that fit. -/
theorem fitsAt_of_applyFrom_ok {content : Bytes} :
    ∀ (es : List Edit) (last written index : Nat) (r : Bytes × List Nat),
      (∀ e ∈ es, e.InWords) → applyFrom content last written index es = .ok r →
        ∀ i < es.length, FitsAt content last es i
  | [], _, _, _, _, _, _ => by simp
  | e :: es, last, written, index, r, hwords, h => by
    have hword := hwords e List.mem_cons_self
    by_cases hfit : e.FitsAfter content last
    · rw [applyFrom_cons_fits hword hfit] at h
      cases hrest : applyFrom content (e.offset.toNat + e.old.length)
          (written + (e.offset.toNat - last) + e.new.length) (index + 1) es with
      | error err => rw [hrest] at h; cases h
      | ok r' =>
        -- the rest of the pass starts at the end of this edit
        have ih := fitsAt_of_applyFrom_ok es _ _ _ r'
          (fun e' he' => hwords e' (List.mem_cons_of_mem e he')) hrest
        rw [← (hfit.offset_eq (Int.natCast_nonneg last)).2] at ih
        exact forall_fitsAt_cons.mpr ⟨hfit, ih⟩
    · obtain ⟨err, herr, -⟩ := applyFrom_cons_error es written index hword hfit
      rw [herr] at h
      cases h

/-- A pass that fails stops at the first edit that does not fit, and its message names that
    edit's number and offset. -/
theorem applyFrom_error {content : Bytes} :
    ∀ (es : List Edit) (last written index : Nat) (err : EditError),
      (∀ e ∈ es, e.InWords) → applyFrom content last written index es = .error err →
        ∃ i, ∃ hi : i < es.length, ¬ FitsAt content last es i ∧
          (∀ j < i, FitsAt content last es j) ∧
          ∃ rest, err.message = Bytes.ofString s!"edit {index + i} at offset {es[i].offset}" ++ rest
  | [], _, _, _, _, _, h => by simp [applyFrom] at h
  | e :: es, last, written, index, err, hwords, h => by
    have hword := hwords e List.mem_cons_self
    by_cases hfit : e.FitsAfter content last
    · rw [applyFrom_cons_fits hword hfit] at h
      cases hrest : applyFrom content (e.offset.toNat + e.old.length)
          (written + (e.offset.toNat - last) + e.new.length) (index + 1) es with
      | ok r => rw [hrest] at h; cases h
      | error err' =>
        have herr : err' = err := by simpa [hrest, Except.map] using h
        subst herr
        -- the failing edit is one of the rest, one further on
        obtain ⟨i, hi, hnot, hbefore, rest, hmsg⟩ := applyFrom_error es _ _ _ err'
          (fun e' he' => hwords e' (List.mem_cons_of_mem e he')) hrest
        rw [← (hfit.offset_eq (Int.natCast_nonneg last)).2] at hnot hbefore
        refine ⟨i + 1, by simpa using hi, fun h => hnot (fitsAt_cons_succ.mp h), fun j hj => ?_,
          rest, ?_⟩
        · rcases j with _ | j
          · exact fitsAt_cons_zero.mpr hfit
          · exact fitsAt_cons_succ.mpr (hbefore j (by omega))
        · rw [hmsg, show index + 1 + i = index + (i + 1) by omega]
          rfl
    · obtain ⟨err', herr, rest, hmsg⟩ := applyFrom_cons_error es written index hword hfit
      rw [herr] at h
      cases h
      exact ⟨0, by simp, fun h => hfit (fitsAt_cons_zero.mp h), fun j hj => absurd hj (by omega),
        rest, by rw [hmsg]; rfl⟩

end Edit

namespace Splice

/-- The splice that edits cut from the content after `last`: the gap up to each edit, and the
    edit's old and new bytes. -/
def ofEdits (content : Bytes) (last : Nat) : List Edit → Splice
  | [] => tail (content.drop last)
  | e :: es => region ((content.drop last).take (e.offset.toNat - last)) e.old e.new
      (ofEdits content (e.offset.toNat + e.old.length) es)

section OfEdits

variable {content : Bytes}

/-- The splice of edits that fit has the content after `last` as its old content. -/
theorem ofEdits_old : ∀ (es : List Edit) (last : Nat),
    (∀ i < es.length, Edit.FitsAt content last es i) →
      (ofEdits content last es).old = content.drop last
  | [], _, _ => rfl
  | e :: es, last, h => by
    obtain ⟨hfit, hrest⟩ := Edit.forall_fitsAt_cons.mp h
    rw [(hfit.offset_eq (Int.natCast_nonneg last)).2] at hrest
    have hlast : last ≤ e.offset.toNat := by have := hfit.1; omega
    -- the old bytes are found where the edit starts, and the gap runs up to there
    have hfound : e.old ++ content.drop (e.offset.toNat + e.old.length) = content.drop e.offset.toNat := by
      conv_rhs => rw [← List.take_append_drop e.old.length (content.drop e.offset.toNat)]
      rw [hfit.2.2, List.drop_drop]
    have hgap : content.drop e.offset.toNat = (content.drop last).drop (e.offset.toNat - last) := by
      rw [List.drop_drop, Nat.add_sub_cancel' hlast]
    rw [ofEdits, old, ofEdits_old es _ hrest, List.append_assoc, hfound, hgap, List.take_append_drop]

/-- The splice of edits that fit makes exactly those edits. -/
theorem ofEdits_edits : ∀ (es : List Edit) (last : Nat),
    (∀ i < es.length, Edit.FitsAt content last es i) → (ofEdits content last es).edits last = es
  | [], _, _ => rfl
  | e :: es, last, h => by
    obtain ⟨hfit, hrest⟩ := Edit.forall_fitsAt_cons.mp h
    obtain ⟨hoff, hreach⟩ := hfit.offset_eq (Int.natCast_nonneg last)
    rw [hreach] at hrest
    have hend := hfit.2.1
    have hlast := hfit.1
    rw [hreach] at hend
    have hgap : ((content.drop last).take (e.offset.toNat - last)).length = e.offset.toNat - last := by
      simp only [List.length_take, List.length_drop]
      omega
    rw [ofEdits, edits, hgap, Nat.add_sub_cancel' (by omega), ofEdits_edits es _ hrest, ← hoff]

end OfEdits

/-- Each edit of a splice finds its old bytes where it starts, in content that ends with the
    splice's old content. -/
theorem edits_found : ∀ (sp : Splice) (pre : Bytes), ∀ e ∈ sp.edits pre.length,
    ((pre ++ sp.old).drop e.offset.toNat).take e.old.length = e.old
  | tail _, _ => by simp [edits]
  | region g v w r, pre => by
    intro e he
    simp only [edits, List.mem_cons] at he
    rcases he with rfl | he
    · rw [Int.toNat_natCast, old, show pre ++ (g ++ v ++ r.old) = (pre ++ g) ++ (v ++ r.old) by simp,
        ← List.length_append, List.drop_left, List.take_left]
    · have := edits_found r (pre ++ g ++ v) e (by simpa [Nat.add_assoc] using he)
      simpa [old] using this

end Splice

/-- Each edit's offset moved by `d` and by what the edits before it added, as one sum. -/
theorem shiftedOffsets_eq_mapIdx : ∀ (d : Int) (es : List Edit),
    shiftedOffsets d es = es.mapIdx fun i e => e.offset + (d + ((es.take i).map Edit.growth).sum)
  | _, [] => rfl
  | d, e :: es => by
    rw [shiftedOffsets, List.mapIdx_cons, shiftedOffsets_eq_mapIdx]
    congr 1
    · simp
    · congr 1
      funext i e'
      simp only [List.take_succ_cons, List.map_cons, List.sum_cons, Edit.growth]
      omega

namespace Splice

section Law

variable {sp : Splice} {es : List Edit}

/-- Where a splice's edits wrote: at each offset, moved by what the edits before it added. -/
theorem offsets_eq_mapIdx (hedits : sp.edits 0 = es) :
    ((sp.swap.edits 0).map fun e => e.offset.toNat).map (fun n : Nat => (n : Int)) =
      es.mapIdx fun i e => e.offset + ((es.take i).map Edit.growth).sum := by
  have hshift := sp.swap_edits_offsets 0 0
  rw [shiftedOffsets_eq_mapIdx, hedits] at hshift
  simp only [Int.sub_self, Int.zero_add] at hshift
  rw [List.map_map]
  exact hshift

/-- A splice's new content holds each edit's new bytes where the edit wrote them. -/
theorem new_holds (hedits : sp.edits 0 = es) :
    ∀ p ∈ es.zip ((sp.swap.edits 0).map fun e => e.offset.toNat),
      (sp.new.drop p.2).take p.1.new.length = p.1.new := by
  intro p hp
  have hmem : (⟨p.2, p.1.new, p.1.old⟩ : Edit) ∈ sp.swap.edits 0 := by
    rw [sp.swap_edits 0 0, hedits]
    exact List.mem_map.mpr ⟨p, hp, rfl⟩
  simpa using sp.swap.edits_found [] _ hmem

/-- The edits that put each old part back where the splice's edits wrote lead back to the old
    content, at the old offsets. -/
theorem applyEdits_back (hedits : sp.edits 0 = es) (hsize : sp.new.length < 2 ^ 63) :
    applyEdits sp.new ((es.zip ((sp.swap.edits 0).map fun e => e.offset.toNat)).map
        fun p => (⟨p.2, p.1.new, p.1.old⟩ : Edit)) =
      .ok (sp.old, es.map fun e => e.offset.toNat) := by
  -- the edits back are the swapped splice's
  have hback : ((sp.edits 0).zip ((sp.swap.edits 0).map fun e => e.offset.toNat)).map
      (fun p => (⟨p.2, p.1.new, p.1.old⟩ : Edit)) = sp.swap.edits 0 := (sp.swap_edits 0 0).symm
  rw [← hedits, hback]
  have hback := sp.swap.applyEdits_edits (by rwa [swap_old])
  rwa [swap_old, swap_new, swap_swap] at hback

end Law

end Splice

/-- Edits that fit, each ending within a word, make the splice they cut from the content. -/
theorem applyEdits_ofEdits {content : Bytes} {es : List Edit} (hwords : ∀ e ∈ es, e.InWords)
    (hfit : ∀ i < es.length, Edit.FitsAt content 0 es i) :
    applyEdits content es = .ok ((Splice.ofEdits content 0 es).new,
      ((Splice.ofEdits content 0 es).swap.edits 0).map fun e => e.offset.toNat) := by
  have hedits := Splice.ofEdits_edits es 0 hfit
  have hsplice := (Splice.ofEdits content 0 es).applyFrom_edits [] 0 0 (by
    rw [List.length_nil, hedits]
    exact fun e he => (hwords e he).2)
  rwa [List.nil_append, Splice.ofEdits_old es 0 hfit, List.length_nil, hedits,
    List.drop_zero] at hsplice

/-- Applying edits, each of which ends within a signed word: the edits apply exactly when each
    fits after the one before it; a failure names the first edit that does not fit; and the
    output of a success is the content with each edit's old bytes replaced by its new ones, each
    new part written at its offset moved by what the edits before it added, and the edits that
    put the old parts back there lead back to the content and the old offsets. -/
theorem applyEdits_law (content : Bytes) (es : List Edit) (hwords : ∀ e ∈ es, e.InWords) :
    ((∃ r, applyEdits content es = .ok r) ↔ ∀ i < es.length, Edit.FitsAt content 0 es i) ∧
    (∀ err, applyEdits content es = .error err →
      ∃ i, ∃ hi : i < es.length, ¬ Edit.FitsAt content 0 es i ∧
        (∀ j < i, Edit.FitsAt content 0 es j) ∧
        ∃ rest, err.message = Bytes.ofString s!"edit {i} at offset {es[i].offset}" ++ rest) ∧
    ∀ out offsets, applyEdits content es = .ok (out, offsets) →
      out = (Splice.ofEdits content 0 es).new ∧
      offsets.map (fun n : Nat => (n : Int)) =
        es.mapIdx (fun i e => e.offset + ((es.take i).map Edit.growth).sum) ∧
      (∀ p ∈ es.zip offsets, (out.drop p.2).take p.1.new.length = p.1.new) ∧
      (out.length < 2 ^ 63 →
        applyEdits out ((es.zip offsets).map fun p => (⟨p.2, p.1.new, p.1.old⟩ : Edit)) =
          .ok (content, es.map fun e => e.offset.toNat)) := by
  refine ⟨⟨fun ⟨r, h⟩ => Edit.fitsAt_of_applyFrom_ok es 0 0 0 r hwords h,
      fun hfit => ⟨_, applyEdits_ofEdits hwords hfit⟩⟩, fun err h => ?_, fun out offsets h => ?_⟩
  · obtain ⟨i, hi, hnot, hbefore, rest, hmsg⟩ := Edit.applyFrom_error es 0 0 0 err hwords h
    exact ⟨i, hi, hnot, hbefore, rest, by rw [hmsg, Nat.zero_add]⟩
  · -- a pass that succeeds met only edits that fit, so it made the splice they cut
    have hfit := Edit.fitsAt_of_applyFrom_ok es 0 0 0 _ hwords h
    have hedits := Splice.ofEdits_edits es 0 hfit
    rw [applyEdits_ofEdits hwords hfit, Except.ok.injEq, Prod.mk.injEq] at h
    obtain ⟨rfl, rfl⟩ := h
    refine ⟨rfl, Splice.offsets_eq_mapIdx hedits, Splice.new_holds hedits, fun hsize => ?_⟩
    rw [Splice.applyEdits_back hedits hsize, Splice.ofEdits_old es 0 hfit, List.drop_zero]

/-- Two edits of `abcd` that fit: `b` becomes `xy` and `d` goes. -/
theorem applyEdits_law_fits_two :
    (∀ e ∈ [(⟨1, [98], [120, 121]⟩ : Edit), ⟨3, [100], []⟩], e.InWords) ∧
      ∀ i < 2, Edit.FitsAt [97, 98, 99, 100] 0 [⟨1, [98], [120, 121]⟩, ⟨3, [100], []⟩] i := by
  have hwords : ∀ e ∈ [(⟨1, [98], [120, 121]⟩ : Edit), ⟨3, [100], []⟩], e.InWords := by
    simp [Edit.InWords, Edit.reach]
  exact ⟨hwords, (applyEdits_law _ _ hwords).1.mp ⟨_, rfl⟩⟩

end Unalias
