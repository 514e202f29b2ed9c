import Unalias.Proofs.EditApplication

/-! # Which error a pass of edits stops with

The pass computes where an edit ends as a signed 64-bit sum of its offset and the length of its
old bytes. Below the largest word the sum is exact, and the pass checks what the edit promises:
that it starts at or after the end of the edit before it, ends inside the content, and finds its
old bytes there (`Edit.FitsAfter`). An edit whose exact end is the largest word or more wraps
around to a negative end instead. That end is past no position and inside the content, so both
range checks let the edit through, and the pass reads the slice from its offset to its end,
which does not exist.

For offsets that are signed words and old bytes shorter than the largest word
(`Edit.WordSized`), the pass either finds every edit fitting and makes them all, or stops at the
first edit that does not fit with the error `Edit.misfit` names from the exact sums
(`applyEdits_first_misfit`): the range error when the edit starts before the end of the one
before it or ends past the content below the largest word, the slice error when it starts in
order and its exact end reaches the largest word, and the mismatch error otherwise. So the range
check does not guard every edit that ends past the content (`applyEdits_wrapped_end`).
-/

namespace Unalias

namespace Edit

/-- An edit as a caller can hand it to the pass: its offset a signed 64-bit word, and its old
    bytes shorter than the largest word. -/
def WordSized (e : Edit) : Prop := -2 ^ 63 ≤ e.offset ∧ e.offset < 2 ^ 63 ∧ e.old.length < 2 ^ 63

/-- The error the pass stops with at an edit that does not fit after `last`, said with exact sums:
    out of order; a slice that does not exist when the end reaches the largest word; out of
    range when it ends past the content below it; a mismatch otherwise. -/
def misfit (content : Bytes) (last : Int) (index : Nat) (e : Edit) : EditError :=
  if e.offset < last then .outOfRange index e.offset
  else if 2 ^ 63 ≤ e.reach then .sliceBounds index e.offset (e.reach - 2 ^ 64)
  else if (content.length : Int) < e.reach then .outOfRange index e.offset
  else .mismatch index e.offset e.old

/-- An end that reaches the largest word wraps around to a negative one. -/
theorem stop_of_wraps {e : Edit} (hw : e.WordSized) (h : 2 ^ 63 ≤ e.reach) :
    e.stop = e.reach - 2 ^ 64 := by
  obtain ⟨-, hoff, hlen⟩ := hw
  unfold reach at h ⊢
  unfold stop wordSum
  rw [Int.bmod_def, Int.emod_eq_of_lt (by omega) (by simp [Nat.pow]; omega),
    if_neg (by simp [Nat.pow]; omega)]
  simp [Nat.pow]

/-- An edit that starts in order and ends below the largest word ends within a word. -/
theorem inWords_of_reach {e : Edit} {last : Nat} (hlast : (last : Int) ≤ e.offset)
    (h : e.reach < 2 ^ 63) : e.InWords := by
  refine ⟨?_, h⟩
  unfold reach
  omega

/-- At an edit that does not fit after `last`, the pass stops with the error `misfit` names. -/
theorem applyFrom_cons_misfit {content : Bytes} {e : Edit} (es : List Edit) {last : Nat}
    (written index : Nat) (hw : e.WordSized) (hfit : ¬ e.FitsAfter content last) :
    applyFrom content last written index (e :: es) = .error (misfit content last index e) := by
  rw [applyFrom]
  by_cases horder : e.offset < last
  · rw [if_pos (.inl horder)]
    simp [misfit, horder]
  by_cases hwrap : 2 ^ 63 ≤ e.reach
  · -- the end wraps to a negative word: both range checks pass, and the slice does not exist
    have hstop := stop_of_wraps hw hwrap
    obtain ⟨-, hoff, hlen⟩ := hw
    have hneg : e.stop < 0 := by unfold reach at hwrap hstop; omega
    rw [if_neg (by omega), if_pos (by omega), misfit, if_neg horder, if_pos hwrap, hstop]
  have hreach := stop_eq_reach (@inWords_of_reach e last (by omega) (by omega))
  by_cases hrange : (content.length : Int) < e.reach
  · rw [if_pos (.inr (by omega)), misfit, if_neg horder, if_neg hwrap, if_pos hrange]
  · -- in order and in range, so it is the old bytes that are not there
    have hlen : e.stop.toNat - e.offset.toNat = e.old.length := by unfold reach at hreach; omega
    have hle : e.offset ≤ e.stop := by rw [hreach]; unfold reach; omega
    have hold : (content.drop e.offset.toNat).take e.old.length ≠ e.old :=
      fun hold => hfit ⟨by omega, by omega, hold⟩
    rw [if_neg (by omega), if_neg (by omega), if_pos (by rw [hlen]; exact hold), misfit,
      if_neg horder, if_neg hwrap, if_neg hrange]

/-- A pass over edits that a caller can hand it either finds every edit fitting after the one
    before it, each ending within a word, or stops at the first that does not fit with the error
    `misfit` names. -/
theorem applyFrom_first_misfit {content : Bytes} (hsize : content.length < 2 ^ 63) :
    ∀ (es : List Edit) (last written index : Nat), (∀ e ∈ es, e.WordSized) →
      ((∀ i < es.length, FitsAt content last es i) ∧ ∀ e ∈ es, e.InWords) ∨
        ∃ i, ∃ hi : i < es.length, (∀ j < i, FitsAt content last es j) ∧
          ¬ FitsAt content last es i ∧
          applyFrom content last written index es =
            .error (misfit content (((last : Int) :: es.map reach).getD i 0) (index + i) es[i])
  | [], _, _, _, _ => .inl ⟨by simp, by simp⟩
  | e :: es, last, written, index, hws => by
    have hw := hws e List.mem_cons_self
    by_cases hfit : e.FitsAfter content last
    · -- the edit is made, and the pass goes on from its end, still inside the content
      obtain ⟨hoff, hreach⟩ := hfit.offset_eq (Int.natCast_nonneg last)
      have hword : e.InWords := inWords_of_reach hfit.1 (by have := hfit.2.1; omega)
      rcases applyFrom_first_misfit hsize es (e.offset.toNat + e.old.length)
          (written + (e.offset.toNat - last) + e.new.length) (index + 1)
          (fun e' he' => hws e' (List.mem_cons_of_mem e he')) with
        ⟨hall, hwords⟩ | ⟨i, hi, hbefore, hnot, herr⟩
      · left
        rw [← hreach] at hall
        refine ⟨forall_fitsAt_cons.mpr ⟨hfit, hall⟩, fun e' he' => ?_⟩
        rcases List.mem_cons.mp he' with rfl | he'
        · exact hword
        · exact hwords e' he'
      · right
        rw [← hreach] at hbefore hnot herr
        refine ⟨i + 1, by simpa using hi, fun j hj => ?_,
          fun h => hnot (fitsAt_cons_succ.mp h), ?_⟩
        · rcases j with _ | j
          · exact fitsAt_cons_zero.mpr hfit
          · exact fitsAt_cons_succ.mpr (hbefore j (by omega))
        · rw [applyFrom_cons_fits hword hfit, herr, show index + 1 + i = index + (i + 1) by omega]
          rfl
    · right
      refine ⟨0, by simp, fun j hj => absurd hj (Nat.not_lt_zero j),
        fun h => hfit (fitsAt_cons_zero.mp h), ?_⟩
      exact applyFrom_cons_misfit es written index hw hfit

end Edit

/-- Applying edits whose offsets are signed words and whose old bytes are shorter than the
    largest word, to content shorter than the largest word: either every edit fits after the
    one before it and all are made, or the pass stops at the first edit that does not fit, with
    the range error when that edit starts before the end of the one before it or ends past the
    content below the largest word, a slice that does not exist when it starts in order and its
    exact end reaches the largest word, and the mismatch error otherwise. -/
theorem applyEdits_first_misfit (content : Bytes) (es : List Edit)
    (hsize : content.length < 2 ^ 63) (hws : ∀ e ∈ es, e.WordSized) :
    ((∀ i < es.length, Edit.FitsAt content 0 es i) ∧
        ∃ offsets, applyEdits content es = .ok ((Splice.ofEdits content 0 es).new, offsets)) ∨
      ∃ i, ∃ hi : i < es.length, (∀ j < i, Edit.FitsAt content 0 es j) ∧
        ¬ Edit.FitsAt content 0 es i ∧
        applyEdits content es =
          .error (Edit.misfit content ((0 :: es.map Edit.reach).getD i 0) i es[i]) := by
  rcases Edit.applyFrom_first_misfit hsize es 0 0 0 hws with
    ⟨hall, hwords⟩ | ⟨i, hi, hbefore, hnot, herr⟩
  · have hfits : ∀ i < es.length, Edit.FitsAt content 0 es i := by simpa using hall
    exact .inl ⟨hfits, _, applyEdits_ofEdits hwords hfits⟩
  · exact .inr ⟨i, hi, by simpa using hbefore, by simpa using hnot,
      by simpa [applyEdits] using herr⟩

/-- The pass over one edit of `abcdef` at the largest word stops at it. -/
theorem applyEdits_first_misfit_at_word :
    (Bytes.ofString "abcdef").length < 2 ^ 63 ∧
      (∀ e ∈ [(⟨2 ^ 63 - 1, Bytes.ofString "ab", Bytes.ofString "x"⟩ : Edit)], e.WordSized) ∧
      (((∀ i < 1, Edit.FitsAt (Bytes.ofString "abcdef") 0
          [⟨2 ^ 63 - 1, Bytes.ofString "ab", Bytes.ofString "x"⟩] i) ∧
        ∃ offsets, applyEdits (Bytes.ofString "abcdef")
            [⟨2 ^ 63 - 1, Bytes.ofString "ab", Bytes.ofString "x"⟩] =
          .ok ((Splice.ofEdits (Bytes.ofString "abcdef") 0
            [⟨2 ^ 63 - 1, Bytes.ofString "ab", Bytes.ofString "x"⟩]).new, offsets)) ∨
      ∃ i, ∃ hi : i < 1, (∀ j < i, Edit.FitsAt (Bytes.ofString "abcdef") 0
          [⟨2 ^ 63 - 1, Bytes.ofString "ab", Bytes.ofString "x"⟩] j) ∧
        ¬ Edit.FitsAt (Bytes.ofString "abcdef") 0
          [⟨2 ^ 63 - 1, Bytes.ofString "ab", Bytes.ofString "x"⟩] i ∧
        applyEdits (Bytes.ofString "abcdef")
            [⟨2 ^ 63 - 1, Bytes.ofString "ab", Bytes.ofString "x"⟩] =
          .error (Edit.misfit (Bytes.ofString "abcdef")
            ((0 :: [(⟨2 ^ 63 - 1, Bytes.ofString "ab", Bytes.ofString "x"⟩ : Edit)].map
              Edit.reach).getD i 0) i
            [(⟨2 ^ 63 - 1, Bytes.ofString "ab", Bytes.ofString "x"⟩ : Edit)][i])) := by
  have hsize : (Bytes.ofString "abcdef").length < 2 ^ 63 := by decide +kernel
  have hws : ∀ e ∈ [(⟨2 ^ 63 - 1, Bytes.ofString "ab", Bytes.ofString "x"⟩ : Edit)],
      e.WordSized := by
    intro e he
    rw [List.mem_singleton.mp he]
    unfold Edit.WordSized
    decide +kernel
  exact ⟨hsize, hws, applyEdits_first_misfit _ _ hsize hws⟩

/-- An edit of `abcdef` at the largest word, two bytes long: its end wraps around to a negative
    word, both range checks pass, and the pass reads a slice that does not exist instead of
    reporting the edit out of range. -/
theorem applyEdits_wrapped_end :
    applyEdits (Bytes.ofString "abcdef")
        [⟨2 ^ 63 - 1, Bytes.ofString "ab", Bytes.ofString "x"⟩] =
      .error (.sliceBounds 0 (2 ^ 63 - 1) (1 - 2 ^ 63)) ∧
    (EditError.sliceBounds 0 (2 ^ 63 - 1) (1 - 2 ^ 63)).message =
      Bytes.ofString "runtime error: slice bounds out of range [:-9223372036854775807]" :=
  ⟨by decide +kernel, by decide +kernel⟩

end Unalias
