import Unalias.Edit
import Unalias.Proofs.Scan

/-! # When edits apply

Edits apply in one pass when they fit the content: in order and apart, each inside the content
with its old bytes at its offset. Offsets are words, but an edit that ends inside content shorter
than the largest word never wraps, so a fitting list applies without error (`applyEdits_ok`).

Edits made at placed occurrences, each replacing an occurrence's value, fit the content
(`Fit.of_placed`), whatever bytes they put in.
-/

namespace Unalias

/-- What applying edits asks of them: each starts at or after the end of the one before it, the
    first at or after `last`, and finds its old bytes at its offset, inside the content. -/
def Edit.Fit (content : Bytes) : Nat → List Edit → Prop
  | _, [] => True
  | last, e :: es => ∃ start : Nat, e.offset = start ∧ last ≤ start ∧
      start + e.old.length ≤ content.length ∧ (content.drop start).take e.old.length = e.old ∧
      Fit content (start + e.old.length) es

/-- A sum below the largest signed word does not wrap. -/
theorem wordSum_of_lt {a b : Nat} (h : a + b < 2 ^ 63) : wordSum a b = a + b := by
  unfold wordSum
  apply Int.bmod_eq_of_le <;> simp [Nat.pow] <;> omega

namespace Edit

/-- An edit that fits, and whose end is a word, is made: the gap before it, its new bytes, then
    the edits after it. -/
theorem applyFrom_cons {content : Bytes} {e : Edit} {es : List Edit}
    {last written index start : Nat} (hword : start + e.old.length < 2 ^ 63) (hoff : e.offset = start)
    (hlast : last ≤ start) (hend : start + e.old.length ≤ content.length)
    (hold : (content.drop start).take e.old.length = e.old) :
    applyFrom content last written index (e :: es) =
      (applyFrom content (start + e.old.length) (written + (start - last) + e.new.length)
          (index + 1) es).map fun (rest, offsets) =>
        ((content.drop last).take (start - last) ++ e.new ++ rest,
          (written + (start - last)) :: offsets) := by
  have hstop : e.stop = ((start + e.old.length : Nat) : Int) := by
    rw [stop, hoff, wordSum_of_lt (by omega)]
    simp
  have hgap : ((content.drop last).take (start - last)).length = start - last := by
    simp only [List.length_take, List.length_drop]
    omega
  have hnot : ¬(e.offset < last ∨ e.stop > content.length) := by rw [hstop, hoff]; omega
  have hwrap : ¬(e.stop < e.offset) := by rw [hstop, hoff]; omega
  rw [applyFrom, if_neg hnot, if_neg hwrap]
  simp only [hstop, hoff, Int.toNat_natCast, Nat.add_sub_cancel_left, hold, ne_eq, not_true,
    if_false, hgap]
  rcases applyFrom content (start + e.old.length) (written + (start - last) + e.new.length)
    (index + 1) es with _ | ⟨rest, offsets⟩ <;> rfl

theorem applyFrom_ok {content : Bytes} (hsize : content.length < 2 ^ 63) :
    ∀ (es : List Edit) (last written index : Nat), Fit content last es →
      ∃ out offsets, applyFrom content last written index es = .ok (out, offsets)
  | [], _, _, _, _ => ⟨_, _, rfl⟩
  | e :: es, last, written, index, ⟨start, hoff, hlast, hend, hold, hfit⟩ => by
      obtain ⟨out, offsets, hrest⟩ := applyFrom_ok hsize es (start + e.old.length)
        (written + (start - last) + e.new.length) (index + 1) hfit
      rw [applyFrom_cons (by omega) hoff hlast hend hold, hrest]
      exact ⟨_, _, rfl⟩

/-- Edits that replace the values of placed occurrences fit the content, whatever they put in
    their place. -/
theorem Fit.of_placed {content : Bytes} {α : Type} (occ : α → Occurrence) (new : α → Bytes) :
    ∀ (xs : List α) (last : Nat), Occurrence.Placed content last (xs.map occ) →
      Fit content last (xs.map fun x => ⟨(occ x).start, (occ x).value, new x⟩)
  | [], _, _ => trivial
  | x :: xs, last, ⟨hle, hsits, hrest⟩ => by
      have hstop := hsits.stop_eq
      refine ⟨(occ x).start, rfl, hle, hstop ▸ hsits.stop_le, hsits.value_eq, ?_⟩
      exact Fit.of_placed occ new xs _ (hstop ▸ hrest)

end Edit

/-- Edits that fit content shorter than the largest word apply without error. -/
theorem applyEdits_ok {content : Bytes} {es : List Edit} (hsize : content.length < 2 ^ 63)
    (hfit : Edit.Fit content 0 es) : ∃ out offsets, applyEdits content es = .ok (out, offsets) :=
  Edit.applyFrom_ok hsize es 0 0 0 hfit

end Unalias
