import Mathlib
import Unalias.Specifier

/-! # Where the scanner's specifiers lie

A match of a form is one of its keywords, its opener, a quote, a run of bytes without a quote, a
quote and its closer; `matchQuoted_eq_some_iff` says so in both directions. Every occurrence the
scanner reports therefore sits in the content: its value is the bytes from its start to its stop.

Merging keeps an occurrence only when it starts at or after the stop of the one kept before it,
so the scanner keeps the contract every scanner owes its callers (`scan_placed`): occurrences
come in order of position, sit in the content, and never overlap.
-/

namespace Unalias

/-- An occurrence sits in the content when its value is the bytes from its start to its stop. -/
structure Occurrence.SitsIn (content : Bytes) (o : Occurrence) : Prop where
  stop_eq : o.stop = o.start + o.value.length
  stop_le : o.stop ≤ content.length
  value_eq : (content.drop o.start).take o.value.length = o.value

/-- Occurrences that sit in the content one after another: each starts at or after the stop of the
    one before it, the first at or after `last`. -/
def Occurrence.Placed (content : Bytes) : Nat → List Occurrence → Prop
  | _, [] => True
  | last, o :: os => last ≤ o.start ∧ o.SitsIn content ∧ Placed content o.stop os

section Quotes

theorem takeWhile_unquoted_append {v tail : Bytes} {q : UInt8}
    (hv : ∀ b ∈ v, IsQuote b = false) (hq : IsQuote q = true) :
    (v ++ q :: tail).takeWhile (fun b => !IsQuote b) = v := by
  induction v with
  | nil => simp [hq]
  | cons b v ih =>
      have hb : IsQuote b = false := hv b (by simp)
      simp [hb, ih (fun c hc => hv c (by simp [hc]))]

private theorem takeWhile_unquoted (s : Bytes) :
    ∀ b ∈ s.takeWhile (fun b => !IsQuote b), IsQuote b = false := by
  intro b hb
  simpa using List.all_eq_true.mp (List.all_takeWhile (l := s) (p := fun b => !IsQuote b)) b hb

/-- A match after a lead-in: the lead-in, a quote, a run without quotes, a quote and the closer. -/
theorem matchQuoted_eq_some_iff {lead closer s : Bytes} {at_ len : Nat} {value : Bytes} :
    matchQuoted lead closer s = some (at_, value, len) ↔
      ∃ q q' tail, s = lead ++ q :: value ++ q' :: closer ++ tail ∧ IsQuote q ∧ IsQuote q' ∧
        (∀ b ∈ value, IsQuote b = false) ∧ at_ = lead.length + 1 ∧
        len = lead.length + value.length + 2 + closer.length := by
  constructor
  · intro h
    unfold matchQuoted at h
    split at h
    case isFalse => simp at h
    case isTrue hp =>
      obtain ⟨rest, rfl⟩ := List.isPrefixOf_iff_prefix.mp hp
      simp only [List.drop_left] at h
      match rest, h with
      | q :: body, h =>
        simp only at h
        split at h
        case isFalse => simp at h
        case isTrue hq =>
          -- the run up to the next quote is the value; what follows it starts with that quote
          have hsplit := List.takeWhile_append_dropWhile (p := fun b => !IsQuote b) (l := body)
          have hfree := takeWhile_unquoted body
          generalize body.takeWhile (fun b => !IsQuote b) = v at h hsplit hfree
          rw [← hsplit, List.drop_left] at h
          split at h
          case h_2 => simp at h
          case h_1 q' tail hrest =>
            split at h
            case isFalse => simp at h
            case isTrue hq' =>
              simp only [Bool.and_eq_true] at hq'
              obtain ⟨tail', rfl⟩ := List.isPrefixOf_iff_prefix.mp hq'.2
              simp only [Option.some.injEq, Prod.mk.injEq] at h
              obtain ⟨rfl, rfl, rfl⟩ := h
              refine ⟨q, q', tail', ?_, hq, hq'.1, hfree, rfl, rfl⟩
              rw [← hsplit, hrest]
              simp
  · rintro ⟨q, q', tail, rfl, hq, hq', hfree, rfl, rfl⟩
    have htake : (value ++ q' :: (closer ++ tail)).takeWhile (fun b => !IsQuote b) = value :=
      takeWhile_unquoted_append hfree hq'
    simp [matchQuoted, hq, hq', htake]

end Quotes

namespace SpecifierForm

theorem matchHead_eq_some {f : SpecifierForm} {s value : Bytes} {at_ len : Nat}
    (h : f.matchHead s = some (at_, value, len)) :
    ∃ kw ∈ f.keywords, matchQuoted (kw ++ f.opener) f.closer s = some (at_, value, len) :=
  List.exists_of_findSome?_eq_some h

/-- A match at the head of the bytes holds its value at its offset, ends after the value, and fits
    in the bytes. -/
theorem matchHead_bounds {f : SpecifierForm} {s value : Bytes} {at_ len : Nat}
    (h : f.matchHead s = some (at_, value, len)) :
    (s.drop at_).take value.length = value ∧ at_ + value.length < len ∧ len ≤ s.length := by
  obtain ⟨kw, -, h⟩ := f.matchHead_eq_some h
  obtain ⟨q, q', tail, rfl, -, -, -, rfl, rfl⟩ := matchQuoted_eq_some_iff.mp h
  refine ⟨?_, by omega, by simp; omega⟩
  rw [show kw ++ f.opener ++ q :: value ++ q' :: f.closer ++ tail =
      (kw ++ f.opener) ++ q :: (value ++ q' :: f.closer ++ tail) by simp,
    List.drop_length_add_append, List.drop_one, List.tail_cons, List.append_assoc, List.take_left]

/-- Every match found from offset `pos` on sits in the content whose first `pos` bytes precede
    the bytes searched. -/
theorem findAll_sitsIn (f : SpecifierForm) (pos : Nat) (s : Bytes) :
    ∀ pre : Bytes, pre.length = pos → ∀ o ∈ f.findAll pos s, o.SitsIn (pre ++ s) := by
  fun_induction f.findAll pos s with
  | case1 pos => simp
  | case2 pos b rest at_ value len hm ih =>
      intro pre hpre o ho
      obtain ⟨hvalue, hlt, hle⟩ := matchHead_bounds hm
      simp only [List.length_cons] at hle
      simp only [List.mem_cons] at ho
      rcases ho with rfl | ho
      · refine ⟨rfl, ?_, ?_⟩
        · simp; omega
        · rw [← hpre, List.drop_length_add_append]
          exact hvalue
      · -- the search resumes after the match, with the matched bytes moved into the prefix
        have hsplit : pre ++ b :: rest = (pre ++ (b :: rest).take len) ++ rest.drop (len - 1) := by
          obtain ⟨k, rfl⟩ : ∃ k, len = k + 1 := ⟨len - 1, by omega⟩
          rw [List.append_assoc, Nat.add_sub_cancel, ← List.drop_succ_cons (a := b),
            List.take_append_drop]
        rw [hsplit]
        exact ih (pre ++ (b :: rest).take len) (by simp; omega) o ho
  | case3 pos b rest hm ih =>
      intro pre hpre o ho
      simpa using ih (pre ++ [b]) (by simp [hpre]) o ho

end SpecifierForm

namespace Occurrence.Placed

variable {content : Bytes}

theorem mono {a b : Nat} (hab : b ≤ a) : ∀ {os}, Placed content a os → Placed content b os
  | [], _ => trivial
  | _ :: _, ⟨hle, hsits, hrest⟩ => ⟨Nat.le_trans hab hle, hsits, hrest⟩

/-- Leaving occurrences out keeps the rest placed. -/
theorem sublist {os os' : List Occurrence} (hsub : os'.Sublist os) :
    ∀ {last}, Placed content last os → Placed content last os' := by
  induction hsub with
  | slnil => exact id
  | cons o _ ih =>
      intro last h
      obtain ⟨hle, hsits, hrest⟩ := h
      -- a skipped occurrence still ends after it starts
      have hstart : o.start ≤ o.stop := by rw [hsits.stop_eq]; omega
      exact ih (mono (Nat.le_trans hle hstart) hrest)
  | cons_cons o _ ih =>
      intro last h
      exact ⟨h.1, h.2.1, ih h.2.2⟩

end Occurrence.Placed

/-- Dropping every occurrence that starts before the stop of the one kept before it leaves the
    rest placed, as long as each occurrence sits in the content. -/
theorem dropOverlaps_placed {content : Bytes} :
    ∀ (last : Nat) (os : List Occurrence), (∀ o ∈ os, o.SitsIn content) →
      Occurrence.Placed content last (dropOverlaps last os)
  | _, [], _ => trivial
  | last, o :: os, hsits => by
      have hrest : ∀ o' ∈ os, o'.SitsIn content := fun o' ho' => hsits o' (by simp [ho'])
      unfold dropOverlaps
      split
      case isTrue => exact dropOverlaps_placed last os hrest
      case isFalse hlt =>
        exact ⟨by omega, hsits o (by simp), dropOverlaps_placed o.stop os hrest⟩

/-- The scanner's contract: the specifiers it finds come in order of position, each sitting in
    the content, and none overlaps the next. -/
theorem scan_placed (content : Bytes) : Occurrence.Placed content 0 (scan content) := by
  apply dropOverlaps_placed
  intro o ho
  obtain ⟨f, -, hf⟩ := List.mem_flatMap.mp (List.mem_mergeSort.mp ho)
  exact f.findAll_sitsIn 0 content [] rfl o hf

end Unalias
