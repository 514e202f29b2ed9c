import Unalias.Proofs.Build

/-! # The scanner's occurrences are separated by quotes

Every occurrence the scanner finds is the run of bytes without a quote that follows a quote, and
a quote closes it. Two such runs that start apart are therefore apart: the quote before the later
one cannot lie inside the earlier one, so the earlier one stops before the later one starts
(`Occurrence.Quoted.stop_lt`). Two runs cannot start together either: the search of one form
never finds two occurrences at one start, and a call's opening quote follows a parenthesis where
a declaration's follows a blank (`SpecifierForm.findAll_opener`).

So the merge of the two forms' matches, sorted by start, leaves every occurrence strictly before
the next, and dropping overlaps drops nothing: the scanner answers exactly the matches of both
forms, in order of position (`scan_sorted_union`).
-/

namespace Unalias

/-- A run without quotes that a quote closes ends before any other quoted run that starts after
    it: the quote that opens the later run lies at or past the earlier run's stop. -/
theorem Occurrence.Quoted.stop_lt {content : Bytes} {o o' : Occurrence} (hsits : o.SitsIn content)
    (hq : o.Quoted content) (hq' : o'.Quoted content) (hlt : o.start < o'.start) :
    o.stop < o'.start := by
  obtain ⟨b, hb, hquote⟩ := hq'.opens
  have hstart := hq'.start_pos
  refine Nat.lt_of_not_le fun hle => ?_
  -- the opening quote of `o'` would be byte `k` of the value of `o`
  have hk : o'.start - 1 - o.start < o.value.length := by
    have := hsits.stop_eq
    omega
  have hat := hsits.getElem? hk
  rw [show o.start + (o'.start - 1 - o.start) = o'.start - 1 by omega, hb] at hat
  have hmem : b ∈ o.value := List.mem_of_getElem? hat.symm
  rw [hq.unquoted b hmem] at hquote
  exact Bool.false_ne_true hquote

namespace SpecifierForm

/-- A match at the head of the bytes opens its quote right after the form's opener. -/
theorem matchHead_opener {f : SpecifierForm} {s value : Bytes} {at_ len : Nat}
    (h : f.matchHead s = some (at_, value, len)) (hopen : f.opener ≠ []) :
    2 ≤ at_ ∧ s[at_ - 2]? = f.opener.getLast? := by
  obtain ⟨kw, -, h⟩ := f.matchHead_eq_some h
  obtain ⟨q, q', tail, rfl, -, -, -, rfl, rfl⟩ := matchQuoted_eq_some_iff.mp h
  have hlen : 0 < f.opener.length := List.length_pos_iff.mpr hopen
  have hlead : (kw ++ f.opener).length - 1 < (kw ++ f.opener).length := by simp; omega
  refine ⟨by simp; omega, ?_⟩
  rw [show (kw ++ f.opener).length + 1 - 2 = (kw ++ f.opener).length - 1 by omega,
    show kw ++ f.opener ++ q :: value ++ q' :: f.closer ++ tail =
      (kw ++ f.opener) ++ (q :: value ++ q' :: f.closer ++ tail) by simp,
    List.getElem?_append_left hlead, ← List.getLast?_eq_getElem?, List.getLast?_append]
  rw [List.getLast?_eq_some_getLast hopen, Option.some_or]

/-- The search of one form finds its occurrences at increasing starts: each search resumes past
    the match before. -/
theorem findAll_starts_lt (f : SpecifierForm) (pos : Nat) (s : Bytes) :
    (f.findAll pos s).Pairwise fun o o' => o.start < o'.start := by
  fun_induction f.findAll pos s with
  | case1 pos => exact List.Pairwise.nil
  | case2 pos b rest at_ value len hm ih =>
      have hend := (matchHead_bounds hm).2.1
      refine List.Pairwise.cons (fun o ho => ?_) ih
      have := findAll_start_gt ho
      simp only
      omega
  | case3 pos b rest hm ih => exact ih

/-- Every occurrence of a form opens its quote right after the form's opener. -/
theorem findAll_opener {f : SpecifierForm} (hopen : f.opener ≠ []) {content : Bytes}
    {o : Occurrence} (h : o ∈ f.findAll 0 content) :
    2 ≤ o.start ∧ content[o.start - 2]? = f.opener.getLast? := by
  obtain ⟨j, at_, value, len, hm, rfl⟩ := f.mem_findAll h
  obtain ⟨hat, hbyte⟩ := matchHead_opener hm hopen
  simp only [List.getElem?_drop] at hbyte
  show 2 ≤ 0 + j + at_ ∧ content[0 + j + at_ - 2]? = f.opener.getLast?
  refine ⟨by omega, ?_⟩
  rw [show 0 + j + at_ - 2 = j + (at_ - 2) by omega]
  exact hbyte

end SpecifierForm

/-- The matches of both forms, calls first, before they are merged. -/
def foundMatches (content : Bytes) : List Occurrence :=
  SpecifierForm.all.flatMap fun f => f.findAll 0 content

theorem foundMatches_eq (content : Bytes) :
    foundMatches content =
      SpecifierForm.call.findAll 0 content ++ SpecifierForm.declaration.findAll 0 content := by
  simp [foundMatches, SpecifierForm.all]

/-- No two matches of the two forms start together. -/
theorem foundMatches_starts_ne (content : Bytes) :
    (foundMatches content).Pairwise fun o o' => o.start ≠ o'.start := by
  rw [foundMatches_eq, List.pairwise_append]
  refine ⟨(SpecifierForm.findAll_starts_lt _ 0 content).imp Nat.ne_of_lt,
    (SpecifierForm.findAll_starts_lt _ 0 content).imp Nat.ne_of_lt, fun o ho o' ho' heq => ?_⟩
  -- a call's quote follows `(`, a declaration's follows a blank
  have hcall := (SpecifierForm.findAll_opener (by decide +kernel) ho).2
  have hdecl := (SpecifierForm.findAll_opener (by decide +kernel) ho').2
  rw [heq, hdecl] at hcall
  exact absurd hcall (by decide +kernel)

theorem foundMatches_quoted (content : Bytes) :
    ∀ o ∈ foundMatches content, o.SitsIn content ∧ o.Quoted content := by
  intro o ho
  obtain ⟨f, -, hf⟩ := List.mem_flatMap.mp ho
  exact ⟨f.findAll_sitsIn 0 content [] rfl o hf, f.findAll_quoted content o hf⟩

/-- The matches sorted by start. -/
def sortedMatches (content : Bytes) : List Occurrence :=
  (foundMatches content).mergeSort fun a b => a.start ≤ b.start

theorem sortedMatches_perm (content : Bytes) : (sortedMatches content).Perm (foundMatches content) :=
  List.mergeSort_perm _ _

/-- Sorted by start, each match stops before the next one starts. -/
theorem sortedMatches_separated (content : Bytes) :
    (sortedMatches content).Pairwise fun o o' => o.stop < o'.start := by
  have hsorted : (sortedMatches content).Pairwise fun o o' => decide (o.start ≤ o'.start) = true :=
    List.pairwise_mergeSort (fun a b c hab hbc => by simp at *; omega)
      (fun a b => by simp; omega) _
  have hne : (sortedMatches content).Pairwise fun o o' => o.start ≠ o'.start :=
    (foundMatches_starts_ne content).perm (sortedMatches_perm content).symm fun h => Ne.symm h
  refine (hsorted.and hne).imp_of_mem fun {o o'} ho ho' ⟨hle, hne⟩ => ?_
  obtain ⟨hsits, hq⟩ := foundMatches_quoted content o ((sortedMatches_perm content).subset ho)
  have hq' := (foundMatches_quoted content o' ((sortedMatches_perm content).subset ho')).2
  exact hq.stop_lt hsits hq' (Nat.lt_of_le_of_ne (by simpa using hle) hne)

/-- Occurrences each of which starts at or after `last` and stops before the next one starts
    lose nothing when overlaps are dropped. -/
theorem dropOverlaps_of_separated :
    ∀ {last : Nat} {os : List Occurrence}, (∀ o ∈ os, last ≤ o.start) →
      (∀ o ∈ os, o.start ≤ o.stop) → os.Pairwise (fun o o' => o.stop < o'.start) →
        dropOverlaps last os = os
  | _, [], _, _, _ => rfl
  | last, o :: os, hlast, hle, hsep => by
      obtain ⟨hafter, hrest⟩ := List.pairwise_cons.mp hsep
      rw [dropOverlaps, if_neg (Nat.not_lt.mpr (hlast o List.mem_cons_self))]
      congr 1
      exact dropOverlaps_of_separated (fun o' ho' => Nat.le_of_lt (hafter o' ho'))
        (fun o' ho' => hle o' (List.mem_cons_of_mem _ ho')) hrest

/-- The scanner drops no match: it answers the matches of both forms sorted by start. -/
theorem scan_eq_sortedMatches (content : Bytes) : scan content = sortedMatches content := by
  have hsits : ∀ o ∈ sortedMatches content, o.SitsIn content := fun o ho =>
    (foundMatches_quoted content o ((sortedMatches_perm content).subset ho)).1
  apply dropOverlaps_of_separated (fun o _ => Nat.zero_le _) (fun o ho => ?_)
    (sortedMatches_separated content)
  rw [(hsits o ho).stop_eq]
  exact Nat.le_add_right _ _

/-- The scanner's occurrences, in order, each stop before the next one starts. -/
theorem scan_separated (content : Bytes) :
    (scan content).Pairwise fun o o' => o.stop < o'.start := by
  rw [scan_eq_sortedMatches]
  exact sortedMatches_separated content

/-- What the scanner answers for any content: exactly the matches of the call form and of the
    declaration form, each search running left to right; in order of position, each stopping
    before the next starts; each the bytes from its start to its stop, a run without quotes with
    a quote just before it and a quote at its stop. -/
theorem scan_sorted_union (content : Bytes) :
    (scan content).Perm (SpecifierForm.call.findAll 0 content ++
        SpecifierForm.declaration.findAll 0 content) ∧
      (scan content).Pairwise (fun o o' => o.stop < o'.start) ∧
      ∀ o ∈ scan content, o.SitsIn content ∧ o.Quoted content := by
  rw [scan_eq_sortedMatches, ← foundMatches_eq]
  refine ⟨sortedMatches_perm content, sortedMatches_separated content, fun o ho => ?_⟩
  exact foundMatches_quoted content o ((sortedMatches_perm content).subset ho)

end Unalias
