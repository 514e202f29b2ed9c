import Mathlib.Data.List.Basic
import Mathlib.Data.List.Pairwise
import Unalias.Proofs.Build
import Unalias.Replay

/-! # Replaying the edits of a splice

Replaying records puts each hint on the scanned specifier at its offset and remaps the content.
When the hints are the edits of a splice, made at chosen specifiers that hold bytes and share no
start with another, remapping finds exactly those edits again (`remap_edits`), every hint sits on
its specifier as recorded (`Hints.matchAt_chosen`), and the replay writes the splice's new
content (`Splice.replay`).
-/

namespace Unalias

namespace Hints

theorem find?_eq_some {hints : Hints} {x : Int} {e : Edit} (h : hints.find? x = some e) :
    ∃ h' ∈ hints, h'.1 = x ∧ h'.2 = e := by
  obtain ⟨h', hfind, rfl⟩ := Option.map_eq_some_iff.mp h
  exact ⟨h', List.mem_reverse.mp (List.mem_of_find?_eq_some hfind),
    by simpa using List.find?_some hfind, rfl⟩

theorem find?_eq_none {hints : Hints} {x : Int} (h : hints.find? x = none) :
    ∀ h' ∈ hints, h'.1 ≠ x := by
  intro h' hh heq
  have := List.find?_eq_none.mp (Option.map_eq_none_iff.mp h) h' (List.mem_reverse.mpr hh)
  simp_all

end Hints

theorem empty_of_start_eq {α : Type} {xs : List (Occurrence × α)}
    (h : xs.Pairwise fun p q => p.1.start = q.1.start → p.1.value = [] ∧ q.1.value = [])
    {p q : Occurrence × α} (hp : p ∈ xs) (hq : q ∈ xs) (hpq : p ≠ q) (heq : p.1.start = q.1.start) :
    p.1.value = [] ∧ q.1.value = [] := by
  have : Std.Symm fun p q : Occurrence × α =>
      p.1.start = q.1.start → p.1.value = [] ∧ q.1.value = [] :=
    ⟨fun _ _ h heq => (h heq.symm).symm⟩
  exact h.forall hp hq hpq heq

/-- The edit at an occurrence's start, with the occurrence's value as old bytes. -/
def Occurrence.edit (o : Occurrence) (new : Bytes) : Edit := ⟨o.start, o.value, new⟩

/-- Remapping without a mapping, by hints at chosen occurrences that hold bytes, where no other
    occurrence starts, makes the chosen occurrences' edits and no other. -/
theorem remap_edits {α : Type} (xs : List (Occurrence × α)) (chosen : Occurrence × α → Bool)
    (new : Occurrence × α → Bytes) (hne : ∀ p ∈ xs, chosen p = true → p.1.value ≠ [])
    (hstarts : xs.Pairwise fun p q => p.1.start = q.1.start → p.1.value = [] ∧ q.1.value = []) :
    (xs.map Prod.fst).filterMap (remapEdit []
        ((xs.filter chosen).map fun p => ((p.1.start : Int), p.1.edit (new p)))) =
      (xs.filter chosen).map fun p => p.1.edit (new p) := by
  -- the only hint at a chosen occurrence's start is its own, and none stands at another's
  have hown : ∀ p ∈ xs, ∀ h ∈ (xs.filter chosen).map fun p => ((p.1.start : Int), p.1.edit (new p)),
      h.1 = p.1.start → chosen p = true ∧ h = ((p.1.start : Int), p.1.edit (new p)) := by
    intro p hp h hh heq
    obtain ⟨q, hq, rfl⟩ := List.mem_map.mp hh
    obtain ⟨hqx, hqc⟩ := List.mem_filter.mp hq
    have hstart : q.1.start = p.1.start := by simp only at heq; omega
    by_cases hqp : q = p
    · subst hqp
      exact ⟨hqc, rfl⟩
    · exact absurd (empty_of_start_eq hstarts hqx hp hqp hstart).1 (hne q hqx hqc)
  have hpoint : ∀ p ∈ xs, remapEdit []
      ((xs.filter chosen).map fun p => ((p.1.start : Int), p.1.edit (new p))) p.1 =
        if chosen p then some (p.1.edit (new p)) else none := by
    intro p hp
    unfold remapEdit
    cases hfind : Hints.find? ((xs.filter chosen).map
        fun p => ((p.1.start : Int), p.1.edit (new p))) p.1.start with
    | none =>
        have hc : chosen p = false := by
          by_contra hc
          exact Hints.find?_eq_none hfind _
            (List.mem_map_of_mem (List.mem_filter.mpr ⟨hp, by simpa using hc⟩)) rfl
        simp [hc, remapEdit.byMapping]
    | some e =>
        obtain ⟨h, hh, heq, rfl⟩ := Hints.find?_eq_some hfind
        obtain ⟨hc, rfl⟩ := hown p hp h hh heq
        simp [hc, Occurrence.edit]
  rw [List.filterMap_map]
  conv => rhs; rw [← List.filterMap_eq_map', List.filterMap_filter]
  exact List.filterMap_congr hpoint

theorem Hints.matchAt_chosen {α : Type} (xs : List (Occurrence × α)) (chosen : Occurrence × α → Bool)
    (new : Occurrence × α → Bytes) :
    Hints.MatchAt (xs.map Prod.fst)
      ((xs.filter chosen).map fun p => ((p.1.start : Int), p.1.edit (new p))) 0 = true := by
  simp only [Hints.MatchAt, List.all_eq_true, List.any_eq_true, List.mem_map, List.mem_filter]
  rintro _ ⟨p, ⟨hp, -⟩, rfl⟩
  exact ⟨p.1, ⟨p, hp, rfl⟩, by simp [Occurrence.edit]⟩

namespace Replay

/-- Hints recorded at offsets that are set and pairwise different are taken in order, none in
    the place of another. -/
theorem hintsOf_eq (dir : Direction) (file : Path) (rs : List RecordedReplacement)
    (hpos : ∀ r ∈ rs, 0 ≤ (r.hint dir).1) (hdist : (rs.map fun r => (r.hint dir).1).Nodup) :
    hintsOf dir file rs = .ok (rs.map (·.hint dir)) := by
  -- the hints gathered so far sit at offsets no later record uses
  suffices h : ∀ (acc : Hints), (∀ h ∈ acc, ∀ r ∈ rs, h.1 ≠ (r.hint dir).1) →
      rs.foldlM (fun hints r =>
        if (r.hint dir).1 < 0 then
          (.error (.tool .backup file (Bytes.ofString "no offset recorded for " ++ (r.hint dir).2.old)
            none) : Except Failure Hints)
        else .ok (hints.set (r.hint dir))) acc = .ok (acc ++ rs.map (·.hint dir)) by
    simpa [hintsOf] using h [] (by simp)
  induction rs with
  | nil => intro acc _; simp; rfl
  | cons r rs ih =>
      intro acc hacc
      have hr : ¬ (r.hint dir).1 < 0 := by have := hpos r (by simp); omega
      have hset : acc.set (r.hint dir) = acc ++ [r.hint dir] := by
        simp only [Hints.set, List.append_left_inj]
        refine List.filter_eq_self.mpr fun h hh => ?_
        simpa using hacc h hh r (by simp)
      simp only [List.foldlM_cons, hr, if_false, hset]
      simp only [List.map_cons, List.nodup_cons, List.mem_map] at hdist
      simp only [bind, Except.bind]
      rw [ih (fun r' hr' => hpos r' (by simp [hr'])) hdist.2]
      · simp
      · intro h hh r' hr'
        rcases List.mem_append.mp hh with hh | hh
        · exact hacc h hh r' (by simp [hr'])
        · rw [List.mem_singleton.mp hh]
          intro heq
          exact hdist.1 ⟨r', hr', heq.symm⟩

theorem content_eq (dir : Direction) (file : Path) (rs : List RecordedReplacement)
    (before : Bytes) {hints : Hints} (hh : hintsOf dir file rs = .ok hints) (hne : hints ≠ [])
    (hmatch : Hints.MatchAt (scan before) hints 0 = true) :
    content dir file rs before = .ok (some (remap before [] hints).1) := by
  simp [content, hh, hne, hmatch, bind, Except.bind, pure, Except.pure]

end Replay

/-- Replaying, in a direction, records whose hints are the edits of a well-formed splice, where
    those edits are made at chosen scanned specifiers that hold bytes and share no start, turns
    the splice's old content into its new one, every hint on its specifier as recorded. -/
theorem Splice.replay {α : Type} (sp : Splice) (hwf : sp.WellFormed)
    (hsize : sp.old.length < 2 ^ 63) (dir : Direction) (file : Path)
    (rs : List RecordedReplacement) (xs : List (Occurrence × α)) (chosen : Occurrence × α → Bool)
    (new : Occurrence × α → Bytes) (hscan : xs.map Prod.fst = scan sp.old)
    (hne : ∀ p ∈ xs, chosen p = true → p.1.value ≠ [])
    (hstarts : xs.Pairwise fun p q => p.1.start = q.1.start → p.1.value = [] ∧ q.1.value = [])
    (hedits : (xs.filter chosen).map (fun p => p.1.edit (new p)) = sp.edits 0)
    (hchosen : sp.edits 0 ≠ [])
    (hrs : rs.map (·.hint dir) = (sp.edits 0).map fun e => (e.offset, e)) :
    Replay.content dir file rs sp.old = .ok (some sp.new) ∧
      ∃ hints, Replay.hintsOf dir file rs = .ok hints ∧
        Hints.MatchAt (scan sp.old) hints 0 = true := by
  obtain ⟨hpair, hge⟩ := sp.edits_offset hwf 0
  have hhints : (sp.edits 0).map (fun e => (e.offset, e)) =
      (xs.filter chosen).map fun p => ((p.1.start : Int), p.1.edit (new p)) := by
    rw [← hedits, List.map_map]
    rfl
  have hh : Replay.hintsOf dir file rs = .ok ((sp.edits 0).map fun e => (e.offset, e)) := by
    rw [← hrs]
    apply Replay.hintsOf_eq
    · intro r hr
      obtain ⟨e, he, heq⟩ := List.mem_map.mp (hrs ▸ List.mem_map_of_mem hr :
        r.hint dir ∈ (sp.edits 0).map fun e => (e.offset, e))
      rw [← heq]
      exact_mod_cast hge e he
    · have hoffs : (rs.map fun r => (r.hint dir).1) = (sp.edits 0).map (·.offset) := by
        have := congrArg (List.map Prod.fst) hrs
        simp only [List.map_map] at this
        exact this
      rw [hoffs, List.Nodup, List.pairwise_map]
      exact hpair.imp Int.ne_of_lt
  have hmatch : Hints.MatchAt (scan sp.old) ((sp.edits 0).map fun e => (e.offset, e)) 0 = true := by
    rw [← hscan, hhints]
    exact Hints.matchAt_chosen xs chosen new
  refine ⟨?_, _, hh, hmatch⟩
  rw [Replay.content_eq dir file rs sp.old hh (by simpa using hchosen) hmatch]
  have hfound : (scan sp.old).filterMap (remapEdit []
      ((sp.edits 0).map fun e => (e.offset, e))) = sp.edits 0 := by
    rw [← hscan, hhints, remap_edits xs chosen new hne hstarts, hedits]
  simp only [remap, hfound, hchosen, if_false, sp.applyEdits_edits hsize]

end Unalias
