import Unalias.Proofs.EditApplication

/-! # Remapping specifiers

Remapping visits the scanned specifiers of a content in order and decides each on its own. The
hint recorded last at the specifier's start wins when its old text is the specifier; otherwise
the mapping's entry for the specifier applies when it changes it; otherwise the specifier stays.
`referenceEdit` says so with the library's association-list lookups, and `remapEdit` is that
rule (`remapEdit_eq_referenceEdit`).

Every edit so made replaces a scanned specifier, at its start, by new bytes, and the scanner's
specifiers lie in order inside the content without overlapping, so the edits fit the content
(`Edit.Fit.of_filterMap`). Applying them therefore never fails, and the fallback that keeps the
content when they cannot be applied is never taken (`remap_eq_reference`): the output is the
content cut at the edited specifiers with their new bytes put in, every other byte kept.
-/

namespace Unalias

/-- A first-match search on the key of an association list finds what its lookup finds. -/
theorem find?_key_map_snd {α β : Type} [BEq α] [LawfulBEq α] (a : α) :
    ∀ l : List (α × β), (l.find? (·.1 == a)).map (·.2) = l.lookup a
  | [] => rfl
  | (k, b) :: l => by
      rw [List.find?_cons, List.lookup_cons]
      by_cases hk : k = a
      · subst hk
        simp
      · have hak : (a == k) = false := beq_false_of_ne (Ne.symm hk)
        simp only [beq_false_of_ne hk, hak]
        exact find?_key_map_snd a l

theorem Hints.find?_eq_lookup (hints : Hints) (offset : Int) :
    hints.find? offset = hints.reverse.lookup offset :=
  find?_key_map_snd offset hints.reverse

/-- What remapping does at a scanned specifier, as documented: the hint recorded last at its start
    when that hint's old text is the specifier, else the mapping's target for the specifier when
    it differs from it, else nothing. -/
def referenceEdit (mapping : List (Bytes × Bytes)) (hints : Hints) (o : Occurrence) : Option Edit :=
  Option.or
    (((hints.reverse.lookup (o.start : Int)).filter (·.old == o.value)).map
      fun h => ⟨o.start, o.value, h.new⟩)
    (((mapping.lookup o.value).filter (· != o.value)).map fun t => ⟨o.start, o.value, t⟩)

/-- The edits remapping makes, as documented: for each scanned specifier in order, the edit that
    `referenceEdit` gives there. -/
def referenceEdits (content : Bytes) (mapping : List (Bytes × Bytes)) (hints : Hints) :
    List Edit :=
  (scan content).filterMap (referenceEdit mapping hints)

theorem remapEdit_byMapping_eq (mapping : List (Bytes × Bytes)) (o : Occurrence) :
    remapEdit.byMapping mapping o =
      ((mapping.lookup o.value).filter (· != o.value)).map fun t => ⟨o.start, o.value, t⟩ := by
  rw [← find?_key_map_snd o.value mapping, remapEdit.byMapping]
  cases mapping.find? (·.1 == o.value) with
  | none => rfl
  | some m =>
      by_cases ht : m.2 = o.value <;> simp [ht, Option.filter]

theorem remapEdit_eq_referenceEdit (mapping : List (Bytes × Bytes)) (hints : Hints)
    (o : Occurrence) : remapEdit mapping hints o = referenceEdit mapping hints o := by
  rw [remapEdit, referenceEdit, Hints.find?_eq_lookup, remapEdit_byMapping_eq]
  cases hints.reverse.lookup (o.start : Int) with
  | none => rfl
  | some h =>
      -- a hint whose old text is not the specifier leaves the choice to the mapping
      by_cases hold : h.old = o.value <;> simp [hold, Option.filter]

theorem referenceEdit_at {mapping : List (Bytes × Bytes)} {hints : Hints} {o : Occurrence}
    {e : Edit} (h : referenceEdit mapping hints o = some e) :
    e.offset = o.start ∧ e.old = o.value := by
  rw [referenceEdit, Option.or_eq_some_iff] at h
  rcases h with h | ⟨-, h⟩
  · obtain ⟨_, -, rfl⟩ := Option.map_eq_some_iff.mp h
    exact ⟨rfl, rfl⟩
  · obtain ⟨_, -, rfl⟩ := Option.map_eq_some_iff.mp h
    exact ⟨rfl, rfl⟩

namespace Edit

/-- Edits made at placed occurrences, each replacing an occurrence's value at its start, fit the
    content, whichever of the occurrences are edited. -/
theorem Fit.of_filterMap {content : Bytes} (f : Occurrence → Option Edit)
    (hf : ∀ o e, f o = some e → e.offset = o.start ∧ e.old = o.value) :
    ∀ (os : List Occurrence) (last : Nat), Occurrence.Placed content last os →
      Fit content last (os.filterMap f)
  | [], _, _ => trivial
  | o :: os, last, ⟨hle, hsits, hrest⟩ => by
      have hstop := hsits.stop_eq
      rw [List.filterMap_cons]
      cases ho : f o with
      | none =>
          -- an occurrence passed over stops after `last`, so the rest is placed after `last` too
          exact Fit.of_filterMap f hf os last (hrest.mono (by omega))
      | some e =>
          obtain ⟨hoff, hold⟩ := hf o e ho
          refine ⟨o.start, hoff, hle, ?_, ?_, ?_⟩
          · rw [hold, ← hstop]
            exact hsits.stop_le
          · rw [hold]
            exact hsits.value_eq
          · rw [hold, ← hstop]
            exact Fit.of_filterMap f hf os o.stop hrest

/-- Edits that fit content shorter than the largest word end within a word. -/
theorem Fit.inWords {content : Bytes} (hsize : content.length < 2 ^ 63) :
    ∀ {es : List Edit} {last : Nat}, Fit content last es → ∀ e ∈ es, e.InWords
  | [], _, _ => by simp
  | e :: es, _, ⟨start, hoff, _, hend, _, hrest⟩ => by
      intro e' he'
      rcases List.mem_cons.mp he' with rfl | he'
      · unfold InWords reach
        omega
      · exact Fit.inWords hsize hrest e' he'

/-- Edits that fit after `last` fit one after another, each after the end of the one before. -/
theorem Fit.fitsAt {content : Bytes} :
    ∀ {es : List Edit} {last : Nat}, Fit content last es → ∀ i < es.length, FitsAt content last es i
  | [], _, _ => by simp
  | e :: es, last, ⟨start, hoff, hle, hend, hold, hrest⟩ => by
      have hreach : e.reach = ((start + e.old.length : Nat) : Int) := by
        unfold reach
        push_cast
        omega
      refine forall_fitsAt_cons.mpr ⟨⟨by omega, by omega, ?_⟩, ?_⟩
      · rw [hoff, Int.toNat_natCast]
        exact hold
      · rw [hreach]
        exact Fit.fitsAt hrest

end Edit

/-- Edits that fit content shorter than the largest word apply, and make the splice they cut
    from the content. -/
theorem applyEdits_of_fit {content : Bytes} {es : List Edit} (hsize : content.length < 2 ^ 63)
    (hfit : Edit.Fit content 0 es) :
    applyEdits content es = .ok ((Splice.ofEdits content 0 es).new,
      ((Splice.ofEdits content 0 es).swap.edits 0).map fun e => e.offset.toNat) ∧
      (Splice.ofEdits content 0 es).old = content := by
  have hfits : ∀ i < es.length, Edit.FitsAt content 0 es i := by
    simpa using hfit.fitsAt
  exact ⟨applyEdits_ofEdits (hfit.inWords hsize) hfits, Splice.ofEdits_old es 0 hfits⟩

/-- The edits remapping makes are made at scanned specifiers, so they fit the content. -/
theorem referenceEdits_fit (content : Bytes) (mapping : List (Bytes × Bytes)) (hints : Hints) :
    Edit.Fit content 0 (referenceEdits content mapping hints) :=
  Edit.Fit.of_filterMap _ (fun _ _ h => referenceEdit_at h) (scan content) 0 (scan_placed content)

/-- Remapping content shorter than the largest word gives the splice of the documented edits,
    and counts them. -/
theorem remap_eq_ofEdits (content : Bytes) (mapping : List (Bytes × Bytes)) (hints : Hints)
    (hsize : content.length < 2 ^ 63) :
    remap content mapping hints =
      ((Splice.ofEdits content 0 (referenceEdits content mapping hints)).new,
        (referenceEdits content mapping hints).length) := by
  have hedits : (scan content).filterMap (remapEdit mapping hints) =
      referenceEdits content mapping hints :=
    List.filterMap_congr fun o _ => remapEdit_eq_referenceEdit mapping hints o
  rw [remap, hedits]
  by_cases hnil : referenceEdits content mapping hints = []
  · -- no edit: the content is kept, which is also what the splice of no edit gives
    rw [if_pos hnil, hnil]
    rfl
  · rw [if_neg hnil, (applyEdits_of_fit hsize (referenceEdits_fit content mapping hints)).1]

/-- Remapping by hints and a mapping makes, at each scanned specifier in order, the documented
    edit, and applies those edits: the output is the content cut at the edited specifiers, each
    replaced by its new bytes and every other byte kept, and the count is the number of edits,
    hint edits that write the old text back included. So the edits always apply, and the content
    is kept with a count of 0 exactly when there is no edit to make. -/
theorem remap_eq_reference (content : Bytes) (mapping : List (Bytes × Bytes)) (hints : Hints)
    (hsize : content.length < 2 ^ 63) :
    ∃ offsets, applyEdits content (referenceEdits content mapping hints) =
        .ok ((Splice.ofEdits content 0 (referenceEdits content mapping hints)).new, offsets) ∧
      remap content mapping hints =
        ((Splice.ofEdits content 0 (referenceEdits content mapping hints)).new,
          (referenceEdits content mapping hints).length) ∧
      (Splice.ofEdits content 0 (referenceEdits content mapping hints)).old = content := by
  obtain ⟨happly, hold⟩ := applyEdits_of_fit hsize (referenceEdits_fit content mapping hints)
  exact ⟨_, happly, remap_eq_ofEdits content mapping hints hsize, hold⟩

/-- Remapping `import('@/a')` by a mapping to `./a`. -/
theorem remap_eq_reference_mapped :
    (Bytes.ofString "import('@/a')").length < 2 ^ 63 ∧
      ∃ offsets, applyEdits (Bytes.ofString "import('@/a')")
          (referenceEdits (Bytes.ofString "import('@/a')")
            [(Bytes.ofString "@/a", Bytes.ofString "./a")] []) =
        .ok ((Splice.ofEdits (Bytes.ofString "import('@/a')") 0
          (referenceEdits (Bytes.ofString "import('@/a')")
            [(Bytes.ofString "@/a", Bytes.ofString "./a")] [])).new, offsets) ∧
      remap (Bytes.ofString "import('@/a')") [(Bytes.ofString "@/a", Bytes.ofString "./a")] [] =
        ((Splice.ofEdits (Bytes.ofString "import('@/a')") 0
          (referenceEdits (Bytes.ofString "import('@/a')")
            [(Bytes.ofString "@/a", Bytes.ofString "./a")] [])).new,
          (referenceEdits (Bytes.ofString "import('@/a')")
            [(Bytes.ofString "@/a", Bytes.ofString "./a")] []).length) ∧
      (Splice.ofEdits (Bytes.ofString "import('@/a')") 0
          (referenceEdits (Bytes.ofString "import('@/a')")
            [(Bytes.ofString "@/a", Bytes.ofString "./a")] [])).old =
        Bytes.ofString "import('@/a')" :=
  ⟨by decide +kernel, remap_eq_reference _ _ _ (by decide +kernel)⟩

end Unalias
