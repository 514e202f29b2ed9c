import Mathlib.Data.List.Dedup
import Mathlib.Data.List.Sort
import Unalias.Proofs.HintTable
import Unalias.Proofs.AliasDeclarations
import Unalias.Proofs.FileOps
import Unalias.Proofs.RootedPath

/-! # Replaying a file's recorded edits

A replay reads, at each recorded offset, the edit recorded there last (`Replay.recordedAt`). It
makes those edits where the file's specifiers now stand: as recorded when every recorded edit
still stands on a scanned specifier holding its old text, else moved by the one shift that puts
them all on such specifiers (`Replay.ShiftFor`). The edits so placed are `Replay.shiftedEdits`,
in order of offset. Each lies on a scanned specifier, so together they fit the file
(`Replay.shiftedEdits_fit`), and remapping by the placed hints makes exactly them
(`Replay.referenceEdits_shift`): a specifier that merely holds a recorded text elsewhere is
never edited.

`Replay.replayFile_edits_recorded` follows a replay of a file the tree holds: a negative
recorded offset fails and leaves the tree as it was; nothing recorded leaves it as it was; a
shift as above writes the file with exactly the shifted edits made and every other byte kept;
and when there is no such shift the replay fails and leaves the tree as it was.
-/

namespace Unalias

/-- Two lists of edits at increasing offsets that hold the same edits are the same list. -/
theorem eq_of_offsets_lt {l₁ l₂ : List Edit}
    (h₁ : l₁.Pairwise fun e e' => e.offset < e'.offset)
    (h₂ : l₂.Pairwise fun e e' => e.offset < e'.offset) (hmem : ∀ e, e ∈ l₁ ↔ e ∈ l₂) :
    l₁ = l₂ := by
  have hnodup : ∀ {l : List Edit}, l.Pairwise (fun e e' => e.offset < e'.offset) → l.Nodup :=
    fun h => List.nodup_iff_pairwise_ne.mpr
      (h.imp fun hlt heq => by rw [heq] at hlt; exact lt_irrefl _ hlt)
  refine List.Perm.eq_of_pairwise (fun a b _ _ hab hba => absurd (hab.trans hba) (lt_irrefl _))
    h₁ h₂ ?_
  exact (List.perm_ext_iff_of_nodup (hnodup h₁) (hnodup h₂)).mpr hmem

namespace Replay

/-- The edit recorded last at an offset when replaying in a direction. -/
def recordedAt (dir : Direction) (rs : List RecordedReplacement) (k : Int) : Option Edit :=
  (rs.map (·.hint dir)).reverse.lookup k

/-- The offsets recorded in a direction, each once, in increasing order. -/
def recordedOffsets (dir : Direction) (rs : List RecordedReplacement) : List Int :=
  (rs.map fun r => (r.hint dir).1).dedup.insertionSort (· ≤ ·)

/-- The recorded edits moved by `d`, in order of offset: at each recorded offset `k`, the edit
    recorded last there, made at `k + d`. -/
def shiftedEdits (dir : Direction) (rs : List RecordedReplacement) (d : Int) : List Edit :=
  (recordedOffsets dir rs).filterMap fun k =>
    (recordedAt dir rs k).map fun e => ⟨k + d, e.old, e.new⟩

/-- Every recorded edit, moved by `d`, stands on a scanned specifier of the content that holds
    its old text. -/
def LinesUp (dir : Direction) (rs : List RecordedReplacement) (content : Bytes) (d : Int) :
    Prop :=
  ∀ k e, recordedAt dir rs k = some e →
    ∃ o ∈ scan content, (o.start : Int) = k + d ∧ o.value = e.old

/-- The shift a replay makes its edits with: none when the recorded edits line up as recorded,
    else the one shift that lines them up. -/
def ShiftFor (dir : Direction) (rs : List RecordedReplacement) (content : Bytes) (d : Int) :
    Prop :=
  LinesUp dir rs content 0 ∧ d = 0 ∨
    ¬ LinesUp dir rs content 0 ∧ LinesUp dir rs content d ∧
      ∀ d', LinesUp dir rs content d' → d' = d

/-- The hint table a replay builds from recorded replacements that all have offsets. -/
def recordedHints (dir : Direction) (rs : List RecordedReplacement) : Hints :=
  (rs.map (·.hint dir)).foldl Hints.set []

variable {dir : Direction} {rs : List RecordedReplacement}

theorem ShiftFor.linesUp {content : Bytes} {d : Int} (h : ShiftFor dir rs content d) :
    LinesUp dir rs content d := by
  rcases h with ⟨hlines, rfl⟩ | ⟨-, hlines, -⟩ <;> exact hlines

section Recorded

theorem hint_offset (dir : Direction) (r : RecordedReplacement) :
    (r.hint dir).2.offset = (r.hint dir).1 := by
  cases dir <;> rfl

/-- A recorded edit stands at the offset it is recorded at. -/
theorem recordedAt_offset {k : Int} {e : Edit} (h : recordedAt dir rs k = some e) :
    e.offset = k := by
  obtain ⟨l₁, l₂, hsplit, -⟩ := List.lookup_eq_some_iff.mp h
  have hmem : (k, e) ∈ rs.map (·.hint dir) := by
    rw [← List.mem_reverse, hsplit]
    simp
  obtain ⟨r, -, hr⟩ := List.mem_map.mp hmem
  have := hint_offset dir r
  rwa [hr] at this

theorem mem_recordedOffsets {k : Int} :
    k ∈ recordedOffsets dir rs ↔ (recordedAt dir rs k).isSome := by
  rw [recordedOffsets, List.mem_insertionSort, List.mem_dedup, recordedAt,
    List.lookup_isSome_iff]
  simp only [List.mem_map, List.mem_reverse, beq_iff_eq]
  constructor
  · rintro ⟨r, hr, rfl⟩
    exact ⟨r.hint dir, ⟨r, hr, rfl⟩, rfl⟩
  · rintro ⟨_, ⟨r, hr, rfl⟩, rfl⟩
    exact ⟨r, hr, rfl⟩

theorem recordedOffsets_lt : (recordedOffsets dir rs).Pairwise (· < ·) := by
  have hnodup : (recordedOffsets dir rs).Nodup :=
    (List.perm_insertionSort _ _).nodup_iff.mpr (List.nodup_dedup _)
  exact (List.sortedLE_insertionSort.pairwise.and (List.nodup_iff_pairwise_ne.mp hnodup)).imp
    fun ⟨hle, hne⟩ => lt_of_le_of_ne hle hne

theorem mem_shiftedEdits {d : Int} {e : Edit} :
    e ∈ shiftedEdits dir rs d ↔
      ∃ k e', recordedAt dir rs k = some e' ∧ e = ⟨k + d, e'.old, e'.new⟩ := by
  rw [shiftedEdits, List.mem_filterMap]
  constructor
  · rintro ⟨k, -, hk⟩
    obtain ⟨e', he', rfl⟩ := Option.map_eq_some_iff.mp hk
    exact ⟨k, e', he', rfl⟩
  · rintro ⟨k, e', he', rfl⟩
    exact ⟨k, mem_recordedOffsets.mpr (by rw [he']; rfl), by rw [he']; rfl⟩

theorem shiftedEdits_offsets_lt (d : Int) :
    (shiftedEdits dir rs d).Pairwise fun e e' => e.offset < e'.offset :=
  recordedOffsets_lt.filterMap _ fun k k' hlt e he e' he' => by
    obtain ⟨_, -, rfl⟩ := Option.map_eq_some_iff.mp he
    obtain ⟨_, -, rfl⟩ := Option.map_eq_some_iff.mp he'
    show k + d < k' + d
    omega

end Recorded

section Table

theorem hintsOf_recorded (file : Path) (h : ∀ r ∈ rs, 0 ≤ (r.hint dir).1) :
    hintsOf dir file rs = .ok (recordedHints dir rs) := by
  rw [recordedHints, List.foldl_map, hintsOf]
  exact foldlM_eq_ok_foldl fun c r hr => if_neg (not_lt.mpr (h r hr))

theorem hintsOf_error (file : Path) (h : ∃ r ∈ rs, (r.hint dir).1 < 0) :
    ∃ e, hintsOf dir file rs = .error e := by
  obtain ⟨r, hr, hneg⟩ := h
  exact foldlM_error_of_mem ⟨r, hr, fun _ => ⟨_, if_pos hneg⟩⟩

theorem lookup_recordedHints (k : Int) :
    (recordedHints dir rs).reverse.lookup k = recordedAt dir rs k := by
  rw [recordedHints, Hints.lookup_foldl_set, List.reverse_nil, List.lookup_nil, Option.or_none]
  rfl

theorem mem_recordedHints (x : Int × Edit) :
    x ∈ recordedHints dir rs ↔ recordedAt dir rs x.1 = some x.2 :=
  Hints.mem_foldl_set _ x

theorem recordedHints_ne_nil (h : rs ≠ []) : recordedHints dir rs ≠ [] := by
  rcases List.eq_nil_or_concat rs with rfl | ⟨rs', r, rfl⟩
  · exact absurd rfl h
  · rw [recordedHints, List.concat_eq_append, List.map_append, List.map_singleton,
      List.foldl_concat, Hints.set]
    exact List.append_ne_nil_of_right_ne_nil _ (List.cons_ne_nil _ _)

/-- The table's hints stand at their offsets, so the shift by nothing keeps it. -/
theorem recordedHints_shift_zero : (recordedHints dir rs).shift 0 = recordedHints dir rs := by
  refine (List.map_congr_left fun x hx => ?_).trans (List.map_id _)
  have hoff := recordedAt_offset ((mem_recordedHints x).mp hx)
  obtain ⟨k, ⟨offset, old, new⟩⟩ := x
  simp only [Int.add_zero, id] at hoff ⊢
  rw [hoff]

theorem matchAt_recordedHints (content : Bytes) (d : Int) :
    Hints.MatchAt (scan content) (recordedHints dir rs) d = true ↔ LinesUp dir rs content d := by
  rw [Hints.matchAt_iff]
  constructor
  · intro h k e he
    exact h (k, e) ((mem_recordedHints (k, e)).mpr he)
  · intro h x hx
    exact h x.1 x.2 ((mem_recordedHints x).mp hx)

theorem matchAt_recordedHints_eq_false (content : Bytes) (d : Int) :
    Hints.MatchAt (scan content) (recordedHints dir rs) d = false ↔
      ¬ LinesUp dir rs content d := by
  rw [← Bool.not_eq_true, matchAt_recordedHints]

/-- The shift search over the table finds a shift exactly when it is the only one that lines the
    recorded edits up. -/
theorem findShift_recordedHints (hne : rs ≠ []) (content : Bytes) (d : Int) :
    Hints.findShift (scan content) (recordedHints dir rs) = some d ↔
      LinesUp dir rs content d ∧ ∀ d', LinesUp dir rs content d' → d' = d := by
  rw [Hints.findShift_eq_some_iff ((scan_starts_lt content).imp Nat.ne_of_lt)
      (recordedHints_ne_nil hne), matchAt_recordedHints]
  constructor
  · rintro ⟨hlines, honly⟩
    exact ⟨hlines, fun d' hd' => honly d' ((matchAt_recordedHints content d').mpr hd')⟩
  · rintro ⟨hlines, honly⟩
    exact ⟨hlines, fun d' hd' => honly d' ((matchAt_recordedHints content d').mp hd')⟩

/-- Under the table moved by `d`, a specifier takes the edit recorded `d` before its start, when
    that edit's old text is the specifier. -/
theorem referenceEdit_shift (d : Int) (o : Occurrence) :
    referenceEdit [] ((recordedHints dir rs).shift d) o =
      ((recordedAt dir rs ((o.start : Int) - d)).filter (·.old == o.value)).map
        fun e => ⟨o.start, o.value, e.new⟩ := by
  rw [referenceEdit, Hints.reverse_shift, Hints.lookup_shift, lookup_recordedHints]
  cases recordedAt dir rs ((o.start : Int) - d) <;> simp [Option.filter]

/-- Remapping by the table moved by `d`, over content the recorded edits line up with under that
    shift, makes the shifted edits: each specifier edited is one a recorded edit is moved onto. -/
theorem referenceEdits_shift {content : Bytes} {d : Int} (hlines : LinesUp dir rs content d) :
    referenceEdits content [] ((recordedHints dir rs).shift d) = shiftedEdits dir rs d := by
  refine eq_of_offsets_lt (referenceEdits_offsets_lt _ _ _) (shiftedEdits_offsets_lt d)
    fun e => ?_
  rw [referenceEdits, List.mem_filterMap, mem_shiftedEdits]
  constructor
  · rintro ⟨o, -, ho⟩
    rw [referenceEdit_shift] at ho
    obtain ⟨e', he', rfl⟩ := Option.map_eq_some_iff.mp ho
    obtain ⟨hrec, hold⟩ := Option.filter_eq_some_iff.mp he'
    refine ⟨(o.start : Int) - d, e', hrec, ?_⟩
    rw [(beq_iff_eq.mp hold)]
    congr 1
    omega
  · rintro ⟨k, e', hrec, rfl⟩
    obtain ⟨o, ho, hstart, hvalue⟩ := hlines k e' hrec
    refine ⟨o, ho, ?_⟩
    -- the edit recorded at `k` is moved onto the specifier at `k + d`
    rw [referenceEdit_shift, show (o.start : Int) - d = k by omega, hrec]
    simp [Option.filter, hvalue, hstart]

/-- Edits recorded in a direction that line up with the content under a shift fit it. -/
theorem shiftedEdits_fit {content : Bytes} {d : Int} (hlines : LinesUp dir rs content d) :
    Edit.Fit content 0 (shiftedEdits dir rs d) := by
  rw [← referenceEdits_shift hlines]
  exact referenceEdits_fit content [] _

theorem remap_shift {content : Bytes} {d : Int} (hsize : content.length < 2 ^ 63)
    (hlines : LinesUp dir rs content d) :
    (remap content [] ((recordedHints dir rs).shift d)).1 =
      (Splice.ofEdits content 0 (shiftedEdits dir rs d)).new := by
  rw [remap_eq_ofEdits _ _ _ hsize, referenceEdits_shift hlines]

end Table

section Content

variable {file : Path} {before : Bytes}

theorem content_error {e : Failure} (h : hintsOf dir file rs = .error e) :
    content dir file rs before = .error e := by
  rw [content, h]
  rfl

theorem content_nil : content dir file [] before = .ok none := rfl

/-- With a shift for the recorded edits, the replayed content is the file with the shifted
    edits made. -/
theorem content_of_shiftFor {d : Int} (hnn : ∀ r ∈ rs, 0 ≤ (r.hint dir).1) (hne : rs ≠ [])
    (hsize : before.length < 2 ^ 63) (hshift : ShiftFor dir rs before d) :
    content dir file rs before =
      .ok (some (Splice.ofEdits before 0 (shiftedEdits dir rs d)).new) := by
  have hH := hintsOf_recorded file hnn
  rcases hshift with ⟨hlines, rfl⟩ | ⟨hnot, hlines, honly⟩
  · -- lined up as recorded: the table is used as it is
    rw [content_eq dir file rs before hH (recordedHints_ne_nil hne)
      ((matchAt_recordedHints before 0).mpr hlines), ← remap_shift hsize hlines,
      recordedHints_shift_zero]
  · -- otherwise the search finds the one shift that lines the edits up
    have hfind := (findShift_recordedHints hne before d).mpr ⟨hlines, honly⟩
    have hmatch := (matchAt_recordedHints_eq_false before 0).mpr hnot
    rw [← remap_shift hsize hlines]
    simp [content, hH, recordedHints_ne_nil hne, hmatch, hfind, bind, Except.bind, pure,
      Except.pure]

/-- Without a shift for the recorded edits, the replay fails. -/
theorem content_of_no_shift (hnn : ∀ r ∈ rs, 0 ≤ (r.hint dir).1) (hne : rs ≠ [])
    (hnone : ∀ d, ¬ ShiftFor dir rs before d) :
    content dir file rs before =
      .error (Failure.make .backup file "logged specifiers no longer match the file") := by
  have hnot : ¬ LinesUp dir rs before 0 := fun hlines => hnone 0 (.inl ⟨hlines, rfl⟩)
  have hmatch := (matchAt_recordedHints_eq_false before 0).mpr hnot
  -- a shift the search found would be the one shift for the edits
  have hfind : Hints.findShift (scan before) (recordedHints dir rs) = none := by
    cases hf : Hints.findShift (scan before) (recordedHints dir rs) with
    | none => rfl
    | some d =>
        obtain ⟨hlines, honly⟩ := (findShift_recordedHints hne before d).mp hf
        exact absurd (.inr ⟨hnot, hlines, honly⟩) (hnone d)
  simp [content, hintsOf_recorded file hnn, recordedHints_ne_nil hne, hmatch, hfind, bind,
    Except.bind, throw, throwThe, MonadExceptOf.throw]

end Content

section Run

variable {fs : FileSystem} {entry : RecordedFile} {f : StoredFile}

theorem replayFile_of_content_error (hstat : fs.stat entry.path = .ok (.file f)) {e : Failure}
    (h : content dir entry.path entry.replacements f.content = .error e) :
    (replayFile dir entry).run fs = .error e fs := by
  simp only [replayFile, FsAction.run_get_bind]
  simp only [hstat, FsAction.run_pure_bind, FileSystem.readBytes_of_stat_file hstat]
  rw [FsAction.run_bind, h]
  rfl

theorem replayFile_of_content_none (hstat : fs.stat entry.path = .ok (.file f))
    (h : content dir entry.path entry.replacements f.content = .ok none) :
    (replayFile dir entry).run fs = .ok () fs := by
  simp only [replayFile, FsAction.run_get_bind]
  simp only [hstat, FsAction.run_pure_bind, FileSystem.readBytes_of_stat_file hstat]
  rw [FsAction.run_bind, h]
  rfl

theorem replayFile_of_content_some (hstat : fs.stat entry.path = .ok (.file f)) {out : Bytes}
    (h : content dir entry.path entry.replacements f.content = .ok (some out)) :
    (replayFile dir entry).run fs =
      .ok () (fs.put (fs.spot entry.path) (.file ⟨out, f.mode⟩)) := by
  simp only [replayFile, FsAction.run_get_bind]
  simp only [hstat, FsAction.run_pure_bind, FileSystem.readBytes_of_stat_file hstat]
  rw [FsAction.run_bind, h]
  simp only [FsAction.ofExcept, FsAction.run_pure, FileSystem.writeFile_of_stat_file hstat,
    FsAction.run_set]

end Run

/-- Replaying a file the tree holds edits only what was recorded. A negative recorded offset
    fails and leaves the tree as it was, and so does nothing recorded, without failing. Otherwise,
    under the shift for the recorded edits (none when they line up as recorded, else the only
    one that lines them all up with specifiers holding their old texts), the edits recorded
    last at each offset, moved by it and in order of offset, fit the file: they apply, and the
    file is written with them made and every other byte kept, its mode unchanged. Without such a
    shift the replay fails and leaves the tree as it was. -/
theorem replayFile_edits_recorded (dir : Direction) (entry : RecordedFile) {fs : FileSystem}
    {f : StoredFile} (hstat : fs.stat entry.path = .ok (.file f))
    (hsize : f.content.length < 2 ^ 63) :
    ((∃ r ∈ entry.replacements, (r.hint dir).1 < 0) →
        ∃ e, (replayFile dir entry).run fs = .error e fs) ∧
      (entry.replacements = [] → (replayFile dir entry).run fs = .ok () fs) ∧
      ((∀ r ∈ entry.replacements, 0 ≤ (r.hint dir).1) → entry.replacements ≠ [] →
        (∀ d, ShiftFor dir entry.replacements f.content d →
          Edit.Fit f.content 0 (shiftedEdits dir entry.replacements d) ∧
          ∃ offsets, applyEdits f.content (shiftedEdits dir entry.replacements d) =
              .ok ((Splice.ofEdits f.content 0 (shiftedEdits dir entry.replacements d)).new,
                offsets) ∧
            (Splice.ofEdits f.content 0 (shiftedEdits dir entry.replacements d)).old = f.content ∧
            (replayFile dir entry).run fs = .ok () (fs.put (fs.spot entry.path)
              (.file ⟨(Splice.ofEdits f.content 0 (shiftedEdits dir entry.replacements d)).new,
                f.mode⟩))) ∧
        ((∀ d, ¬ ShiftFor dir entry.replacements f.content d) →
          ∃ e, (replayFile dir entry).run fs = .error e fs)) := by
  refine ⟨fun hneg => ?_, fun hnil => ?_,
    fun hnn hne => ⟨fun d hshift => ?_, fun hnone => ?_⟩⟩
  · obtain ⟨e, he⟩ := hintsOf_error entry.path hneg
    exact ⟨e, replayFile_of_content_error hstat (content_error he)⟩
  · exact replayFile_of_content_none hstat (by rw [hnil]; exact content_nil)
  · have hfit := shiftedEdits_fit hshift.linesUp
    obtain ⟨happly, hold⟩ := applyEdits_of_fit hsize hfit
    exact ⟨hfit, _, happly, hold,
      replayFile_of_content_some hstat (content_of_shiftFor hnn hne hsize hshift)⟩
  · exact ⟨_, replayFile_of_content_error hstat (content_of_no_shift hnn hne hnone)⟩

/-- A tree holding one file, `/w/a.js`, whose one specifier stands a byte later than the run
    recorded it. -/
def movedTree : FileSystem :=
  ⟨Bytes.ofString "/w", [(Bytes.ofString "/w", .directory),
    (Bytes.ofString "/w/a.js", .file ⟨Bytes.ofString "\nimport('./b')", 0o644⟩)]⟩

/-- The file of `movedTree`. -/
def movedFile : StoredFile := ⟨Bytes.ofString "\nimport('./b')", 0o644⟩

/-- The record of the run on `/w/a.js`: `@/b` replaced by `./b` at offset 8. -/
def movedEntry : RecordedFile :=
  { path := Bytes.ofString "/w/a.js", modified := true,
    replacements := [{ before := Bytes.ofString "@/b", after := Bytes.ofString "./b",
                       offset := 8, newOffset := 8 }] }

example : shiftedEdits .backward movedEntry.replacements 1 =
    [⟨9, Bytes.ofString "./b", Bytes.ofString "@/b"⟩] := by
  decide +kernel

/-- Reverting the run on `/w/a.js` after its specifier has moved. -/
theorem replayFile_edits_recorded_moved :
    movedTree.stat movedEntry.path = .ok (.file movedFile) ∧
      movedFile.content.length < 2 ^ 63 ∧
      ((∃ r ∈ movedEntry.replacements, (r.hint .backward).1 < 0) →
          ∃ e, (replayFile .backward movedEntry).run movedTree = .error e movedTree) ∧
        (movedEntry.replacements = [] →
          (replayFile .backward movedEntry).run movedTree = .ok () movedTree) ∧
        ((∀ r ∈ movedEntry.replacements, 0 ≤ (r.hint .backward).1) →
          movedEntry.replacements ≠ [] →
          (∀ d, ShiftFor .backward movedEntry.replacements movedFile.content d →
            Edit.Fit movedFile.content 0 (shiftedEdits .backward movedEntry.replacements d) ∧
            ∃ offsets, applyEdits movedFile.content
                (shiftedEdits .backward movedEntry.replacements d) =
                .ok ((Splice.ofEdits movedFile.content 0
                  (shiftedEdits .backward movedEntry.replacements d)).new, offsets) ∧
              (Splice.ofEdits movedFile.content 0
                (shiftedEdits .backward movedEntry.replacements d)).old = movedFile.content ∧
              (replayFile .backward movedEntry).run movedTree =
                .ok () (movedTree.put (movedTree.spot movedEntry.path)
                  (.file ⟨(Splice.ofEdits movedFile.content 0
                    (shiftedEdits .backward movedEntry.replacements d)).new, movedFile.mode⟩))) ∧
          ((∀ d, ¬ ShiftFor .backward movedEntry.replacements movedFile.content d) →
            ∃ e, (replayFile .backward movedEntry).run movedTree = .error e movedTree)) := by
  have hstat : movedTree.stat movedEntry.path = .ok (.file movedFile) := by decide +kernel
  have hsize : movedFile.content.length < 2 ^ 63 := by decide +kernel
  exact ⟨hstat, hsize, replayFile_edits_recorded .backward movedEntry hstat hsize⟩

end Replay

end Unalias
