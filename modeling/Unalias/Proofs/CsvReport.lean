import Mathlib.Data.List.Induction
import Unalias.Proofs.CsvRoundTrip
import Unalias.Proofs.JsonReport
import Unalias.Proofs.Extends

/-! # Reading back a CSV report

A run log written as comma-separated records is read back as the files it changed: one modified
file per path that has replacements, in the order the paths first appear, with all the
replacements logged for it in order (`RunLog.read_csv_report`).

The reader trims white space off every line and drops empty lines and lines starting with `#`
before it reads the records, and it passes over the header only when it is the first record. So
the round trip asks that every record is a line of its own that trimming leaves alone and that
does not start with `#`: no field holds a line feed, no path starts with `#`, and no target ends
with white space. A target that does, such as one of a module name with a trailing blank, is
read back without it (`RunLog.read_trims_target`).

It also asks that nothing was traced before the report, although a report is meant to be read
back from a log that holds the trace as well. A traced line, such as the one of an unresolved
specifier, is read as the first record, and the header after it as a replacement in a file named
`file_path` (`RunLog.read_header_after_trace`).
-/

namespace Unalias

namespace Bytes

/-! ## Lines of a text -/

theorem split_append_cons {sep : UInt8} : ∀ {a : Bytes}, sep ∉ a → ∀ rest : Bytes,
    split sep (a ++ sep :: rest) = a :: split sep rest
  | [], _, rest => by rw [List.nil_append, split, if_pos (beq_self_eq_true sep)]
  | b :: a, h, rest => by
    rw [List.mem_cons, not_or] at h
    have hb : (b == sep) = false := beq_false_of_ne (Ne.symm h.1)
    rw [List.cons_append, split, if_neg (by rw [hb]; exact Bool.false_ne_true),
      split_append_cons h.2 rest]

/-- Lines each closed by the separator split back into the lines, before the pieces of what
    follows them. -/
theorem split_lines {sep : UInt8} : ∀ {lines : List Bytes}, (∀ l ∈ lines, sep ∉ l) →
    ∀ rest : Bytes, split sep (lines.flatMap (· ++ [sep]) ++ rest) = lines ++ split sep rest
  | [], _, _ => rfl
  | l :: ls, h, rest => by
    rw [List.flatMap_cons, List.append_assoc, List.append_assoc, List.singleton_append,
      split_append_cons (h l (List.mem_cons_self ..)),
      split_lines (fun l' hl' => h l' (List.mem_cons_of_mem _ hl')), List.cons_append]

/-! ## White space at the ends -/

/-- Whether the bytes end with white space. -/
def EndsWithSpace (bs : Bytes) : Bool := spaceForms.any (·.isSuffixOf bs)

theorem dropSpace_of_startsWithSpace {bs : Bytes} (h : StartsWithSpace bs = false) :
    ∀ n, dropSpace n bs = bs
  | 0 => rfl
  | _ + 1 => by rw [dropSpace, List.find?_eq_none.2 (List.any_eq_false.1 h)]

theorem dropSpaceEnd_of_endsWithSpace {bs : Bytes} (h : EndsWithSpace bs = false) :
    ∀ n, dropSpaceEnd n bs = bs
  | 0 => rfl
  | _ + 1 => by rw [dropSpaceEnd, List.find?_eq_none.2 (List.any_eq_false.1 h)]

theorem trimSpace_of {bs : Bytes} (hs : StartsWithSpace bs = false) (he : EndsWithSpace bs = false) :
    trimSpace bs = bs := by
  rw [trimSpace, dropSpace_of_startsWithSpace hs, dropSpaceEnd_of_endsWithSpace he]

theorem not_mem_spaceForms : ∀ f ∈ spaceForms, 34 ∉ f ∧ 35 ∉ f ∧ 44 ∉ f := by decide +kernel

theorem quote_not_mem_spaceForms : ∀ f ∈ spaceForms, (34 : UInt8) ∉ f := fun f h =>
  (not_mem_spaceForms f h).1

theorem hash_not_mem_spaceForms : ∀ f ∈ spaceForms, (35 : UInt8) ∉ f := fun f h =>
  (not_mem_spaceForms f h).2.1

theorem comma_not_mem_spaceForms : ∀ f ∈ spaceForms, (44 : UInt8) ∉ f := fun f h =>
  (not_mem_spaceForms f h).2.2

theorem startsWithSpace_nil : StartsWithSpace [] = false := by decide +kernel

theorem endsWithSpace_nil : EndsWithSpace [] = false := by decide +kernel

/-- Bytes that do not start with white space keep not doing so when a byte that no white space
    holds follows them. -/
theorem startsWithSpace_append {f : Bytes} (hf : StartsWithSpace f = false) {c : UInt8}
    (hc : ∀ sf ∈ spaceForms, c ∉ sf) (rest : Bytes) : StartsWithSpace (f ++ c :: rest) = false := by
  refine List.any_eq_false.2 fun sf hsf hpre => ?_
  have hfc : f ++ [c] <+: f ++ c :: rest :=
    ⟨rest, by rw [List.append_assoc, List.singleton_append]⟩
  rcases List.prefix_or_prefix_of_prefix (List.isPrefixOf_iff_prefix.1 hpre) hfc with h | h
  · rcases List.prefix_concat_iff.1 h with rfl | h
    · exact hc _ hsf (List.mem_append_right _ (List.mem_singleton_self c))
    · have := List.any_eq_false.1 hf sf hsf
      exact this (List.isPrefixOf_iff_prefix.2 h)
  · exact hc sf hsf (h.subset (List.mem_append_right _ (List.mem_singleton_self c)))

/-- Bytes that do not end with white space keep not doing so after a byte that no white space
    holds. -/
theorem endsWithSpace_append {f : Bytes} (hf : EndsWithSpace f = false) {c : UInt8}
    (hc : ∀ sf ∈ spaceForms, c ∉ sf) (pre : Bytes) : EndsWithSpace (pre ++ c :: f) = false := by
  refine List.any_eq_false.2 fun sf hsf hsuf => ?_
  rcases List.suffix_or_suffix_of_suffix (List.isSuffixOf_iff_suffix.1 hsuf)
    (List.suffix_append pre (c :: f)) with h | h
  · rcases List.suffix_cons_iff.1 h with rfl | h
    · exact hc _ hsf (List.mem_cons_self ..)
    · have := List.any_eq_false.1 hf sf hsf
      exact this (List.isSuffixOf_iff_suffix.2 h)
  · exact hc sf hsf (h.subset (List.mem_cons_self ..))

theorem dropSpaceEnd_cons {c : UInt8} (hc : ∀ sf ∈ spaceForms, c ∉ sf) :
    ∀ (n : Nat) (t : Bytes), ∃ t', dropSpaceEnd n (c :: t) = c :: t'
  | 0, t => ⟨t, rfl⟩
  | n + 1, t => by
    rw [dropSpaceEnd]
    split
    · rename_i sf hsf
      -- the white space taken off is shorter than the bytes, for it does not hold `c`
      have hsuf : sf.isSuffixOf (c :: t) = true :=
        List.find?_some (p := fun x : Bytes => x.isSuffixOf (c :: t)) hsf
      have hlt : sf.length < (c :: t).length := by
        rcases List.suffix_cons_iff.1 (List.isSuffixOf_iff_suffix.1 hsuf) with h | h
        · exact absurd (h ▸ List.mem_cons_self ..) (hc sf (List.mem_of_find?_eq_some hsf))
        · exact Nat.lt_succ_of_le h.length_le
      obtain ⟨k, hk⟩ : ∃ k, (c :: t).length - sf.length = k + 1 :=
        ⟨_, (Nat.succ_pred_eq_of_pos (Nat.sub_pos_of_lt hlt)).symm⟩
      rw [hk, List.take_succ_cons]
      exact dropSpaceEnd_cons hc n _
    · exact ⟨t, rfl⟩

/-! ## Texts without line feeds -/

theorem lf_ne_ofNat {n : Nat} (h : 128 ≤ n) (h' : n < 256) : (10 : UInt8) ≠ UInt8.ofNat n := by
  intro e
  have := congrArg UInt8.toNat e
  rw [UInt8.toNat_ofNat'] at this
  change 10 = n % 256 at this
  omega

/-- The only character whose encoding holds a line feed is the line feed: every byte of a
    longer sequence is above 127. -/
theorem eq_lf_of_mem_utf8EncodeChar {c : Char} (h : 10 ∈ String.utf8EncodeChar c) : c = '\n' := by
  unfold String.utf8EncodeChar at h
  dsimp only at h
  split_ifs at h with h1 h2 h3 <;> simp only [List.mem_cons, List.not_mem_nil, or_false] at h
  · have := congrArg UInt8.toNat h
    rw [UInt8.toNat_ofNat', Char.toNat_val] at this
    change 10 = c.toNat % 256 at this
    rw [Char.toNat_val] at h1
    exact Char.toNat_inj.1 (by rw [show '\n'.toNat = 10 from rfl]; omega)
  · rcases h with h | h <;> exact absurd h (lf_ne_ofNat (by omega) (by omega))
  · rcases h with h | h | h <;> exact absurd h (lf_ne_ofNat (by omega) (by omega))
  · rcases h with h | h | h | h <;> exact absurd h (lf_ne_ofNat (by omega) (by omega))

theorem lf_not_mem_ofString {s : String} (h : '\n' ∉ s.toList) : 10 ∉ ofString s := by
  rw [ofString_eq_flatMap]
  intro hmem
  obtain ⟨c, hc, hb⟩ := List.mem_flatMap.1 hmem
  exact h (eq_lf_of_mem_utf8EncodeChar hb ▸ hc)

/-- A comment line keeps its `#` in front when trimmed. -/
theorem trimSpace_comment (c : Bytes) : ∃ t, trimSpace (35 :: c) = 35 :: t := by
  have hs : StartsWithSpace (35 :: c) = false :=
    startsWithSpace_append (f := []) startsWithSpace_nil hash_not_mem_spaceForms c
  rw [trimSpace, dropSpace_of_startsWithSpace hs]
  exact dropSpaceEnd_cons hash_not_mem_spaceForms _ c

end Bytes

namespace Csv

/-! ## Records as written lines -/

theorem startsWithSpace_writeField (f : Bytes) : Bytes.StartsWithSpace (writeField f) = false := by
  cases hq : NeedsQuotes f with
  | true =>
    rw [writeField_quoted hq]
    exact Bytes.startsWithSpace_append (f := []) Bytes.startsWithSpace_nil
      Bytes.quote_not_mem_spaceForms _
  | false =>
    rw [writeField_bare hq]
    unfold NeedsQuotes at hq
    split at hq
    · rename_i h
      rw [List.isEmpty_iff.1 h]
      exact Bytes.startsWithSpace_nil
    · exact (Bool.or_eq_false_iff.1 hq).2

theorem endsWithSpace_writeField {f : Bytes} (hf : Bytes.EndsWithSpace f = false) :
    Bytes.EndsWithSpace (writeField f) = false := by
  cases hq : NeedsQuotes f with
  | true =>
    rw [writeField_quoted hq, ← List.cons_append]
    exact Bytes.endsWithSpace_append (f := []) Bytes.endsWithSpace_nil
      Bytes.quote_not_mem_spaceForms _
  | false => rwa [writeField_bare hq]

theorem writeLine_concat : ∀ {fields : List Bytes}, fields ≠ [] → ∀ g : Bytes,
    writeLine (fields ++ [g]) = writeLine fields ++ 44 :: writeField g
  | [f], _, g => by
    rw [List.singleton_append, writeLine_cons_cons, writeLine_singleton, writeLine_singleton]
  | f :: f' :: fs, _, g => by
    have ih := writeLine_concat (List.cons_ne_nil f' fs) g
    rw [List.cons_append] at ih
    rw [List.cons_append, List.cons_append, writeLine_cons_cons, ih, writeLine_cons_cons,
      List.append_assoc, List.cons_append]

/-- A line of two fields or more starts as its first field does, or with a quote or a comma. -/
theorem head_writeLine {f : Bytes} (hf : f.head? ≠ some 35) (g : Bytes) (gs : List Bytes) :
    (writeLine (f :: g :: gs)).head? ≠ some 35 := by
  rw [writeLine_cons_cons]
  cases hq : NeedsQuotes f with
  | true => rw [writeField_quoted hq]; simp
  | false =>
    rw [writeField_bare hq]
    cases f with
    | nil => simp
    | cons b f => simpa using hf

theorem startsWithSpace_writeLine (f g : Bytes) (gs : List Bytes) :
    Bytes.StartsWithSpace (writeLine (f :: g :: gs)) = false := by
  rw [writeLine_cons_cons]
  exact Bytes.startsWithSpace_append (startsWithSpace_writeField f)
    Bytes.comma_not_mem_spaceForms _

theorem endsWithSpace_writeLine {fields : List Bytes} (hne : fields ≠ []) {g : Bytes}
    (hg : Bytes.EndsWithSpace g = false) : Bytes.EndsWithSpace (writeLine (fields ++ [g])) = false := by
  rw [writeLine_concat hne]
  exact Bytes.endsWithSpace_append (endsWithSpace_writeField hg)
    Bytes.comma_not_mem_spaceForms _

end Csv

/-- The fields of the report line of a replacement in the file at `path`. -/
def Replacement.csvFields (path : Path) (r : Replacement) : List Bytes :=
  [path, r.before, r.after, Bytes.ofInt r.line, Bytes.ofInt r.column, Bytes.ofInt r.offset,
    Bytes.ofInt r.newOffset, r.target]

/-- Whether the report line of a replacement in the file at `path` reads back as it was written:
    no text holds a line feed, the path does not start with `#`, the target does not end with
    white space, and the numbers fit in 64 bits with sign. -/
def Replacement.CsvReadable (path : Path) (r : Replacement) : Prop :=
  (∀ t ∈ path :: r.texts, 10 ∉ t) ∧ path.head? ≠ some 35 ∧ r.target.EndsWithSpace = false ∧
    r.FitsInt64

instance (path : Path) (r : Replacement) : Decidable (r.CsvReadable path) := by
  unfold Replacement.CsvReadable
  infer_instance

/-- The replacements of an entry, each with the path of its file, as a report records them. -/
def LogEntry.replacementRecords (e : LogEntry) : List (Path × RecordedReplacement) :=
  e.replacements.map fun r => (e.filePath, r.record)

namespace Report

/-! ## Gathering the records of a file -/

/-- The entry of a file among replacements recorded with their files' paths: modified, with
    the file's replacements in order. -/
def fileEntry (xs : List (Path × RecordedReplacement)) (p : Path) : RecordedFile :=
  { path := p, modified := true, replacements := (xs.filter (·.1 == p)).map Prod.snd }

/-- The files that replacements recorded with their files' paths stand for: one entry per path,
    in the order the paths first appear. -/
def groupByFile (xs : List (Path × RecordedReplacement)) : List RecordedFile :=
  (xs.map Prod.fst).eraseDups.map (fileEntry xs)

/-- One more replacement goes to the entry of its file, or opens a new entry at the end. -/
theorem addReplacement_groupByFile (xs : List (Path × RecordedReplacement)) (p : Path)
    (r : RecordedReplacement) :
    addReplacement (groupByFile xs) p r = groupByFile (xs ++ [(p, r)]) := by
  unfold addReplacement groupByFile
  rw [List.map_append, List.eraseDups_append]
  by_cases hp : p ∈ xs.map Prod.fst
  · -- the file has an entry, which takes the replacement at its end
    have hany : ((xs.map Prod.fst).eraseDups.map (fileEntry xs)).any (·.path == p) = true :=
      List.any_eq_true.2 ⟨fileEntry xs p, List.mem_map.2 ⟨p, List.mem_eraseDups.2 hp, rfl⟩,
        by simp [fileEntry]⟩
    have hnew : ([(p, r)].map Prod.fst |>.removeAll (xs.map Prod.fst)).eraseDups = [] := by
      simp [List.removeAll, hp]
    rw [if_pos hany, hnew, List.append_nil, List.map_map]
    refine List.map_congr_left fun q _ => ?_
    by_cases hq : q = p
    · subst hq
      simp [fileEntry]
    · simp [fileEntry, hq, Ne.symm hq]
  · -- the file is new, and its entry comes last
    have hany : ((xs.map Prod.fst).eraseDups.map (fileEntry xs)).any (·.path == p) = false := by
      refine List.any_eq_false.2 fun f hf h => hp ?_
      obtain ⟨q, hq, rfl⟩ := List.mem_map.1 hf
      have hqp : q = p := by simpa [fileEntry] using h
      exact hqp ▸ List.mem_eraseDups.1 hq
    have hnew : ([(p, r)].map Prod.fst |>.removeAll (xs.map Prod.fst)).eraseDups = [p] := by
      simp [List.removeAll, hp, List.eraseDups_cons]
    have hnone : xs.filter (·.1 == p) = [] :=
      List.filter_eq_nil_iff.2 fun x hx h => hp (List.mem_map.2 ⟨x, hx, by simpa using h⟩)
    rw [if_neg (by rw [hany]; exact Bool.false_ne_true), hnew, List.map_append]
    congr 1
    · refine List.map_congr_left fun q hq => ?_
      have hqp : q ≠ p := fun h => hp (h ▸ List.mem_eraseDups.1 hq)
      simp [fileEntry, Ne.symm hqp]
    · simp [fileEntry, hnone]

theorem foldl_addReplacement : ∀ xs ys : List (Path × RecordedReplacement),
    ys.foldl (fun files x => addReplacement files x.1 x.2) (groupByFile xs) =
      groupByFile (xs ++ ys)
  | _, [] => by rw [List.foldl_nil, List.append_nil]
  | xs, y :: ys => by
    rw [List.foldl_cons, addReplacement_groupByFile, foldl_addReplacement (xs ++ [y]) ys,
      List.append_assoc, List.singleton_append]

/-! ## Reading the lines back -/

/-- A line that the reader of comma-separated reports keeps as it is: it holds no line feed,
    trimming leaves it alone, and it is neither empty nor a comment. -/
def KeptLine (l : Bytes) : Prop :=
  10 ∉ l ∧ Bytes.trimSpace l = l ∧ (!l.isEmpty && l.head? != some 35) = true

/-- Of lines written one after another, the reader keeps the lines it keeps as they are and
    passes over the comments. -/
theorem recordLines_lines {lines comments : List Bytes} (hl : ∀ l ∈ lines, KeptLine l)
    (hc : ∀ c ∈ comments, 10 ∉ c) :
    recordLines ((lines ++ comments.map (35 :: ·)).flatMap (· ++ [10])) = lines := by
  have hlf : ∀ l ∈ lines ++ comments.map (35 :: ·), 10 ∉ l := by
    intro l hl'
    rcases List.mem_append.1 hl' with h | h
    · exact (hl l h).1
    · obtain ⟨c, hc', rfl⟩ := List.mem_map.1 h
      exact List.not_mem_cons_of_ne_of_not_mem (by decide) (hc c hc')
  have hsplit := Bytes.split_lines hlf []
  rw [List.append_nil] at hsplit
  have hkept : (lines.map Bytes.trimSpace).filter (fun l => !l.isEmpty && l.head? != some 35) =
      lines := by
    have hmap : lines.map Bytes.trimSpace = lines.map id :=
      List.map_congr_left fun l h => (hl l h).2.1
    rw [hmap, List.map_id]
    exact List.filter_eq_self.2 fun l h => (hl l h).2.2
  have hcomments : ((comments.map (35 :: ·)).map Bytes.trimSpace).filter
      (fun l => !l.isEmpty && l.head? != some 35) = [] := by
    refine List.filter_eq_nil_iff.2 fun l hl' => ?_
    obtain ⟨_, hm, rfl⟩ := List.mem_map.1 hl'
    obtain ⟨c, _, rfl⟩ := List.mem_map.1 hm
    obtain ⟨t, ht⟩ := Bytes.trimSpace_comment c
    simp [ht]
  unfold recordLines
  rw [hsplit, List.map_append, List.map_append, List.filter_append, List.filter_append, hkept,
    hcomments, List.append_nil]
  exact List.append_nil lines

theorem keptLine_csvFields {path : Path} {r : Replacement} (h : r.CsvReadable path) :
    KeptLine (Csv.writeLine (r.csvFields path)) ∧ Csv.OneLine (r.csvFields path) := by
  obtain ⟨htexts, hhead, htarget, -⟩ := h
  have hlf : ∀ f ∈ r.csvFields path, 10 ∉ f := by
    intro f hf hmem
    simp only [Replacement.csvFields, List.mem_cons, List.not_mem_nil, or_false] at hf
    rcases hf with rfl | rfl | rfl | rfl | rfl | rfl | rfl | rfl <;>
      first
      | rcases Bytes.mem_ofInt hmem with h | h <;> revert h <;> decide
      | exact htexts _ (by simp [Replacement.texts]) hmem
  have hstart : Bytes.StartsWithSpace (Csv.writeLine (r.csvFields path)) = false :=
    Csv.startsWithSpace_writeLine _ _ _
  -- the target is the last field, after the seven others
  have hend : Bytes.EndsWithSpace (Csv.writeLine (r.csvFields path)) = false :=
    Csv.endsWithSpace_writeLine (List.cons_ne_nil path [r.before, r.after, Bytes.ofInt r.line,
      Bytes.ofInt r.column, Bytes.ofInt r.offset, Bytes.ofInt r.newOffset]) htarget
  have hfirst : (Csv.writeLine (r.csvFields path)).head? ≠ some 35 := Csv.head_writeLine hhead _ _
  have hone : Csv.OneLine (r.csvFields path) := ⟨by simp [Replacement.csvFields], hlf⟩
  refine ⟨⟨Csv.not_mem_writeLine hlf, Bytes.trimSpace_of hstart hend, ?_⟩, hone⟩
  have hwrite := Csv.writeLine_ne_nil hone.1
  simpa [List.isEmpty_iff, hwrite] using hfirst

theorem replacementOf_csvFields {r : Replacement} (h : r.FitsInt64) (path : Path) :
    replacementOf (r.csvFields path) = r.record := by
  simp only [Replacement.FitsInt64, List.mem_cons, List.not_mem_nil, or_false, forall_eq_or_imp,
    forall_eq] at h
  obtain ⟨hl, hc, ho, hn⟩ := h
  simp [replacementOf, fieldNumber, Replacement.csvFields, Replacement.record,
    Bytes.toInt64?_ofInt hl.1 hl.2, Bytes.toInt64?_ofInt hc.1 hc.2,
    Bytes.toInt64?_ofInt ho.1 ho.2, Bytes.toInt64?_ofInt hn.1 hn.2]

/-- The records of replacements after the header are gathered by file. -/
theorem ofRecords_csvFields {xs : List (Path × Replacement)} (h : ∀ x ∈ xs, x.2.FitsInt64) :
    ofRecords (RunLog.csvHeader :: xs.map fun x => x.2.csvFields x.1) =
      groupByFile (xs.map fun x => (x.1, x.2.record)) := by
  -- from the end, so that the fold keeps starting from no file
  induction xs using List.reverseRecOn with
  | nil => simp [ofRecords, RunLog.csvHeader, groupByFile]
  | append_singleton xs x ih =>
    have ih' := ih fun y hy => h y (List.mem_append_left _ hy)
    simp only [ofRecords, RunLog.csvHeader, List.map_cons, List.head?_cons, beq_self_eq_true,
      if_true] at ih' ⊢
    rw [List.map_append, List.foldl_append, ih', List.map_append, List.map_singleton,
      List.map_singleton, List.foldl_cons, List.foldl_nil]
    show addReplacement _ x.1 (replacementOf (x.2.csvFields x.1)) = _
    rw [replacementOf_csvFields (h x (List.mem_append_right _ (List.mem_singleton_self x))),
      addReplacement_groupByFile]

/-- Lines the reader keeps, of records it reads back, followed by comments, stand for the files
    that the records, after the first, stand for. -/
theorem ofCsv_lines {records : List (List Bytes)}
    (hr : ∀ r ∈ records, Csv.OneLine r ∧ KeptLine (Csv.writeLine r)) (hne : records ≠ [])
    {comments : List Bytes} (hc : ∀ c ∈ comments, 10 ∉ c) :
    ofCsv ((records.map Csv.writeLine ++ comments.map (35 :: ·)).flatMap (· ++ [10])) =
      .ok (ofRecords records) := by
  obtain ⟨r, rs, rfl⟩ := List.exists_cons_of_ne_nil hne
  unfold ofCsv
  rw [recordLines_lines (fun l hl => ?_) hc, List.map_cons]
  · dsimp only
    rw [show List.intercalate [10] (Csv.writeLine r :: rs.map Csv.writeLine) =
      Csv.writeLines (r :: rs) from rfl, Csv.read_writeLines fun r' hr' => (hr r' hr').1]
  · obtain ⟨r', hr', rfl⟩ := List.mem_map.1 hl
    exact (hr r' hr').2

theorem read_csv_of_ofCsv (json : JsonCodec) {fs : FileSystem} {path : Path} {text : Bytes}
    (hfile : fs.readBytes path = .ok text) {files : List RecordedFile}
    (h : ofCsv text = .ok files) : read json fs path "csv" = .ok files := by
  unfold read
  rw [hfile]
  simp only [bind, Except.bind, pure, Except.pure]
  rw [h]

end Report

/-! ## The comment lines of the summary -/

theorem lf_not_mem_toDigits (n : Nat) : '\n' ∉ Nat.toDigits 10 n := fun h =>
  absurd (Nat.isDigit_of_mem_toDigits (by decide) (by decide) h) (by decide)

theorem lf_not_mem_fractionText {v prec : Nat} {f : String} {i : Nat}
    (h : fractionText v prec = (f, i)) : '\n' ∉ f.toList := by
  rw [show f = (fractionText v prec).1 by rw [h]]
  unfold fractionText
  dsimp only
  split
  · simp
  · simp only [String.toList_append, String.toList_ofList, List.mem_append, not_or]
    refine ⟨by decide, fun h => ?_⟩
    -- the digits kept are some of the padded ones: zeros and the digits of the fraction
    have h' := (List.dropWhile_sublist _).subset (List.mem_reverse.1 h)
    rw [List.mem_reverse, List.mem_append, List.mem_replicate] at h'
    rcases h' with ⟨_, h⟩ | h
    · exact absurd h (by decide)
    · exact lf_not_mem_toDigits _ (by simpa using h)

theorem lf_not_mem_durationTextNat (u : Nat) : '\n' ∉ (durationTextNat u).toList := by
  unfold durationTextNat
  split_ifs
  · decide
  · simp [lf_not_mem_toDigits]
  · rcases hfr : fractionText u 3 with ⟨f, i⟩
    simp [lf_not_mem_toDigits, lf_not_mem_fractionText hfr]
  · rcases hfr : fractionText u 6 with ⟨f, i⟩
    simp [lf_not_mem_toDigits, lf_not_mem_fractionText hfr]
  · rcases hfr : fractionText u 9 with ⟨f, i⟩
    dsimp only
    split_ifs <;> simp [lf_not_mem_toDigits, lf_not_mem_fractionText hfr]

theorem lf_not_mem_durationText (d : Int) : '\n' ∉ (durationText d).toList := by
  unfold durationText
  split_ifs
  · simp [lf_not_mem_durationTextNat]
  · exact lf_not_mem_durationTextNat _

namespace RunLog

theorem lf_not_mem_summaryLine (l : RunLog) : '\n' ∉ l.summaryLine.toList := by
  have hs : ∀ s : String, toString s = s := fun _ => rfl
  unfold summaryLine
  split_ifs <;> simp [lf_not_mem_toDigits, hs]

/-- The comment lines that close a comma-separated report, without their `#`. -/
def summaryComments (l : RunLog) : List String :=
  [" " ++ l.summaryLine, " Files processed: " ++ toString l.summary.totalFiles,
    " Unresolved specifiers: " ++ toString l.summary.unresolved,
    " Errors: " ++ toString l.summary.errorCount,
    " Processing time: " ++ durationText l.summary.processingTime]

theorem lf_not_mem_summaryComments (l : RunLog) :
    ∀ c ∈ (l.summaryComments.map fun c => Bytes.ofString c), 10 ∉ c := by
  intro bs hbs
  obtain ⟨c, hc, rfl⟩ := List.mem_map.1 hbs
  refine Bytes.lf_not_mem_ofString ?_
  simp only [summaryComments, List.mem_cons, List.not_mem_nil, or_false] at hc
  rcases hc with h | h | h | h | h <;> rw [h] <;>
    simp [lf_not_mem_toDigits, lf_not_mem_summaryLine, lf_not_mem_durationText]

/-- A comma-separated report is a line per record, the header first, and the comment lines of
    the summary, each closed by a line feed. -/
theorem csvReport_eq (l : RunLog) : l.csvReport =
    ((csvHeader :: l.entries.flatMap fun e => e.replacements.map (·.csvFields e.filePath)).map
        Csv.writeLine ++ (l.summaryComments.map fun c => Bytes.ofString c).map (35 :: ·)).flatMap
      (· ++ [10]) := by
  have hs : ∀ s : String, toString s = s := fun _ => rfl
  have h1 : Bytes.ofString "# " = [35] ++ Bytes.ofString " " := by decide +kernel
  have h2 : Bytes.ofString "\n# Files processed: " =
      [10, 35] ++ Bytes.ofString " Files processed: " := by decide +kernel
  have h3 : Bytes.ofString "\n" = [10] := by decide +kernel
  have h4 : Bytes.ofString "# Unresolved specifiers: " =
      [35] ++ Bytes.ofString " Unresolved specifiers: " := by decide +kernel
  have h5 : Bytes.ofString "\n# Errors: " = [10, 35] ++ Bytes.ofString " Errors: " := by
    decide +kernel
  have h6 : Bytes.ofString "# Processing time: " = [35] ++ Bytes.ofString " Processing time: " := by
    decide +kernel
  unfold csvReport summaryComments
  simp only [hs, Bytes.ofString_append, h1, h2, h3, h4, h5, h6, Csv.writeRecord_eq, List.map_cons,
    List.map_nil, List.flatMap_cons, List.flatMap_nil, List.flatMap_append, List.flatMap_map,
    List.append_assoc, List.cons_append, List.nil_append, List.append_nil]
  rfl

/-! ## The round trip -/

theorem writeReport_csv (json : JsonCodec) {l : RunLog} (hcsv : l.options.logFormat = "csv")
    (hloud : l.options.quiet = false) : l.writeReport json = (l.write l.csvReport, none) := by
  unfold writeReport
  rw [hloud, hcsv]
  rfl

theorem csvHeader_kept : Csv.OneLine csvHeader ∧ Report.KeptLine (Csv.writeLine csvHeader) := by
  unfold Csv.OneLine Report.KeptLine
  decide +kernel

/-- A comma-separated report written when nothing was traced before it, of replacements whose
    lines read back, is read back as the files with replacements, each with all its replacements
    in order. -/
theorem read_writeReport_csv (json : JsonCodec) {l : RunLog} (hcsv : l.options.logFormat = "csv")
    (hloud : l.options.quiet = false) (htrace : l.output = [])
    (hr : ∀ e ∈ l.entries, ∀ r ∈ e.replacements, r.CsvReadable e.filePath) {fs : FileSystem}
    {path : Path} (hfile : fs.readBytes path = .ok (l.writeReport json).1.output) :
    Report.read json fs path "csv" =
      .ok (Report.groupByFile (l.entries.flatMap LogEntry.replacementRecords)) := by
  have hw : (l.writeReport json).1.output = l.csvReport := by
    rw [writeReport_csv json hcsv hloud, write, htrace, List.nil_append]
  -- the replacements with their files' paths, in the order they are written
  let xs := l.entries.flatMap fun e => e.replacements.map fun r => (e.filePath, r)
  have hrecords : (l.entries.flatMap fun e => e.replacements.map (·.csvFields e.filePath)) =
      xs.map fun x => x.2.csvFields x.1 := by
    simp only [xs, List.map_flatMap, List.map_map]
    rfl
  have hgroup : l.entries.flatMap LogEntry.replacementRecords =
      xs.map fun x => (x.1, x.2.record) := by
    simp only [xs, List.map_flatMap, List.map_map]
    rfl
  have hxs : ∀ x ∈ xs, x.2.CsvReadable x.1 := by
    intro x hx
    simp only [xs, List.mem_flatMap, List.mem_map] at hx
    obtain ⟨e, he, r, hr', rfl⟩ := hx
    exact hr e he r hr'
  rw [hw, csvReport_eq, hrecords] at hfile
  rw [hgroup, ← Report.ofRecords_csvFields fun x hx => (hxs x hx).2.2.2]
  refine Report.read_csv_of_ofCsv json hfile
    (Report.ofCsv_lines (fun r hr' => ?_) (List.cons_ne_nil _ _) (lf_not_mem_summaryComments l))
  rcases List.mem_cons.1 hr' with rfl | hr'
  · exact csvHeader_kept
  · obtain ⟨x, hx, rfl⟩ := List.mem_map.1 hr'
    exact (Report.keptLine_csvFields (hxs x hx)).symm

/-- The comma-separated report of a run reads back as the files in which it made replacements,
    in the order they were logged, each with its replacements in order: when nothing was traced
    before the report, and no text of a replacement or its file's path holds a line feed, no
    such path starts with `#`, no target ends with white space, and the numbers fit in 64 bits. -/
theorem read_csv_report (json : JsonCodec) {o : RunOptions} (hcsv : o.logFormat = "csv")
    (hloud : o.quiet = false) (settings : ProjectSettings) (table : AliasTable) (timestamp : String)
    (results : List JobResult) (elapsed : Int)
    (htrace : (ofRun o settings table timestamp results elapsed).output = [])
    (hr : ∀ r ∈ results, ∀ x ∈ (entryOf timestamp r).replacements,
      x.CsvReadable (entryOf timestamp r).filePath)
    {fs : FileSystem} {path : Path}
    (hfile : fs.readBytes path =
      .ok ((ofRun o settings table timestamp results elapsed).writeReport json).1.output) :
    Report.read json fs path "csv" =
      .ok (Report.groupByFile (results.flatMap fun r => (entryOf timestamp r).replacementRecords)) := by
  obtain ⟨he, ho⟩ := ofRun_entries_options o settings table timestamp results elapsed
  have hread := read_writeReport_csv json (by rw [ho]; exact hcsv) (by rw [ho]; exact hloud) htrace
    (by rw [he]; simpa using hr) hfile
  rwa [he, List.flatMap_map] at hread

/-- The options of a run that writes a comma-separated report to `/r.json`. -/
def csvOptions : RunOptions := { logFile := reportPath, logFormat := "csv" }

theorem read_csv_report_replacedResult :
    (ofRun csvOptions plainSettings [] "2026-01-01T00:00:00Z" [replacedResult] 0).output = [] ∧
      (∀ r ∈ [replacedResult], ∀ x ∈ (entryOf "2026-01-01T00:00:00Z" r).replacements,
        x.CsvReadable (entryOf "2026-01-01T00:00:00Z" r).filePath) ∧
      Report.read Json.standardCodec (reportFile ((ofRun csvOptions plainSettings []
          "2026-01-01T00:00:00Z" [replacedResult] 0).writeReport Json.standardCodec).1.output)
          reportPath "csv" =
        .ok [{ path := Bytes.ofString "/p/dist/a.js", modified := true,
               replacements := [{ before := Bytes.ofString "@/x", after := Bytes.ofString "./x",
                                  target := Bytes.ofString "/p/src/x", line := 1, column := 8,
                                  offset := 7, newOffset := 7 }] }] := by
  have htrace : (ofRun csvOptions plainSettings [] "2026-01-01T00:00:00Z"
      [replacedResult] 0).output = [] := by decide
  have hr : ∀ r ∈ [replacedResult], ∀ x ∈ (entryOf "2026-01-01T00:00:00Z" r).replacements,
      x.CsvReadable (entryOf "2026-01-01T00:00:00Z" r).filePath := by decide +kernel
  have hread := read_csv_report Json.standardCodec rfl rfl plainSettings [] "2026-01-01T00:00:00Z"
    [replacedResult] 0 htrace hr (readBytes_reportFile _)
  refine ⟨htrace, hr, hread.trans (congrArg Except.ok ?_)⟩
  decide +kernel

/-- A file in which one aliased specifier was replaced by a module whose path ends with a
    blank. -/
def spacedTargetResult : JobResult :=
  { index := 0, filePath := Bytes.ofString "/p/dist/a.js", written := true,
    outcome := some { path := Bytes.ofString "/p/dist/a.js", sourceFile := Bytes.ofString "/p/src/a.js",
                      replacements := [{ before := Bytes.ofString "@/x", after := Bytes.ofString "./x",
                                         target := Bytes.ofString "/p/src/x ", line := 1, column := 8,
                                         offset := 7, newOffset := 7 }],
                      modified := true, oldSize := 10, newSize := 10 } }

/-- The reader trims every line of a comma-separated report, so a target ending with a blank
    is read back without it. -/
theorem read_trims_target :
    Report.read Json.standardCodec (reportFile ((ofRun csvOptions plainSettings []
        "2026-01-01T00:00:00Z" [spacedTargetResult] 0).writeReport Json.standardCodec).1.output)
        reportPath "csv" =
      .ok [{ path := Bytes.ofString "/p/dist/a.js", modified := true,
             replacements := [{ before := Bytes.ofString "@/x", after := Bytes.ofString "./x",
                                target := Bytes.ofString "/p/src/x", line := 1, column := 8,
                                offset := 7, newOffset := 7 }] }] := by
  apply Except.eq_ok_of_toOption
  decide +kernel

/-- A file in which one aliased specifier was replaced and another stays unresolved. -/
def partlyReplacedResult : JobResult :=
  { index := 0, filePath := Bytes.ofString "/p/dist/a.js", written := true,
    outcome := some { path := Bytes.ofString "/p/dist/a.js", sourceFile := Bytes.ofString "/p/src/a.js",
                      replacements := [{ before := Bytes.ofString "@/x", after := Bytes.ofString "./x",
                                         target := Bytes.ofString "/p/src/x", line := 1, column := 8,
                                         offset := 7, newOffset := 7 }],
                      unresolved := [{ specifier := Bytes.ofString "@/y", line := 2, column := 8 }],
                      modified := true, oldSize := 20, newSize := 20 } }

/-- The trace of an unresolved specifier, written before the header, is read as the first
    record, so the header is no longer passed over and is read as a replacement in a file named
    `file_path`, before the file that was changed. -/
theorem read_header_after_trace :
    Report.read Json.standardCodec (reportFile ((ofRun csvOptions plainSettings []
        "2026-01-01T00:00:00Z" [partlyReplacedResult] 0).writeReport Json.standardCodec).1.output)
        reportPath "csv" =
      .ok [{ path := Bytes.ofString "file_path", modified := true,
             replacements := [{ before := Bytes.ofString "from", after := Bytes.ofString "to",
                                target := Bytes.ofString "target", line := -1, column := -1,
                                offset := -1, newOffset := -1 }] },
           { path := Bytes.ofString "/p/dist/a.js", modified := true,
             replacements := [{ before := Bytes.ofString "@/x", after := Bytes.ofString "./x",
                                target := Bytes.ofString "/p/src/x", line := 1, column := 8,
                                offset := 7, newOffset := 7 }] }] := by
  apply Except.eq_ok_of_toOption
  decide +kernel

end RunLog

end Unalias
