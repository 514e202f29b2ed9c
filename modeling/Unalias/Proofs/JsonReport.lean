import Unalias.Report
import Unalias.RunLog
import Unalias.Proofs.Decimal
import Unalias.Proofs.JsonRoundTrip
import Unalias.Proofs.RoundTrip
import Unalias.Proofs.Extends

/-! # Reading back a JSON report

A run log written as JSON is read back file by file: each entry of the report gives the file's
path, source file, modification flag, replacements, backup and error as they were logged
(`RunLog.read_json_report`). The JSON library is taken as a parameter (`JsonCodec`), of which
two documented facts are used (`JsonCodec.Documented`): an object is written from its opening
brace, and what is written reads back as the value written when its numbers are integers.

Two things stand in the way and are assumed. Every text in an entry must be UTF-8, or the
report is not written at all. And the trace written before the report must hold no opening
brace, since the reader takes the report from the first one on, although the log may begin with
verbose output; a brace in the trace, such as one in an unresolved specifier, makes the read
fail (`RunLog.read_fails_after_brace_trace`).

With texts that are UTF-8, the report is the rendering of an explicit value (`reportValue`).
That value has integers for its numbers and no repeated name, so it parses back to itself, and
reading its entries gives the recorded files.
-/

namespace Unalias

/-- What the report relies on of a JSON library: an object is written from its opening brace,
    and a document it wrote, with a line end after it, reads back as the value written when that
    value's numbers are integers. -/
structure JsonCodec.Documented (json : JsonCodec) : Prop where
  opens_object : ∀ members, ∃ rest, json.render (.object members) = 123 :: rest
  reads_written : ∀ {v}, Json.IntegerNumbers v → json.parse (json.render v ++ [10]) = .ok v

theorem Json.standardCodec_documented : Json.standardCodec.Documented where
  opens_object
    | [] => ⟨[125], by decide +kernel⟩
    | (k, v) :: ms => ⟨_, Json.render_object_cons 0 k v ms⟩
  reads_written hv := Json.parse_render hv

/-- What a report records of a logged entry. -/
def LogEntry.record (e : LogEntry) : RecordedFile :=
  { path := e.filePath, sourceFile := e.sourceFile, modified := e.modified,
    replacements := e.replacements.map Replacement.record, backupPath := e.backupPath,
    error := e.error }

theorem Bytes.isUtf8_nil : Bytes.IsUtf8 [] := by
  rw [Bytes.IsUtf8, Bytes.codePoints.eq_1]
  rfl

/-- The texts of a replacement. -/
def Replacement.texts (r : Replacement) : List Bytes := [r.before, r.after, r.target]

/-- Whether the numbers of a replacement fit in 64 bits with sign, as the report's reader
    asks. -/
def Replacement.FitsInt64 (r : Replacement) : Prop :=
  ∀ i ∈ [r.line, r.column, r.offset, r.newOffset], -2 ^ 63 ≤ i ∧ i < 2 ^ 63

instance (r : Replacement) : Decidable r.FitsInt64 := by
  unfold Replacement.FitsInt64
  infer_instance

/-- The texts of an entry that go into its JSON object. -/
def LogEntry.texts (e : LogEntry) : List Bytes :=
  [e.filePath, e.sourceFile, e.backupPath, e.error] ++ e.replacements.flatMap Replacement.texts ++
    e.unresolved.map (·.specifier)

theorem LogEntry.isUtf8_of_texts {e : LogEntry} (h : ∀ t ∈ e.texts, t.IsUtf8) :
    e.filePath.IsUtf8 ∧ e.sourceFile.IsUtf8 ∧ e.backupPath.IsUtf8 ∧ e.error.IsUtf8 ∧
      (∀ r ∈ e.replacements, ∀ t ∈ r.texts, t.IsUtf8) ∧ ∀ u ∈ e.unresolved, u.specifier.IsUtf8 := by
  simp only [LogEntry.texts, List.mem_append, List.mem_cons, List.not_mem_nil, or_false,
    List.mem_flatMap, List.mem_map] at h
  exact ⟨h _ (.inl (.inl (.inl rfl))), h _ (.inl (.inl (.inr (.inl rfl)))),
    h _ (.inl (.inl (.inr (.inr (.inl rfl))))), h _ (.inl (.inl (.inr (.inr (.inr rfl))))),
    fun r hr t ht => h t (.inl (.inr ⟨r, hr, ht⟩)), fun u hu => h _ (.inr ⟨u, hu, rfl⟩)⟩

theorem Replacement.isUtf8_of_texts {r : Replacement} (h : ∀ t ∈ r.texts, t.IsUtf8) :
    r.before.IsUtf8 ∧ r.after.IsUtf8 ∧ r.target.IsUtf8 := by
  simp only [Replacement.texts, List.mem_cons, List.not_mem_nil, or_false, forall_eq_or_imp,
    forall_eq] at h
  exact h

namespace RunLog

/-! ## The report as a value -/

/-- A text as written into a report, its bytes being UTF-8. -/
def textValue (bs : Bytes) : JsonValue := .string (Bytes.decode bs)

/-- A member holding a text, left out when the text is empty. -/
def optionalText (name : String) (bs : Bytes) : List (String × JsonValue) :=
  if bs.isEmpty then [] else [(name, textValue bs)]

/-- The members of a replacement whose texts are UTF-8. -/
def replacementMembers (r : Replacement) : List (String × JsonValue) :=
  [("from", textValue r.before), ("to", textValue r.after)] ++ optionalText "target" r.target ++
    [("line", jsonInt r.line), ("column", jsonInt r.column), ("byte_offset", jsonInt r.offset),
     ("new_byte_offset", jsonInt r.newOffset)]

/-- The object of a replacement whose texts are UTF-8. -/
def replacementValue (r : Replacement) : JsonValue := .object (replacementMembers r)

/-- The object of an unresolved specifier that is UTF-8. -/
def unresolvedValue (u : Unresolved) : JsonValue :=
  .object [("specifier", textValue u.specifier), ("line", jsonInt u.line),
    ("column", jsonInt u.column)]

/-- The members of an entry whose texts are UTF-8. -/
def entryMembers (e : LogEntry) : List (String × JsonValue) :=
  [("timestamp", .string e.timestamp), ("file_path", textValue e.filePath)] ++
    optionalText "source_file" e.sourceFile ++
    [("original_size", jsonInt e.oldSize), ("new_size", jsonInt e.newSize),
     ("modified", .bool e.modified)] ++
    (if e.replacements.isEmpty then []
      else [("replacements", .array (e.replacements.map replacementValue))]) ++
    (if e.unresolved.isEmpty then []
      else [("unresolved", .array (e.unresolved.map unresolvedValue))]) ++
    optionalText "backup_path" e.backupPath ++ optionalText "error" e.error

/-- The document of a log whose entries' texts are UTF-8. -/
def reportValue (l : RunLog) : JsonValue :=
  .object [("summary", summaryJson l.summary),
    ("entries", .array (l.entries.map fun e => .object (entryMembers e)))]

theorem jsonText_of_isUtf8 {bs : Bytes} (h : bs.IsUtf8) : jsonText bs = .ok (textValue bs) := by
  simp [jsonText, Bytes.toString?, h, textValue]

theorem replacementJson_eq {r : Replacement} (h : ∀ t ∈ r.texts, t.IsUtf8) :
    replacementJson r = .ok (replacementValue r) := by
  obtain ⟨hb, ha, ht⟩ := Replacement.isUtf8_of_texts h
  unfold replacementJson replacementValue replacementMembers optionalText
  rw [jsonText_of_isUtf8 ht, jsonText_of_isUtf8 hb, jsonText_of_isUtf8 ha]
  split <;> rfl

theorem entryJson_eq {e : LogEntry} (h : ∀ t ∈ e.texts, t.IsUtf8) :
    entryJson e = .ok (.object (entryMembers e)) := by
  obtain ⟨hp, hs, hbk, herr, hr, hu⟩ := LogEntry.isUtf8_of_texts h
  have hreps : e.replacements.mapM replacementJson = .ok (e.replacements.map replacementValue) :=
    mapM_eq_ok_map fun r hr' => replacementJson_eq (hr r hr')
  have hunres : (e.unresolved.mapM fun u => do
      pure (JsonValue.object [("specifier", ← jsonText u.specifier), ("line", jsonInt u.line),
        ("column", jsonInt u.column)])) = .ok (e.unresolved.map unresolvedValue) :=
    mapM_eq_ok_map fun u hu' => by
      rw [jsonText_of_isUtf8 (hu u hu')]
      rfl
  -- an optional member is written from its text alone, whether or not it is left out
  have hopt (name : String) (bs : Bytes) (hbs : bs.IsUtf8) :
      (if bs.isEmpty then pure [] else do pure [(name, ← jsonText bs)] :
        Except String (List (String × JsonValue))) = .ok (optionalText name bs) := by
    unfold optionalText
    split
    · rfl
    · rw [jsonText_of_isUtf8 hbs]; rfl
  unfold entryJson
  dsimp only
  rw [hopt _ _ hs, hopt _ _ hbk, hopt _ _ herr, hreps, hunres, jsonText_of_isUtf8 hp]
  simp [entryMembers, bind, Except.bind, pure, Except.pure]

theorem jsonReport_eq (json : JsonCodec) {l : RunLog} (h : ∀ e ∈ l.entries, ∀ t ∈ e.texts, t.IsUtf8) :
    l.jsonReport json = .ok (json.render (reportValue l) ++ [10]) := by
  unfold jsonReport
  rw [mapM_eq_ok_map fun e he => entryJson_eq (h e he)]
  rfl

/-! ## The shape of the report -/

section Shape

variable {P : JsonValue → Prop}

theorem forall_mem_ite_singleton {c : Bool} {m : String × JsonValue} (h : P m.2) :
    ∀ x ∈ (if c then [] else [m]), P x.2 := by
  split
  · exact fun _ hx => absurd hx List.not_mem_nil
  · intro x hx
    rw [List.mem_singleton.1 hx]
    exact h

theorem forall_mem_optionalText (hs : ∀ s, P (.string s)) (name : String) (bs : Bytes) :
    ∀ m ∈ optionalText name bs, P m.2 :=
  forall_mem_ite_singleton (hs _)

/-- What holds of every text, number and Boolean, and of the arrays of an entry, holds of every
    member of the entry. -/
theorem forall_mem_entryMembers (e : LogEntry) (hs : ∀ s, P (.string s))
    (hi : ∀ i, P (jsonInt i)) (hb : ∀ b, P (.bool b))
    (hr : P (.array (e.replacements.map replacementValue)))
    (hu : P (.array (e.unresolved.map unresolvedValue))) :
    ∀ m ∈ entryMembers e, P m.2 := by
  simp only [entryMembers, List.forall_mem_append, List.forall_mem_cons, List.not_mem_nil,
    IsEmpty.forall_iff, implies_true, and_true, and_assoc]
  exact ⟨hs _, hs _, forall_mem_optionalText hs _ _, hi _, hi _, hb _, forall_mem_ite_singleton hr,
    forall_mem_ite_singleton hu, forall_mem_optionalText hs _ _, forall_mem_optionalText hs _ _⟩

theorem forall_mem_replacementMembers (r : Replacement) (hs : ∀ s, P (.string s))
    (hi : ∀ i, P (jsonInt i)) : ∀ m ∈ replacementMembers r, P m.2 := by
  simp only [replacementMembers, List.forall_mem_append, List.forall_mem_cons, List.not_mem_nil,
    IsEmpty.forall_iff, implies_true, and_true, and_assoc]
  exact ⟨hs _, hs _, forall_mem_optionalText hs _ _, hi _, hi _, hi _, hi _⟩

end Shape

theorem integerNumbers_replacementValue (r : Replacement) :
    Json.IntegerNumbers (replacementValue r) :=
  .object (forall_mem_replacementMembers r .string .number)

theorem integerNumbers_unresolvedValue (u : Unresolved) :
    Json.IntegerNumbers (unresolvedValue u) := by
  refine .object ?_
  simp only [List.forall_mem_cons, List.not_mem_nil, IsEmpty.forall_iff, implies_true, and_true]
  exact ⟨.string _, .number _, .number _⟩

theorem integerNumbers_reportValue (l : RunLog) : Json.IntegerNumbers (reportValue l) := by
  refine .object ?_
  simp only [List.forall_mem_cons, List.not_mem_nil, IsEmpty.forall_iff, implies_true, and_true]
  refine ⟨.object ?_, .array ?_⟩
  · simp only [List.forall_mem_cons, List.not_mem_nil, IsEmpty.forall_iff, implies_true,
      and_true]
    exact ⟨.number _, .number _, .number _, .number _, .number _, .number _, .bool _⟩
  · simp only [List.forall_mem_map]
    intro e _
    exact .object (forall_mem_entryMembers e .string .number .bool
      (.array (List.forall_mem_map.2 fun r _ => integerNumbers_replacementValue r))
      (.array (List.forall_mem_map.2 fun u _ => integerNumbers_unresolvedValue u)))

end RunLog

namespace JsonValue

theorem repeated_eq_false :
    ∀ {ms : List (String × JsonValue)}, (ms.map Prod.fst).Nodup → HasRepeatedName.repeated ms = false
  | [], _ => rfl
  | (k, v) :: ms, h => by
    rw [List.map_cons, List.nodup_cons] at h
    rw [HasRepeatedName.repeated, repeated_eq_false h.2, Bool.or_false, List.any_eq_false]
    intro m hm hk
    exact h.1 (List.mem_map.2 ⟨m, hm, by simpa using hk⟩)

theorem anyMember_eq_false : ∀ {ms : List (String × JsonValue)},
    (∀ m ∈ ms, m.2.HasRepeatedName = false) → HasRepeatedName.anyMember ms = false
  | [], _ => rfl
  | (k, v) :: ms, h => by
    rw [HasRepeatedName.anyMember, h (k, v) List.mem_cons_self,
      anyMember_eq_false fun m hm => h m (List.mem_cons_of_mem _ hm)]
    rfl

theorem anyItem_eq_false : ∀ {vs : List JsonValue},
    (∀ v ∈ vs, v.HasRepeatedName = false) → HasRepeatedName.anyItem vs = false
  | [], _ => rfl
  | v :: vs, h => by
    rw [HasRepeatedName.anyItem, h v List.mem_cons_self,
      anyItem_eq_false fun w hw => h w (List.mem_cons_of_mem _ hw)]
    rfl

theorem hasRepeatedName_object {ms : List (String × JsonValue)} (hn : (ms.map Prod.fst).Nodup)
    (hv : ∀ m ∈ ms, m.2.HasRepeatedName = false) : (JsonValue.object ms).HasRepeatedName = false := by
  rw [HasRepeatedName, repeated_eq_false hn, anyMember_eq_false hv]
  rfl

theorem hasRepeatedName_array {vs : List JsonValue} (hv : ∀ v ∈ vs, v.HasRepeatedName = false) :
    (JsonValue.array vs).HasRepeatedName = false := by
  rw [HasRepeatedName, anyItem_eq_false hv]

end JsonValue

namespace RunLog

theorem names_ite_singleton (c : Bool) (m : String × JsonValue) :
    ((if c then [] else [m]).map Prod.fst).Sublist [m.1] := by
  split <;> simp

theorem names_replacementMembers (r : Replacement) :
    ((replacementMembers r).map Prod.fst).Nodup := by
  refine List.Sublist.nodup ?_ (show List.Nodup (["from", "to"] ++ ["target"] ++
    ["line", "column", "byte_offset", "new_byte_offset"]) by decide)
  simp only [replacementMembers, List.map_append]
  exact ((List.Sublist.refl _).append (names_ite_singleton _ _)).append (List.Sublist.refl _)

theorem names_entryMembers (e : LogEntry) : ((entryMembers e).map Prod.fst).Nodup := by
  refine List.Sublist.nodup ?_ (show List.Nodup (["timestamp", "file_path"] ++ ["source_file"] ++
    ["original_size", "new_size", "modified"] ++ ["replacements"] ++ ["unresolved"] ++
    ["backup_path"] ++ ["error"]) by decide)
  simp only [entryMembers, List.map_append]
  exact (((((((List.Sublist.refl _).append (names_ite_singleton _ _)).append
    (List.Sublist.refl _)).append (names_ite_singleton _ _)).append
    (names_ite_singleton _ _)).append (names_ite_singleton _ _)).append (names_ite_singleton _ _))

theorem hasRepeatedName_replacementValue (r : Replacement) :
    (replacementValue r).HasRepeatedName = false :=
  JsonValue.hasRepeatedName_object (names_replacementMembers r)
    (forall_mem_replacementMembers (P := fun v => v.HasRepeatedName = false) r (fun _ => rfl)
      fun _ => rfl)

theorem hasRepeatedName_reportValue (l : RunLog) : (reportValue l).HasRepeatedName = false := by
  refine JsonValue.hasRepeatedName_object (by simp only [List.map_cons, List.map_nil]; decide) ?_
  simp only [List.forall_mem_cons, List.not_mem_nil, IsEmpty.forall_iff, implies_true, and_true]
  refine ⟨JsonValue.hasRepeatedName_object (by simp only [List.map_cons, List.map_nil]; decide) ?_,
    JsonValue.hasRepeatedName_array ?_⟩
  · simp only [List.forall_mem_cons, List.not_mem_nil, IsEmpty.forall_iff, implies_true,
      and_true]
    exact ⟨rfl, rfl, rfl, rfl, rfl, rfl, rfl⟩
  · simp only [List.forall_mem_map]
    intro e _
    refine JsonValue.hasRepeatedName_object (names_entryMembers e)
      (forall_mem_entryMembers (P := fun v => v.HasRepeatedName = false) e (fun _ => rfl)
        (fun _ => rfl) (fun _ => rfl) ?_ ?_)
    · exact JsonValue.hasRepeatedName_array
        (List.forall_mem_map.2 fun r _ => hasRepeatedName_replacementValue r)
    · refine JsonValue.hasRepeatedName_array (List.forall_mem_map.2 fun u _ => ?_)
      refine JsonValue.hasRepeatedName_object (by simp only [List.map_cons, List.map_nil]; decide) ?_
      simp only [List.forall_mem_cons, List.not_mem_nil, IsEmpty.forall_iff, implies_true,
        and_true]
      exact ⟨rfl, rfl, rfl⟩

/-! ## Reading the report back -/

theorem readText_textValue {bs : Bytes} (h : bs.IsUtf8) : Report.readText (textValue bs) = .ok bs := by
  rw [textValue, Report.readText, Bytes.ofString_decode h]

theorem readInt_jsonInt {i : Int} (h : -2 ^ 63 ≤ i ∧ i < 2 ^ 63) :
    Report.readInt (jsonInt i) = .ok i := by
  rw [jsonInt, Report.readInt.eq_1, show Bytes.ofString (toString i) = Bytes.ofInt i from rfl, Bytes.toInt64?_ofInt h.1 h.2]

theorem foldlM_append_of_ok {β : Type} {step : β → String × JsonValue → Except String β}
    {xs ys : List (String × JsonValue)} {x y : β} (h : xs.foldlM step x = .ok y) :
    (xs ++ ys).foldlM step x = ys.foldlM step y := by
  rw [List.foldlM_append, h]
  rfl

/-- A member that may be left out is read into the same result either way, when leaving it out
    leaves the value it would set at its default. -/
theorem foldlM_ite_singleton {β : Type} {step : β → String × JsonValue → Except String β}
    {c : Bool} {m : String × JsonValue} {x y : β} (hstep : step x m = .ok y)
    (hnil : c = true → y = x) : (if c then [] else [m]).foldlM step x = .ok y := by
  split
  · rename_i hc
    rw [hnil hc]
    rfl
  · rw [List.foldlM_cons, hstep]
    rfl

theorem readReplacement_value {r : Replacement} (hu : ∀ t ∈ r.texts, t.IsUtf8)
    (hf : r.FitsInt64) : Report.readReplacement (replacementValue r) = .ok r.record := by
  obtain ⟨hb, ha, ht⟩ := Replacement.isUtf8_of_texts hu
  simp only [Replacement.FitsInt64, List.mem_cons, List.not_mem_nil, or_false, forall_eq_or_imp,
    forall_eq] at hf
  obtain ⟨hl, hc, ho, hn⟩ := hf
  have hnames : [("from", textValue r.before), ("to", textValue r.after)].foldlM
      Report.replacementMember {} = .ok { before := r.before, after := r.after } := by
    simp only [List.foldlM_cons, List.foldlM_nil, Report.replacementMember, readText_textValue hb,
      readText_textValue ha]
    rfl
  have htarget : (optionalText "target" r.target).foldlM Report.replacementMember
      { before := r.before, after := r.after } =
        .ok { before := r.before, after := r.after, target := r.target } :=
    foldlM_ite_singleton (by simp only [Report.replacementMember, readText_textValue ht]; rfl)
      fun h => by rw [List.isEmpty_iff.1 h]
  rw [replacementValue, Report.readReplacement.eq_2, replacementMembers, List.append_assoc, foldlM_append_of_ok hnames, foldlM_append_of_ok htarget]
  simp only [List.foldlM_cons, List.foldlM_nil, Report.replacementMember, readInt_jsonInt hl,
    readInt_jsonInt hc, readInt_jsonInt ho, readInt_jsonInt hn]
  rfl

theorem readFile_entry {e : LogEntry} (hu : ∀ t ∈ e.texts, t.IsUtf8)
    (hf : ∀ r ∈ e.replacements, r.FitsInt64) :
    Report.readFile (.object (entryMembers e)) = .ok e.record := by
  obtain ⟨hp, hs, hbk, herr, hr, -⟩ := LogEntry.isUtf8_of_texts hu
  have hpath : [("timestamp", .string e.timestamp), ("file_path", textValue e.filePath)].foldlM
      Report.fileMember {} = .ok { path := e.filePath } := by
    simp only [List.foldlM_cons, List.foldlM_nil, Report.fileMember, readText_textValue hp]
    rfl
  have hsource : (optionalText "source_file" e.sourceFile).foldlM Report.fileMember
      { path := e.filePath } = .ok { path := e.filePath, sourceFile := e.sourceFile } :=
    foldlM_ite_singleton (by simp only [Report.fileMember, readText_textValue hs]; rfl)
      fun h => by rw [List.isEmpty_iff.1 h]
  have hflags : [("original_size", jsonInt e.oldSize), ("new_size", jsonInt e.newSize),
      ("modified", .bool e.modified)].foldlM Report.fileMember
        { path := e.filePath, sourceFile := e.sourceFile } =
      .ok { path := e.filePath, sourceFile := e.sourceFile, modified := e.modified } := by
    simp only [List.foldlM_cons, List.foldlM_nil, Report.fileMember]
    rfl
  have hreps : (if e.replacements.isEmpty then []
      else [("replacements", .array (e.replacements.map replacementValue))]).foldlM
        Report.fileMember { path := e.filePath, sourceFile := e.sourceFile, modified := e.modified } =
      .ok { path := e.filePath, sourceFile := e.sourceFile, modified := e.modified,
            replacements := e.replacements.map Replacement.record } := by
    refine foldlM_ite_singleton ?_ fun h => by rw [List.isEmpty_iff.1 h]; rfl
    have hread : (e.replacements.map replacementValue).mapM Report.readReplacement =
        .ok (e.replacements.map Replacement.record) := by
      rw [List.mapM_map]
      exact mapM_eq_ok_map fun r hr' => readReplacement_value (hr r hr') (hf r hr')
    simp only [Report.fileMember, Report.readList, hread]
    rfl
  have hunres : (if e.unresolved.isEmpty then []
      else [("unresolved", .array (e.unresolved.map unresolvedValue))]).foldlM
        Report.fileMember { path := e.filePath, sourceFile := e.sourceFile, modified := e.modified,
                            replacements := e.replacements.map Replacement.record } =
      .ok { path := e.filePath, sourceFile := e.sourceFile, modified := e.modified,
            replacements := e.replacements.map Replacement.record } :=
    foldlM_ite_singleton rfl fun _ => rfl
  have hbackup : (optionalText "backup_path" e.backupPath).foldlM Report.fileMember
      { path := e.filePath, sourceFile := e.sourceFile, modified := e.modified,
        replacements := e.replacements.map Replacement.record } =
      .ok { path := e.filePath, sourceFile := e.sourceFile, modified := e.modified,
            replacements := e.replacements.map Replacement.record, backupPath := e.backupPath } :=
    foldlM_ite_singleton (by simp only [Report.fileMember, readText_textValue hbk]; rfl)
      fun h => by rw [List.isEmpty_iff.1 h]
  have herror : (optionalText "error" e.error).foldlM Report.fileMember
      { path := e.filePath, sourceFile := e.sourceFile, modified := e.modified,
        replacements := e.replacements.map Replacement.record, backupPath := e.backupPath } =
      .ok e.record :=
    foldlM_ite_singleton (by simp only [Report.fileMember, readText_textValue herr]; rfl)
      fun h => by rw [LogEntry.record, List.isEmpty_iff.1 h]
  rw [Report.readFile.eq_2, entryMembers]
  simp only [List.append_assoc]
  rw [foldlM_append_of_ok hpath, foldlM_append_of_ok hsource, foldlM_append_of_ok hflags,
    foldlM_append_of_ok hreps, foldlM_append_of_ok hunres, foldlM_append_of_ok hbackup, herror]

theorem ofJson_reportValue {json : JsonCodec} (hlib : json.Documented) {l : RunLog}
    (hu : ∀ e ∈ l.entries, ∀ t ∈ e.texts, t.IsUtf8)
    (hf : ∀ e ∈ l.entries, ∀ r ∈ e.replacements, r.FitsInt64) :
    Report.ofJson json (json.render (reportValue l) ++ [10]) =
      .ok (l.entries.map LogEntry.record) := by
  have hread : (l.entries.map fun e => JsonValue.object (entryMembers e)).mapM Report.readFile =
      .ok (l.entries.map LogEntry.record) := by
    rw [List.mapM_map]
    exact mapM_eq_ok_map fun e he => readFile_entry (hu e he) (hf e he)
  unfold Report.ofJson
  rw [hlib.reads_written (integerNumbers_reportValue l)]
  simp only [bind, Except.bind, hasRepeatedName_reportValue]
  rw [if_neg Bool.false_ne_true, reportValue]
  have hsummary : ("summary" == "entries") = false := by decide
  have hentries : ("entries" == "entries") = true := by decide
  simp only [List.foldlM_cons, List.foldlM_nil, Report.readList, hsummary, hentries,
    Bool.false_eq_true, if_false, if_true, hread]
  rfl

theorem dropWhile_brace {pre body : Bytes} (hpre : 123 ∉ pre) :
    (pre ++ 123 :: body).dropWhile (· != 123) = 123 :: body := by
  rw [List.dropWhile_append_of_pos fun b hb => ?_]
  · rfl
  · simpa using ne_of_mem_of_not_mem hb hpre

theorem read_json_iff (json : JsonCodec) {fs : FileSystem} {path : Path} {pre body : Bytes}
    (hfile : fs.readBytes path = .ok (pre ++ 123 :: body)) (hpre : 123 ∉ pre)
    {files : List RecordedFile} :
    Report.read json fs path "json" = .ok files ↔ Report.ofJson json (123 :: body) = .ok files := by
  unfold Report.read
  rw [hfile]
  simp only [bind, Except.bind, pure, Except.pure]
  rw [dropWhile_brace hpre]
  dsimp only
  split
  · rename_i files' h
    rw [h, Except.ok.injEq, Except.ok.injEq]
  · rename_i err h
    rw [h]
    constructor <;> intro h' <;> cases h'

/-- A brace followed by a byte that neither opens a name nor closes the object starts no JSON
    document. -/
theorem ofJson_brace_error {b : UInt8} {post : Bytes} (hb : Json.IsBlank b = false) (hq : b ≠ 34)
    (hc : b ≠ 125) (files : List RecordedFile) :
    Report.ofJson Json.standardCodec (123 :: b :: post) ≠ .ok files := by
  have hmembers : ∀ f, ∃ err, Json.members f (b :: post) true [] = .error err := by
    intro f
    cases f with
    | zero => exact ⟨_, rfl⟩
    | succ f =>
      rw [Json.members.eq_4 _ _ _ _ (fun _ h => hc (List.cons.inj h).1)
        (fun _ h => hq (List.cons.inj h).1)]
      exact ⟨_, rfl⟩
  obtain ⟨err, herr⟩ := hmembers (2 * (123 :: b :: post).length + 1)
  have hparse : Json.parse (123 :: b :: post) = .error err := by
    unfold Json.parse
    rw [Json.value_object (Json.skipBlanks_cons (by decide) _), Json.skipBlanks_cons hb, herr]
    rfl
  unfold Report.ofJson
  rw [show Json.standardCodec.parse = Json.parse from rfl, hparse]
  intro h
  cases h

/-- A trace with a brace in it, followed by a byte that cannot follow the brace of an object,
    makes the JSON report unreadable: the reader takes the document from that brace on. -/
theorem read_fails_of_brace {fs : FileSystem} {path : Path} {pre post : Bytes} {b : UInt8}
    (hfile : fs.readBytes path = .ok (pre ++ 123 :: b :: post)) (hpre : 123 ∉ pre)
    (hb : Json.IsBlank b = false) (hq : b ≠ 34) (hc : b ≠ 125) :
    ∃ failure, Report.read Json.standardCodec fs path "json" = .error failure := by
  cases h : Report.read Json.standardCodec fs path "json" with
  | error failure => exact ⟨failure, rfl⟩
  | ok files => exact absurd ((read_json_iff _ hfile hpre).1 h) (ofJson_brace_error hb hq hc files)

/-! ## Writing the trace and the report -/

/-- A log that differs from another only by what it has written since. -/
def Appends (l l' : RunLog) : Prop := ∃ bs, l' = l.write bs

theorem Appends.refl (l : RunLog) : Appends l l := ⟨[], by simp [write]⟩

theorem Appends.trans {l₁ l₂ l₃ : RunLog} (h₁ : Appends l₁ l₂) (h₂ : Appends l₂ l₃) :
    Appends l₁ l₃ := by
  obtain ⟨a, rfl⟩ := h₁
  obtain ⟨b, rfl⟩ := h₂
  exact ⟨a ++ b, by simp [write]⟩

theorem appends_write (l : RunLog) (bs : Bytes) : Appends l (l.write bs) := ⟨bs, rfl⟩

theorem write_write (l : RunLog) (a b : Bytes) : (l.write a).write b = l.write (a ++ b) := by
  simp [write]

theorem appends_foldl {α : Type} {step : RunLog → α → RunLog} (h : ∀ l x, Appends l (step l x)) :
    ∀ (xs : List α) (l : RunLog), Appends l (xs.foldl step l)
  | [], l => Appends.refl l
  | x :: xs, l => (h l x).trans (appends_foldl h xs (step l x))

theorem Appends.entries {l l' : RunLog} (h : Appends l l') : l'.entries = l.entries := by
  obtain ⟨bs, rfl⟩ := h
  rfl

theorem Appends.options {l l' : RunLog} (h : Appends l l') : l'.options = l.options := by
  obtain ⟨bs, rfl⟩ := h
  rfl

theorem Appends.summary {l l' : RunLog} (h : Appends l l') : l'.summary = l.summary := by
  obtain ⟨bs, rfl⟩ := h
  rfl

theorem Appends.output {l l' : RunLog} (h : Appends l l') : ∃ bs, l'.output = l.output ++ bs := by
  obtain ⟨bs, rfl⟩ := h
  exact ⟨bs, rfl⟩

theorem appends_traceVerbose (l : RunLog) (e : LogEntry) : Appends l (l.traceVerbose e) := by
  unfold traceVerbose
  split
  · exact appends_write _ _
  split
  · split
    · exact appends_write _ _
    · exact Appends.refl l
  · exact (appends_write _ _).trans ((appends_foldl (fun _ _ => appends_write _ _) _ _).trans
      (appends_foldl (fun _ _ => appends_write _ _) _ _))

theorem appends_traceBasic (l : RunLog) (e : LogEntry) : Appends l (l.traceBasic e) := by
  unfold traceBasic
  refine Appends.trans ?_ (appends_foldl (fun _ _ => appends_write _ _) _ _)
  split
  · exact Appends.refl l
  · exact appends_write _ _

theorem appends_writeReport (json : JsonCodec) (l : RunLog) : Appends l (l.writeReport json).1 := by
  unfold writeReport
  split
  · exact Appends.refl l
  split
  · split
    · exact appends_write _ _
    · exact Appends.refl l
  · exact appends_write _ _
  · exact appends_write _ _

/-- Logging a result adds its entry at the end and leaves the options. -/
theorem logResult_entries_options (l : RunLog) (timestamp : String) (r : JobResult) :
    (l.logResult timestamp r).entries = l.entries ++ [entryOf timestamp r] ∧
      (l.logResult timestamp r).options = l.options := by
  unfold logResult
  dsimp only
  split
  · exact ⟨(appends_traceVerbose _ _).entries, (appends_traceVerbose _ _).options⟩
  split
  · exact ⟨(appends_traceBasic _ _).entries, (appends_traceBasic _ _).options⟩
  · exact ⟨rfl, rfl⟩

/-- Logging the settings records the base directory and writes the settings. -/
theorem appends_logSettings (l : RunLog) (settings : ProjectSettings) (table : AliasTable) :
    Appends { l with basePath := settings.baseDirectory } (l.logSettings settings table) := by
  unfold logSettings say
  dsimp only
  split
  · exact Appends.refl _
  -- the settings lines are one write, followed by the alias table when debugging
  simp only [write_write]
  split
  · exact appends_write _ _
  · exact (appends_write _ _).trans (appends_foldl (fun _ _ => (appends_write _ _).trans
      (appends_foldl (fun _ _ => appends_write _ _) _ _)) _ _)

theorem logSettings_entries_options (l : RunLog) (settings : ProjectSettings)
    (table : AliasTable) :
    (l.logSettings settings table).entries = l.entries ∧
      (l.logSettings settings table).options = l.options :=
  ⟨(appends_logSettings l settings table).entries, (appends_logSettings l settings table).options⟩

/-- The log of a run: its settings logged, then each job's result at one time stamp, then the
    time the run took. -/
def ofRun (o : RunOptions) (settings : ProjectSettings) (table : AliasTable) (timestamp : String)
    (results : List JobResult) (elapsed : Int) : RunLog :=
  (results.foldl (fun l r => l.logResult timestamp r) ((start o).logSettings settings table)).setProcessingTime
    elapsed

theorem foldl_logResult (timestamp : String) :
    ∀ (results : List JobResult) (l : RunLog),
      (results.foldl (fun l r => l.logResult timestamp r) l).entries =
          l.entries ++ results.map (entryOf timestamp) ∧
        (results.foldl (fun l r => l.logResult timestamp r) l).options = l.options
  | [], l => ⟨by simp, rfl⟩
  | r :: rs, l => by
    obtain ⟨he, ho⟩ := logResult_entries_options l timestamp r
    obtain ⟨he', ho'⟩ := foldl_logResult timestamp rs (l.logResult timestamp r)
    rw [List.foldl_cons, he', he, ho', ho, List.map_cons, List.append_assoc, List.singleton_append]
    exact ⟨rfl, rfl⟩

theorem ofRun_entries_options (o : RunOptions) (settings : ProjectSettings) (table : AliasTable)
    (timestamp : String) (results : List JobResult) (elapsed : Int) :
    (ofRun o settings table timestamp results elapsed).entries = results.map (entryOf timestamp) ∧
      (ofRun o settings table timestamp results elapsed).options = o := by
  obtain ⟨he, ho⟩ := foldl_logResult timestamp results ((start o).logSettings settings table)
  obtain ⟨hse, hso⟩ := logSettings_entries_options (start o) settings table
  exact ⟨by rw [ofRun, setProcessingTime, he, hse]; rfl, by rw [ofRun, setProcessingTime, ho, hso]; rfl⟩

/-! ## The round trip -/

/-- A JSON report written after a trace without an opening brace, of entries whose texts are
    UTF-8 and whose numbers fit in 64 bits, is written without failure and read back as the
    entries' records, in order. -/
theorem read_writeReport_json {json : JsonCodec} (hlib : json.Documented) {l : RunLog}
    (hjson : l.options.logFormat = "json") (hloud : l.options.quiet = false)
    (htrace : 123 ∉ l.output) (hu : ∀ e ∈ l.entries, ∀ t ∈ e.texts, t.IsUtf8)
    (hf : ∀ e ∈ l.entries, ∀ r ∈ e.replacements, r.FitsInt64) {fs : FileSystem} {path : Path}
    (hfile : fs.readBytes path = .ok (l.writeReport json).1.output) :
    (l.writeReport json).2 = none ∧
      Report.read json fs path "json" = .ok (l.entries.map LogEntry.record) := by
  have hw : l.writeReport json = (l.write (json.render (reportValue l) ++ [10]), none) := by
    unfold writeReport
    rw [hloud, hjson, jsonReport_eq json hu]
    rfl
  rw [hw] at hfile
  refine ⟨by rw [hw], ?_⟩
  obtain ⟨body, hbody⟩ : ∃ body, json.render (reportValue l) ++ [10] = 123 :: body := by
    obtain ⟨rest, hrest⟩ := hlib.opens_object _
    exact ⟨rest ++ [10], by rw [reportValue, hrest, List.cons_append]⟩
  rw [write, hbody] at hfile
  rw [read_json_iff json hfile htrace, ← hbody]
  exact ofJson_reportValue hlib hu hf

/-- The JSON report of a run reads back as the entries logged, one per result and in order,
    with each file's path, source file, modification flag, replacements, backup and error: when
    the trace written before the report holds no opening brace, every text of the entries is
    UTF-8 and their numbers fit in 64 bits. -/
theorem read_json_report {json : JsonCodec} (hlib : json.Documented) {o : RunOptions}
    (hjson : o.logFormat = "json") (hloud : o.quiet = false) (settings : ProjectSettings) (table : AliasTable) (timestamp : String)
    (results : List JobResult) (elapsed : Int)
    (htrace : 123 ∉ (ofRun o settings table timestamp results elapsed).output)
    (hu : ∀ r ∈ results, ∀ t ∈ (entryOf timestamp r).texts, t.IsUtf8)
    (hf : ∀ r ∈ results, ∀ x ∈ (entryOf timestamp r).replacements, x.FitsInt64)
    {fs : FileSystem} {path : Path}
    (hfile : fs.readBytes path =
      .ok ((ofRun o settings table timestamp results elapsed).writeReport json).1.output) :
    ((ofRun o settings table timestamp results elapsed).writeReport json).2 = none ∧
      Report.read json fs path "json" = .ok (results.map fun r => (entryOf timestamp r).record) := by
  obtain ⟨he, ho⟩ := ofRun_entries_options o settings table timestamp results elapsed
  have hread := read_writeReport_json hlib (by rw [ho]; exact hjson) (by rw [ho]; exact hloud) htrace
    (by rw [he]; simpa using hu) (by rw [he]; simpa using hf) hfile
  rwa [he, List.map_map] at hread

/-- The path of the report file, `/r.json`. -/
def reportPath : Path := [47, 114, 46, 106, 115, 111, 110]

/-- A file system holding exactly the given bytes in the report file. -/
def reportFile (content : Bytes) : FileSystem :=
  { cwd := [47], nodes := [(reportPath, .file ⟨content, 420⟩)] }

theorem readBytes_reportFile (content : Bytes) :
    (reportFile content).readBytes reportPath = .ok content := by
  rfl

/-- The options of a run that writes a JSON report to `/r.json`. -/
def jsonOptions : RunOptions := { logFile := reportPath, logFormat := "json" }

/-- The settings of a project at `/p` whose paths are traced as they are. -/
def plainSettings : ProjectSettings :=
  { configPath := Bytes.ofString "/p/tsconfig.json", baseUrl := ".", outDir := "dist",
    baseDirectory := [], sourceRoot := Bytes.ofString "/p/src",
    outputDirectory := Bytes.ofString "/p/dist", paths := [] }

/-- A file in which one aliased specifier was replaced. -/
def replacedResult : JobResult :=
  { index := 0, filePath := Bytes.ofString "/p/dist/a.js", written := true,
    outcome := some { path := Bytes.ofString "/p/dist/a.js", sourceFile := Bytes.ofString "/p/src/a.js",
                      replacements := [{ before := Bytes.ofString "@/x", after := Bytes.ofString "./x",
                                         target := Bytes.ofString "/p/src/x", line := 1, column := 8,
                                         offset := 7, newOffset := 7 }],
                      modified := true, oldSize := 10, newSize := 10 } }

theorem read_json_report_replacedResult :
    Json.standardCodec.Documented ∧
      123 ∉ (ofRun jsonOptions plainSettings [] "2026-01-01T00:00:00Z" [replacedResult] 0).output ∧
      ((ofRun jsonOptions plainSettings [] "2026-01-01T00:00:00Z" [replacedResult] 0).writeReport
          Json.standardCodec).2 = none ∧
      Report.read Json.standardCodec (reportFile ((ofRun jsonOptions plainSettings []
          "2026-01-01T00:00:00Z" [replacedResult] 0).writeReport Json.standardCodec).1.output)
          reportPath "json" =
        .ok [{ path := Bytes.ofString "/p/dist/a.js", sourceFile := Bytes.ofString "/p/src/a.js",
               modified := true,
               replacements := [{ before := Bytes.ofString "@/x", after := Bytes.ofString "./x",
                                  target := Bytes.ofString "/p/src/x", line := 1, column := 8,
                                  offset := 7, newOffset := 7 }] }] := by
  have htrace : 123 ∉ (ofRun jsonOptions plainSettings [] "2026-01-01T00:00:00Z"
      [replacedResult] 0).output := by decide
  have hu : ∀ r ∈ [replacedResult], ∀ t ∈ (entryOf "2026-01-01T00:00:00Z" r).texts, t.IsUtf8 := by
    simp [replacedResult, entryOf, LogEntry.texts, Replacement.texts, Bytes.isUtf8_ofString,
      Bytes.isUtf8_nil]
  have hf : ∀ r ∈ [replacedResult], ∀ x ∈ (entryOf "2026-01-01T00:00:00Z" r).replacements,
      x.FitsInt64 := by decide
  obtain ⟨hw, hread⟩ := read_json_report Json.standardCodec_documented rfl rfl plainSettings []
    "2026-01-01T00:00:00Z" [replacedResult] 0 htrace hu hf (readBytes_reportFile _)
  exact ⟨Json.standardCodec_documented, htrace, hw, hread⟩

/-- A file in which one aliased specifier, holding a brace, stays unresolved. -/
def braceResult : JobResult :=
  { index := 0, filePath := Bytes.ofString "/p/dist/a.js",
    outcome := some { path := Bytes.ofString "/p/dist/a.js", sourceFile := Bytes.ofString "/p/src/a.js",
                      unresolved := [{ specifier := Bytes.ofString "@/\x7bx\x7d", line := 1, column := 8 }],
                      oldSize := 10, newSize := 10 } }

/-- The brace of an unresolved specifier, traced before the report, is taken for the start of
    the report, so the report of that run cannot be read back. -/
theorem read_fails_after_brace_trace :
    ∃ failure, Report.read Json.standardCodec (reportFile ((ofRun jsonOptions plainSettings []
      "2026-01-01T00:00:00Z" [braceResult] 0).writeReport Json.standardCodec).1.output)
      reportPath "json" = .error failure := by
  obtain ⟨report, hreport⟩ := (appends_writeReport Json.standardCodec (ofRun jsonOptions
    plainSettings [] "2026-01-01T00:00:00Z" [braceResult] 0)).output
  have htrace : (ofRun jsonOptions plainSettings [] "2026-01-01T00:00:00Z" [braceResult] 0).output =
      Bytes.ofString "could not replace @/" ++ 123 :: 120 ::
        Bytes.ofString "\x7d in /p/dist/a.js\n" := by
    decide +kernel
  have hfile : (reportFile ((ofRun jsonOptions plainSettings [] "2026-01-01T00:00:00Z"
      [braceResult] 0).writeReport Json.standardCodec).1.output).readBytes reportPath =
        .ok (Bytes.ofString "could not replace @/" ++ 123 :: 120 ::
          (Bytes.ofString "\x7d in /p/dist/a.js\n" ++ report)) := by
    rw [readBytes_reportFile, hreport, htrace, List.append_assoc, List.cons_append,
      List.cons_append]
  exact read_fails_of_brace hfile (by decide +kernel) (by decide) (by decide) (by decide)

end RunLog

end Unalias
