import Unalias.Csv
import Unalias.FileSystem.Action
import Unalias.Json.Parse
import Unalias.Text.Space

/-! # Reading a run report

A run leaves a report of the files it changed, as JSON or as comma-separated records; reading it
back gives, per file, the replacements made there, so that a later run can undo or redo them.

JSON reports are read from their first opening brace on, since verbose lines may stand before
the report. The document is read strictly: no name may repeat in any object, integers must be
plain integer literals that fit in 64 bits, and a `null` reads as the empty value of its place.
Members other than the ones read are passed over.

Comma-separated reports are read after trimming white space off every line and dropping empty
lines and lines that start with `#`. A first record that starts with `file_path` is the header;
records of fewer than three fields are passed over. The numbers of a record that are missing or
not integers read as `-1`, and the records of one file are gathered under its first place.
-/

namespace Unalias

/-- A replacement as a report records it. -/
structure RecordedReplacement where
  /-- The specifier before the run. -/
  before : Bytes := []
  /-- The specifier the run wrote. -/
  after : Bytes := []
  /-- The module it names; empty when not recorded. -/
  target : Bytes := []
  /-- Its line. -/
  line : Int := 0
  /-- Its column. -/
  column : Int := 0
  /-- Its offset in the content before the run. -/
  offset : Int := 0
  /-- Its offset in the content after the run. -/
  newOffset : Int := 0
  deriving DecidableEq, Repr

/-- What a report records of one file. -/
structure RecordedFile where
  /-- The file. -/
  path : Path := []
  /-- Its source file; empty when not recorded. -/
  sourceFile : Path := []
  /-- Whether the run changed it. -/
  modified : Bool := false
  /-- The replacements made in it, in order. -/
  replacements : List RecordedReplacement := []
  /-- Its backup; empty when none. -/
  backupPath : Path := []
  /-- What failed for it; empty when nothing did. -/
  error : Bytes := []
  deriving DecidableEq, Repr

/-- Whether some object in a JSON value holds a name twice. -/
def JsonValue.HasRepeatedName : JsonValue → Bool
  | .array items => anyItem items
  | .object members => repeated members || anyMember members
  | _ => false
where
  /-- Whether some item holds a repeated name. -/
  anyItem : List JsonValue → Bool
    | [] => false
    | v :: vs => v.HasRepeatedName || anyItem vs
  /-- Whether some member's value holds a repeated name. -/
  anyMember : List (String × JsonValue) → Bool
    | [] => false
    | (_, v) :: ms => v.HasRepeatedName || anyMember ms
  /-- Whether a name stands twice among the members. -/
  repeated : List (String × JsonValue) → Bool
    | [] => false
    | (k, _) :: ms => ms.any (·.1 == k) || repeated ms

namespace Report

/-! ## JSON reports -/

/-- A string member; `null` reads as empty. -/
def readText : JsonValue → Except String Bytes
  | .string s => .ok (Bytes.ofString s)
  | .null => .ok []
  | _ => .error "expected a string"

/-- A Boolean member; `null` reads as false. -/
def readBool : JsonValue → Except String Bool
  | .bool b => .ok b
  | .null => .ok false
  | _ => .error "expected a Boolean"

/-- An integer member: a literal without fraction or exponent that fits in 64 bits; `null`
    reads as zero. -/
def readInt : JsonValue → Except String Int
  | .number lit =>
    match Bytes.toInt64? (Bytes.ofString lit) with
    | some v => .ok v
    | none => .error "expected an integer"
  | .null => .ok 0
  | _ => .error "expected an integer"

/-- A recorded replacement with one more member read; other names are passed over. -/
def replacementMember (r : RecordedReplacement) :
    String × JsonValue → Except String RecordedReplacement
  | (name, v) =>
    match name with
    | "from" => return { r with before := ← readText v }
    | "to" => return { r with after := ← readText v }
    | "target" => return { r with target := ← readText v }
    | "line" => return { r with line := ← readInt v }
    | "column" => return { r with column := ← readInt v }
    | "byte_offset" => return { r with offset := ← readInt v }
    | "new_byte_offset" => return { r with newOffset := ← readInt v }
    | _ => pure r

/-- A recorded replacement; `null` reads as an empty one. -/
def readReplacement : JsonValue → Except String RecordedReplacement
  | .null => .ok {}
  | .object members => members.foldlM replacementMember {}
  | _ => .error "expected a replacement object"

/-- A list member; `null` reads as empty. -/
def readList {α : Type} (item : JsonValue → Except String α) : JsonValue → Except String (List α)
  | .null => .ok []
  | .array items => items.mapM item
  | _ => .error "expected an array"

/-- A recorded file with one more member read; other names are passed over. -/
def fileMember (f : RecordedFile) : String × JsonValue → Except String RecordedFile
  | (name, v) =>
    match name with
    | "file_path" => return { f with path := ← readText v }
    | "source_file" => return { f with sourceFile := ← readText v }
    | "modified" => return { f with modified := ← readBool v }
    | "replacements" => return { f with replacements := ← readList readReplacement v }
    | "backup_path" => return { f with backupPath := ← readText v }
    | "error" => return { f with error := ← readText v }
    | _ => pure f

/-- A recorded file; `null` reads as an empty one. -/
def readFile : JsonValue → Except String RecordedFile
  | .null => .ok {}
  | .object members => members.foldlM fileMember {}
  | _ => .error "expected an entry object"

/-- The files a JSON report records, from the report's text, read by the library `json`. -/
def ofJson (json : JsonCodec) (text : Bytes) : Except String (List RecordedFile) := do
  let doc ← json.parse text
  if doc.HasRepeatedName then throw "duplicate name in object"
  match doc with
  | .null => pure []
  | .object members =>
    members.foldlM (fun files (name, v) =>
      if name == "entries" then readList readFile v else pure files) []
  | _ => throw "expected a report object"

/-! ## Comma-separated reports -/

/-- The lines that hold records: trimmed, without empty lines and lines starting with `#`. -/
def recordLines (text : Bytes) : List Bytes :=
  ((text.split 10).map Bytes.trimSpace).filter fun l => !l.isEmpty && l.head? != some 35

/-- The number in a field of a record; `-1` when the field is missing or not an integer. -/
def fieldNumber (record : List Bytes) (i : Nat) : Int :=
  (record[i]?.bind Bytes.toInt64?).getD (-1)

/-- The replacement a record of at least three fields stands for. -/
def replacementOf (record : List Bytes) : RecordedReplacement :=
  { before := record.getD 1 [], after := record.getD 2 [], target := record.getD 7 []
    line := fieldNumber record 3, column := fieldNumber record 4
    offset := fieldNumber record 5, newOffset := fieldNumber record 6 }

/-- The files with one more replacement recorded for a path: added to the file's entry when it
    has one, otherwise in a new modified entry at the end. -/
def addReplacement (files : List RecordedFile) (path : Path) (r : RecordedReplacement) :
    List RecordedFile :=
  if files.any (·.path == path) then
    files.map fun f => if f.path == path then { f with replacements := f.replacements ++ [r] } else f
  else files ++ [{ path, modified := true, replacements := [r] }]

/-- The files the records stand for; the first record is passed over when it is the header. -/
def ofRecords (records : List (List Bytes)) : List RecordedFile :=
  let body := match records with
    | first :: rest => if first.head? == some (Bytes.ofString "file_path") then rest else records
    | [] => []
  body.foldl (fun files record =>
    match record with
    | path :: _ :: _ :: _ => addReplacement files path (replacementOf record)
    | _ => files) []

/-- Why a comma-separated report cannot be read. -/
inductive CsvProblem where
  /-- No line holds a record. -/
  | empty
  /-- The records are malformed. -/
  | malformed (e : Csv.ReadError)
  deriving DecidableEq, Repr

/-- The text of the problem. -/
def CsvProblem.text : CsvProblem → String
  | .empty => "no CSV data found"
  | .malformed e => e.text

/-- The files a comma-separated report records, from the report's text. -/
def ofCsv (text : Bytes) : Except CsvProblem (List RecordedFile) :=
  match recordLines text with
  | [] => .error .empty
  | lines =>
    match Csv.read (List.intercalate [10] lines) with
    | .ok records => .ok (ofRecords records)
    | .error e => .error (.malformed e)

/-! ## Report files -/

/-- The files recorded in the report at `path`, written in `format` (`json` or `csv`); a JSON
    report is read with the library `json`. -/
def read (json : JsonCodec) (fs : FileSystem) (path : Path) (format : String) :
    Except Failure (List RecordedFile) := do
  let text ← match fs.readBytes path with
    | .ok text => pure text
    | .error e => throw (Failure.make .file path "failed to read log file" (some e))
  match format with
  | "json" =>
    match text.dropWhile (· != 123) with
    | [] => throw (Failure.make .parsing path "no JSON content found in log file")
    | body =>
      match ofJson json body with
      | .ok files => pure files
      | .error e =>
        throw (Failure.make .parsing path "failed to parse JSON report"
          (some (.plain (Bytes.ofString e))))
  | "csv" =>
    match ofCsv text with
    | .ok files => pure files
    | .error e =>
      throw (Failure.make .parsing path "failed to parse CSV report"
        (some (.plain (Bytes.ofString e.text))))
  | other => throw (Failure.make .parsing path ("unsupported log format: " ++ other))

end Report

end Unalias
