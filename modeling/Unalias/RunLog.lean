import Unalias.Csv
import Unalias.Duration
import Unalias.Job
import Unalias.Json.Print
import Unalias.Options
import Unalias.Project.Settings

/-! # The run log

A run log records one entry per processed file and keeps the totals, while it writes a trace:
in verbose mode the settings, every replacement and every unresolved specifier, with positions
and the alias table when debugging; otherwise the errors and the unresolved specifiers only. Paths
in the trace are shown relative to the base directory where a relative path exists.

At the end it writes the report: nothing when quiet; else a JSON document of the totals and
entries, or CSV records of the replacements followed by comment lines with the totals, or the
errors and a summary line. An entry of a file that failed is not modified and lists no
replacements; an entry lists replacements only when the file was modified.
-/

namespace Unalias

/-- The record of one processed file. -/
structure LogEntry where
  /-- When it was logged. -/
  timestamp : String
  /-- The file. -/
  filePath : Path
  /-- Its source file; empty when unknown. -/
  sourceFile : Path := []
  /-- Its size before. -/
  oldSize : Int := 0
  /-- Its size after. -/
  newSize : Int := 0
  /-- Whether it was changed. -/
  modified : Bool := false
  /-- The replacements made. -/
  replacements : List Replacement := []
  /-- The specifiers left unresolved. -/
  unresolved : List Unresolved := []
  /-- Its backup; empty when none. -/
  backupPath : Path := []
  /-- The text of what failed; empty when nothing did. -/
  error : Bytes := []
  deriving Repr

/-- The totals of a run. -/
structure RunSummary where
  /-- Files logged. -/
  totalFiles : Nat := 0
  /-- Files modified without failure. -/
  modifiedFiles : Nat := 0
  /-- Replacements in those files. -/
  totalReplacements : Nat := 0
  /-- Unresolved specifiers in all files. -/
  unresolved : Nat := 0
  /-- Files that failed. -/
  errorCount : Nat := 0
  /-- How long the run took, in nanoseconds. -/
  processingTime : Int := 0
  /-- Whether nothing was to be written. -/
  dryRun : Bool := false
  deriving Repr

/-- A run log: its options, the directory paths are shown against, the entries, the totals, and
    what it has written. -/
structure RunLog where
  /-- The run's options. -/
  options : RunOptions
  /-- The directory paths are shown against; empty for none. -/
  basePath : Path := []
  /-- The entries, in order. -/
  entries : List LogEntry := []
  /-- The totals. -/
  summary : RunSummary := {}
  /-- What has been written. -/
  output : Bytes := []
  deriving Repr

namespace RunLog

/-- An empty log for a run's options. -/
def start (o : RunOptions) : RunLog := { options := o, summary := { dryRun := o.dryRun } }

/-- Writes bytes. -/
def write (l : RunLog) (bs : Bytes) : RunLog := { l with output := l.output ++ bs }

/-- Writes a text. -/
def say (l : RunLog) (s : String) : RunLog := l.write (Bytes.ofString s)

/-- A path as the trace shows it: relative to the base directory when both are set and a
    relative path exists, else as it is. -/
def display (l : RunLog) (p : Path) : Bytes :=
  if l.basePath.isEmpty || p.isEmpty then p else (Path.rel? l.basePath p).getD p

/-- Records the settings of the run, and in verbose mode writes them, with the alias table when
    debugging. -/
def logSettings (l : RunLog) (s : ProjectSettings) (table : AliasTable) : RunLog :=
  let l := { l with basePath := s.baseDirectory }
  if !l.options.IsVerbose then l
  else
    let l := l.say s!"baseUrl: {s.baseUrl}\n" |>.say s!"outDir: {s.outDir}\n"
      |>.write (Bytes.ofString "basePath: " ++ s.baseDirectory ++ [10])
      |>.write (Bytes.ofString "srcPath: " ++ s.sourceRoot ++ [10])
      |>.write (Bytes.ofString "outPath: " ++ s.outputDirectory ++ [10])
    if !l.options.IsDebug then l
    else table.foldl (fun l e =>
      let l := l.write (Bytes.ofString "alias: " ++ e.stem ++ [10])
      e.candidates.foldl (fun l c => l.write (9 :: l.display c ++ [10])) l) l

/-- The line of an unresolved specifier in a file. -/
def unresolvedMessage (specifier : Bytes) : Bytes :=
  Bytes.ofString "could not replace " ++ specifier

/-- The trace of an entry in verbose mode. -/
def traceVerbose (l : RunLog) (e : LogEntry) : RunLog :=
  if !e.error.isEmpty then
    l.write (Bytes.ofString "ERROR: " ++ l.display e.filePath ++ Bytes.ofString " - " ++ e.error ++ [10])
  else if e.replacements.isEmpty && e.unresolved.isEmpty then
    if l.options.IsDebug then l.write (l.display e.filePath ++ Bytes.ofString ": no aliases\n") else l
  else
    let l := l.write (l.display e.filePath ++ Bytes.ofString " (source: " ++ l.display e.sourceFile ++
      Bytes.ofString "):\n")
    let l := e.replacements.foldl (fun l r =>
      let lead := if l.options.IsDebug then Bytes.ofString s!"\t{r.line}:{r.column} " else [9]
      l.write (lead ++ Bytes.ofString "replacing '" ++ r.before ++ Bytes.ofString "' -> '" ++
        r.after ++ Bytes.ofString "' referencing " ++ l.display r.target ++ [10])) l
    e.unresolved.foldl (fun l u => l.write (unresolvedMessage u.specifier ++ [10])) l

/-- The trace of an entry outside verbose mode: its error and its unresolved specifiers. -/
def traceBasic (l : RunLog) (e : LogEntry) : RunLog :=
  let l := if e.error.isEmpty then l
    else l.write (Bytes.ofString "ERROR: " ++ l.display e.filePath ++ Bytes.ofString " - " ++ e.error ++ [10])
  e.unresolved.foldl (fun l u =>
    l.write (unresolvedMessage u.specifier ++ Bytes.ofString " in " ++ l.display e.filePath ++ [10])) l

/-- The entry of a job's result, logged at `timestamp`. -/
def entryOf (timestamp : String) (r : JobResult) : LogEntry :=
  let e : LogEntry := { timestamp, filePath := r.filePath, backupPath := r.backupPath }
  let e := match r.outcome with
    | some o =>
      { e with sourceFile := o.sourceFile, oldSize := o.oldSize, newSize := o.newSize,
               modified := o.modified, unresolved := o.unresolved,
               replacements := if o.modified then o.replacements else [] }
    | none => e
  match r.error with
  | some f => { e with error := f.text, modified := false, replacements := [] }
  | none => e

/-- Records a job's result, logged at `timestamp`, and writes its trace. -/
def logResult (l : RunLog) (timestamp : String) (r : JobResult) : RunLog :=
  let e := entryOf timestamp r
  let s := l.summary
  let s := { s with unresolved := s.unresolved + e.unresolved.length }
  let s := if r.error.isSome then { s with errorCount := s.errorCount + 1 }
    else if e.modified then
      { s with modifiedFiles := s.modifiedFiles + 1,
               totalReplacements := s.totalReplacements + e.replacements.length }
    else s
  let l := { l with entries := l.entries ++ [e], summary := { s with totalFiles := s.totalFiles + 1 } }
  if l.options.IsVerbose then l.traceVerbose e
  else if l.options.ShouldLog then l.traceBasic e
  else l

/-- Records how long the run took, in nanoseconds. -/
def setProcessingTime (l : RunLog) (ns : Int) : RunLog :=
  { l with summary := { l.summary with processingTime := ns } }

/-- The summary line of the report. -/
def summaryLine (l : RunLog) : String :=
  s!"Replaced {l.summary.totalReplacements} paths in {l.summary.modifiedFiles} files" ++
    if l.summary.dryRun then " (dry run)" else ""

/-- A byte string as a JSON string, when it is UTF-8. -/
def jsonText (bs : Bytes) : Except String JsonValue :=
  match bs.toString? with
  | some s => .ok (.string s)
  | none => .error "json: invalid UTF-8 in string"

/-- An integer as a JSON number. -/
def jsonInt (i : Int) : JsonValue := .number (toString i)

/-- A replacement as a JSON object; the target is left out when empty. -/
def replacementJson (r : Replacement) : Except String JsonValue := do
  let target ← if r.target.isEmpty then pure [] else pure [("target", ← jsonText r.target)]
  return .object ([("from", ← jsonText r.before), ("to", ← jsonText r.after)] ++ target ++
    [("line", jsonInt r.line), ("column", jsonInt r.column), ("byte_offset", jsonInt r.offset),
     ("new_byte_offset", jsonInt r.newOffset)])

/-- An entry as a JSON object; empty optional members are left out. -/
def entryJson (e : LogEntry) : Except String JsonValue := do
  let opt (name : String) (bs : Bytes) : Except String (List (String × JsonValue)) :=
    if bs.isEmpty then pure [] else do pure [(name, ← jsonText bs)]
  let reps ← e.replacements.mapM replacementJson
  let unres ← e.unresolved.mapM fun u => do
    pure (JsonValue.object [("specifier", ← jsonText u.specifier), ("line", jsonInt u.line),
      ("column", jsonInt u.column)])
  return .object ([("timestamp", .string e.timestamp), ("file_path", ← jsonText e.filePath)] ++
    (← opt "source_file" e.sourceFile) ++
    [("original_size", jsonInt e.oldSize), ("new_size", jsonInt e.newSize),
     ("modified", .bool e.modified)] ++
    (if reps.isEmpty then [] else [("replacements", .array reps)]) ++
    (if unres.isEmpty then [] else [("unresolved", .array unres)]) ++
    (← opt "backup_path" e.backupPath) ++ (← opt "error" e.error))

/-- The totals as a JSON object. -/
def summaryJson (s : RunSummary) : JsonValue :=
  .object [("total_files", jsonInt s.totalFiles), ("modified_files", jsonInt s.modifiedFiles),
    ("total_replacements", jsonInt s.totalReplacements), ("unresolved", jsonInt s.unresolved),
    ("error_count", jsonInt s.errorCount), ("processing_time", jsonInt s.processingTime),
    ("dry_run", .bool s.dryRun)]

/-- The JSON report, written by the library `json`: the totals and the entries. -/
def jsonReport (json : JsonCodec) (l : RunLog) : Except String Bytes := do
  let entries ← l.entries.mapM entryJson
  return json.render (.object [("summary", summaryJson l.summary), ("entries", .array entries)]) ++
    [10]

/-- The CSV header. -/
def csvHeader : List Bytes :=
  ["file_path", "from", "to", "line", "column", "byte_offset", "new_byte_offset", "target"].map
    Bytes.ofString

/-- The CSV report: a record per replacement, then the totals as comment lines. -/
def csvReport (l : RunLog) : Bytes :=
  let records := l.entries.flatMap fun e => e.replacements.map fun r =>
    [e.filePath, r.before, r.after, Bytes.ofInt r.line, Bytes.ofInt r.column, Bytes.ofInt r.offset,
      Bytes.ofInt r.newOffset, r.target]
  let took := durationText l.summary.processingTime
  (csvHeader :: records).flatMap Csv.writeRecord ++ Bytes.ofString (
    s!"# {l.summaryLine}\n# Files processed: {l.summary.totalFiles}\n" ++
    s!"# Unresolved specifiers: {l.summary.unresolved}\n# Errors: {l.summary.errorCount}\n" ++
    s!"# Processing time: {took}\n")

/-- The text report: the errors, if any, and the summary line. -/
def textReport (l : RunLog) : Bytes :=
  let errors := if l.summary.errorCount = 0 then []
    else Bytes.ofString "\nErrors encountered:\n" ++ l.entries.flatMap fun e =>
      if e.error.isEmpty then [] else Bytes.ofString "  " ++ e.filePath ++ Bytes.ofString ": " ++ e.error ++ [10]
  errors ++ Bytes.ofString (l.summaryLine ++ "\n")

/-- Writes the report in the run's format, a JSON report with the library `json`; the text of
    the failure when the JSON report cannot be written. -/
def writeReport (json : JsonCodec) (l : RunLog) : RunLog × Option String :=
  if l.options.quiet then (l, none)
  else match l.options.logFormat with
    | "json" =>
      match l.jsonReport json with
      | .ok bs => (l.write bs, none)
      | .error e => (l, some e)
    | "csv" => (l.write l.csvReport, none)
    | _ => (l.write l.textReport, none)

end RunLog

end Unalias
