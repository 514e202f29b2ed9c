import Unalias.Failure
import Unalias.Text.Space

/-! # Run options

The options of one run, as given on the command line, and their check. Replaying a report (to
revert or to apply it again) needs a report file and nothing else; a normal run needs a project
file and a source root, both made absolute, and an output root made absolute when given. The
report format must be text, JSON or CSV, and the worker count must not be negative.

After the check, an unset report format is text for a normal run and JSON for a replay, an unset
worker count is the machine's default, and file patterns are trimmed, emptied ones dropped and
a leading `./` taken off; with no include pattern left, every compiled script is included.
-/

namespace Unalias

/-- The options of one run. -/
structure RunOptions where
  /-- The project file. -/
  project : Path := []
  /-- The source root. -/
  sourceRoot : Path := []
  /-- The output root; empty for the project's own. -/
  outputRoot : Path := []
  /-- Patterns of the files to process. -/
  includes : List String := []
  /-- Patterns of the files to leave. -/
  excludes : List String := []
  /-- Patterns of the directories not to enter. -/
  excludedDirs : List String := []
  /-- How many files are processed at once; 0 for the default. -/
  workers : Int := 0
  /-- How many existence answers are remembered; 0 or below for the default. -/
  cacheSize : Int := 0
  /-- Report only, write nothing. -/
  dryRun : Bool := false
  /-- Undo the replacements a report records. -/
  revert : Bool := false
  /-- Make the replacements a report records again. -/
  apply : Bool := false
  /-- Keep a copy of each file before changing it. -/
  backup : Bool := false
  /-- Trace every file. -/
  verbose : Bool := false
  /-- Trace every file with positions and the alias table. -/
  debug : Bool := false
  /-- Print nothing. -/
  quiet : Bool := false
  /-- The report file; empty for the standard output. -/
  logFile : Path := []
  /-- The report format: empty, `text`, `json` or `csv`. -/
  logFormat : String := ""
  deriving Repr

/-- The include pattern used when none is given: every compiled script. -/
def defaultInclude : String := "**/*.{js,jsx,ts,tsx}"

/-- The most workers the default allows. -/
def maxWorkers : Nat := 8

/-- File patterns trimmed, empty ones dropped, and a leading `./` taken off. -/
def normalizePatterns (ps : List String) : List String :=
  ps.filterMap fun p =>
    let p := trimSpace p
    if p.isEmpty then none
    else some (if p.startsWith "./" then String.ofList (p.toList.drop 2) else p)

namespace RunOptions

/-- Whether every file is traced: when verbose or debugging, unless quiet. -/
def IsVerbose (o : RunOptions) : Bool := (o.verbose || o.debug) && !o.quiet

/-- Whether positions and the alias table are traced: when debugging, unless quiet. -/
def IsDebug (o : RunOptions) : Bool := o.debug && !o.quiet

/-- Whether anything is printed: unless quiet. -/
def ShouldLog (o : RunOptions) : Bool := !o.quiet

/-- Whether a copy is kept before a file is changed: when asked, unless nothing is written. -/
def ShouldBackUp (o : RunOptions) : Bool := o.backup && !o.dryRun

/-- Whether the run replays a report. -/
def IsReplay (o : RunOptions) : Bool := o.revert || o.apply

/-- The options checked and completed, with relative paths taken against the working
    directory and `defaultWorkers` for an unset worker count. -/
def validate (o : RunOptions) (cwd : Path) (defaultWorkers : Nat) : Except Failure RunOptions := do
  let o ← if o.IsReplay then
      if o.logFile.isEmpty then
        throw (.config [] "log file is required for revert or apply (use --log)")
      else pure o
    else do
      if o.project.isEmpty then throw (.config [] "project is required (use --project)")
      let o := { o with project := Path.abs cwd o.project }
      if o.sourceRoot.isEmpty then throw (.config [] "source root is required (use --src)")
      let o := { o with sourceRoot := Path.abs cwd o.sourceRoot }
      pure (if o.outputRoot.isEmpty then o else { o with outputRoot := Path.abs cwd o.outputRoot })
  unless ["", "text", "json", "csv"].contains o.logFormat do
    throw (.config [] "log format must be 'text', 'json' or 'csv'")
  if o.workers < 0 then throw (.config [] "workers must not be negative")
  let includes := normalizePatterns o.includes
  pure { o with
    logFormat := if o.logFormat.isEmpty then (if o.IsReplay then "json" else "text")
      else o.logFormat
    workers := if o.workers = 0 then defaultWorkers else o.workers
    includes := if includes.isEmpty then [defaultInclude] else includes
    excludes := normalizePatterns o.excludes }

end RunOptions

end Unalias
