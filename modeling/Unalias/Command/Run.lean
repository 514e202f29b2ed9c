import Unalias.Batch
import Unalias.Command.Complete
import Unalias.Command.Help
import Unalias.Command.Parse
import Unalias.Command.Script
import Unalias.Discovery
import Unalias.Project.Settings
import Unalias.Replay
import Unalias.RunLog

/-! # Running the command

A run of the command takes its arguments and a file system and leaves a file system, what it
printed on the standard output and on the standard error, and an exit code.

The command line is read first; asking for help prints the help and succeeds. Otherwise plain
arguments and conflicting flags are refused, the options are checked, and then either a report
is replayed (to revert or to apply a run again) or the compiled files are processed: the project
file is loaded, its settings are completed, the compiled files are found, the report sink is
opened, and the files are processed in a batch, traced, and summed up in a report. The report
goes to the report file when one is given, otherwise to the standard output. A compiled file
that is rewritten is replaced by a new file; when the report file is one of them, the trace
written before the batch is rewritten with it, and what is written after the batch is lost. Any failure is
printed on the standard error after `Error: ` and ends the run with exit code 1; so do files
that could not be processed.
-/

namespace Unalias.Command

/-- What a run is given besides its arguments and the file system. -/
structure Surroundings where
  /-- The time each file's entry is logged at. -/
  timestamp : String
  /-- The stamp of backup names. -/
  stamp : Bytes
  /-- How long processing took, in nanoseconds, as the report shows it. -/
  elapsed : Int
  /-- The worker count when none is set. -/
  defaultWorkers : Nat

/-- What a run can change: the file system and the two output streams. -/
structure Console where
  /-- The file system. -/
  fs : FileSystem
  /-- What was printed on the standard output. -/
  out : Bytes := []
  /-- What was printed on the standard error. -/
  err : Bytes := []

/-- A step of a run, which changes the console and may fail. -/
abbrev Session (α : Type) := EStateM Failure Console α

namespace Session

/-- A file-system action as a step of a run. -/
def ofAction {α : Type} (a : FsAction α) : Session α := fun c =>
  match a c.fs with
  | .ok v fs => .ok v { c with fs }
  | .error e fs => .error e { c with fs }

/-- The value of an `Except`, or its failure. -/
def ofExcept {α : Type} : Except Failure α → Session α
  | .ok a => pure a
  | .error e => throw e

/-- Prints on the standard output. -/
def print (bs : Bytes) : Session Unit := modify fun c => { c with out := c.out ++ bs }

end Session

/-- Where the trace and the report go. -/
inductive Sink where
  /-- The standard output. -/
  | stdout
  /-- A report file, opened for this run. -/
  | file (p : Path)
  /-- A report file that a new file has since replaced under its name: what is written goes to
      the file that was opened, which no longer has a name, so it is lost. -/
  | unnamed
  deriving DecidableEq, Repr

namespace Sink

/-- The sink of a run's options: the report file, created or emptied, when one is given. -/
def start (o : RunOptions) : Session Sink := do
  if o.logFile.isEmpty then return .stdout
  let c ← get
  match c.fs.writeFile o.logFile [] 0o666 with
  | .ok fs =>
    set { c with fs }
    return .file o.logFile
  | .error e =>
    throw (.wrapped (Bytes.ofString "failed to create log file " ++ o.logFile)
      (.system "open" o.logFile e))

/-- Writes bytes to the sink. -/
def write (s : Sink) (bs : Bytes) : Session Unit :=
  match s with
  | .stdout => Session.print bs
  | .file p => modify fun c =>
    match c.fs.readFile p with
    | .ok old =>
      match c.fs.writeFile p (old ++ bs) 0o666 with
      | .ok fs => { c with fs }
      | .error _ => c
    | .error _ => c
  | .unnamed => pure ()

/-- The sink once the files `replaced` were replaced by new ones under their names: a report
    file among them has lost its name. Paths are compared by where they lead. -/
def afterReplacing (s : Sink) (fs : FileSystem) (replaced : List Path) : Sink :=
  match s with
  | .file p =>
    if replaced.any fun q => (fs.walk q).toOption == (fs.walk p).toOption then .unnamed else s
  | _ => s

end Sink

/-- Replays the report of the options in a mode, and says how many files were replayed. -/
def replayReport (mode : ReplayMode) (o : RunOptions) : Session Unit := do
  let summary ← Session.ofAction (Replay.run Json.standardCodec mode o.logFile o.logFormat)
  if let some f := summary.failure then throw f
  if o.ShouldLog then
    let verb := match mode with
      | .revert => "Reverted"
      | .apply => "Applied"
    let done := summary.done
    Session.print (Bytes.ofString s!"{verb} {done} files\n")

/-- Processes the compiled files of the options' project. -/
def processProject (env : Surroundings) (o : RunOptions) : Session Unit := do
  let fs := (← get).fs
  let config ← Session.ofExcept (ProjectConfig.load fs o.project)
  let settings ← Session.ofExcept (config.settle o.sourceRoot o.outputRoot)
  let table := settings.table
  let found ←
    Session.ofExcept (discoverFiles Glob.matches? fs (FileRules.ofOptions o) settings.outputDirectory)
  let sink ← Sink.start o
  let log := (RunLog.start o).logSettings settings table
  sink.write log.output
  let log := { log with output := [] }
  let batch : BatchSettings :=
    { layout := Layout.ofRoots table settings.sourceRoot settings.outputDirectory
      dryRun := o.dryRun, backup := o.ShouldBackUp, workers := o.workers.toNat
      cacheSize := o.cacheSize }
  let results ← Session.ofAction fun fs =>
    let ended := Batch.run ProbeCache.lru batch (Naming.ofStamp env.stamp)
      (Batch.firstReads batch.workers) (found.map (·.path)) fs
    .ok ended.1 ended.2
  let sink := sink.afterReplacing (← get).fs ((results.filter (·.written)).map (·.filePath))
  let log := results.foldl (fun l r => l.logResult env.timestamp r) log
  let log := log.setProcessingTime env.elapsed
  let (log, problem) := log.writeReport Json.standardCodec
  sink.write log.output
  if let some e := problem then throw (.plain (Bytes.ofString e))
  let failed := log.summary.errorCount
  if failed > 0 then
    let total := found.length
    throw (.plain (Bytes.ofString s!"{failed} of {total} files could not be processed"))

/-- What a run leaves: the console and the exit code. -/
structure Outcome where
  /-- The file system and the output streams. -/
  console : Console
  /-- The exit code: 0 for success, 1 for failure. -/
  exitCode : Nat

/-- A failed run: the error text on the standard error, exit code 1. -/
def failWith (c : Console) (text : Bytes) : Outcome :=
  ⟨{ c with err := c.err ++ Bytes.ofString "Error: " ++ text ++ [10] }, 1⟩

/-- A run of the main command with its arguments on the file system. -/
def runMain (env : Surroundings) (args : List Bytes) (c : Console) : Outcome :=
  match Invocation.ofArgs args with
  | .error e => failWith c e
  | .ok inv =>
    if inv.help then ⟨{ c with out := Bytes.ofString helpText }, 0⟩
    else match inv.positional with
      | a :: _ =>
        failWith c (Bytes.ofString "unknown command " ++ Text.quote a ++ Bytes.ofString " for " ++
          Text.quote (Bytes.ofString commandName))
      | [] =>
        match inv.groupConflict with
        | some text => failWith c (Bytes.ofString text)
        | none =>
          match inv.options.validate c.fs.cwd env.defaultWorkers with
          | .error f => failWith c f.text
          | .ok o =>
            let session : Session Unit :=
              if o.revert then replayReport .revert o
              else if o.apply then replayReport .apply o
              else processProject env o
            match session c with
            | .ok () c => ⟨c, 0⟩
            | .error f c => failWith c f.text

/-- A run of a command other than the main one, with its arguments: the completion command only
    shows its help; a shell's command writes that shell's completion script. -/
def runOther (cmd : Cmd) (args : List Bytes) (c : Console) : Outcome :=
  match Invocation.ofArgsWith cmd.flags args with
  | .error e => failWith c e
  | .ok inv =>
    match cmd with
    | .script s =>
      if inv.help then ⟨{ c with out := Bytes.ofString s.help }, 0⟩
      else match inv.positional with
        | a :: _ =>
          failWith c (Bytes.ofString "unknown command " ++ Text.quote a ++
            Bytes.ofString " for " ++ Text.quote (Bytes.ofString cmd.path))
        | [] => ⟨{ c with out := Bytes.ofString (s.script !inv.noDescriptions) }, 0⟩
    | _ => ⟨{ c with out := Bytes.ofString completionHelp }, 0⟩

/-- A completion request with the words after the request's name; `withCompletion` tells
    whether the completion command exists for it. -/
def runCompletion (noDescriptions withCompletion : Bool) (words : List Bytes) (c : Console) :
    Outcome :=
  match words.getLast? with
  | none => failWith c (Bytes.ofString "requires at least 1 arg(s), only received 0")
  | some last =>
    let (out, err) := (complete withCompletion words.dropLast last).render noDescriptions
    ⟨{ c with out := c.out ++ out, err := c.err ++ err }, 0⟩

/-- The names of the completion request. -/
def requestNames : List Bytes := [Bytes.ofString "__complete", Bytes.ofString "__completeNoDesc"]

/-- A run of the program with the arguments on the file system. The first word of the arguments
    that is neither a flag nor a flag value decides: a word naming the completion request answers
    it, and otherwise the command the arguments call runs. The completion command exists only
    when that first word names it, or, in a completion request, when the request's words start
    with it and go on past it. -/
def run (env : Surroundings) (args : List Bytes) (fs : FileSystem) : Outcome :=
  let c : Console := { fs }
  let completionWord := Bytes.ofString "completion"
  match (commandWords Cmd.main.knownFlags args).head? with
  | some w =>
    if requestNames.contains w then
      let words := withoutWord Cmd.main.knownFlags w args
      let withCompletion := 1 < words.length && words.head? == some completionWord
      runCompletion (w == Bytes.ofString "__completeNoDesc") withCompletion words c
    else dispatch (w == completionWord) args c
  | none => dispatch false args c
where
  /-- Runs the command the arguments call; `withCompletion` tells whether the completion
      command exists. -/
  dispatch (withCompletion : Bool) (args : List Bytes) (c : Console) : Outcome :=
    match Cmd.locate withCompletion args with
    | (.main, rest) => runMain env rest c
    | (cmd, rest) => runOther cmd rest c

end Unalias.Command
