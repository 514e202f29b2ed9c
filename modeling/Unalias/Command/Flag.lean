import Unalias.Command.Value
import Unalias.Options

/-! # The command's flags

Each flag has a long name, possibly a one-letter shorthand, a kind of value and a line of help.
Setting a flag stores its value into the run options: a text as it is, a switch or a number as
read, a report format when it is one of the three known, and a list of patterns added to those
given before.
-/

namespace Unalias.Command

/-- The name the command is called by. -/
def commandName : String := "tscpaths"

/-- The kind of value a flag takes. -/
inductive FlagKind where
  /-- Any text. -/
  | text
  /-- On or off; the flag alone means on. -/
  | switch
  /-- An integer. -/
  | number
  /-- A comma-separated list of patterns, added to on each use. -/
  | patterns
  /-- A report format. -/
  | format
  deriving DecidableEq, Repr

/-- The flags of the program's commands: the main command's, and the switch that leaves the
    descriptions out of completion scripts. -/
inductive Flag where
  | project | src | out | includes | excludes | excludeDir | workers | cacheSize | dryRun
  | backup | revert | apply | verbose | debug | quiet | log | logFormat | help | noDescriptions
  deriving DecidableEq, Repr

namespace Flag

/-- The main command's flags, in the order they are declared. -/
def all : List Flag :=
  [project, src, out, includes, excludes, excludeDir, workers, cacheSize, dryRun, backup, revert,
    apply, verbose, debug, quiet, log, logFormat, help]

/-- The long name. -/
def name : Flag → String
  | project => "project" | src => "src" | out => "out" | includes => "include"
  | excludes => "exclude" | excludeDir => "exclude-dir" | workers => "workers"
  | cacheSize => "cache-size" | dryRun => "dry-run" | backup => "backup" | revert => "revert"
  | apply => "apply" | verbose => "verbose" | debug => "debug" | quiet => "quiet" | log => "log"
  | logFormat => "log-format" | help => "help" | noDescriptions => "no-descriptions"

/-- The one-letter shorthand, if any. -/
def short : Flag → Option Char
  | project => some 'p' | src => some 's' | out => some 'o' | revert => some 'r'
  | verbose => some 'v' | quiet => some 'q' | help => some 'h'
  | _ => none

/-- The kind of value. -/
def kind : Flag → FlagKind
  | project | src | out | log => .text
  | includes | excludes | excludeDir => .patterns
  | workers | cacheSize => .number
  | logFormat => .format
  | _ => .switch

/-- The line of help. -/
def usage : Flag → String
  | project => "Path to tsconfig.json"
  | src => "Source root directory"
  | out => "Output root directory (default: outDir from tsconfig)"
  | includes => "Include file patterns (glob, repeatable)"
  | excludes => "Exclude file patterns (glob, repeatable)"
  | excludeDir => "Exclude directories (repeatable)"
  | workers => "Number of files processed in parallel (default: CPUs, max 8)"
  | cacheSize => "Entries kept in the file existence cache"
  | dryRun => "Report replacements without writing files"
  | backup => "Keep a .bak copy of every rewritten file"
  | revert => "Revert a run recorded in the --log report"
  | apply => "Apply a run recorded in the --log report again"
  | verbose => "Print every replacement"
  | debug => "Print aliases, positions and untouched files too"
  | quiet => "Print nothing"
  | log => "Report file (default: stdout)"
  | logFormat => "Report format (text, json, csv)"
  | help => "help for " ++ commandName
  | noDescriptions => "disable completion descriptions"

/-- The flag of a long name among `flags`. -/
def ofName? (flags : List Flag) (name : Bytes) : Option Flag :=
  flags.find? fun f => Bytes.ofString f.name == name

/-- The flag of a shorthand letter among `flags`. -/
def ofShort? (flags : List Flag) (c : UInt8) : Option Flag :=
  flags.find? fun f => f.short.map (·.toNat) == some c.toNat

/-- The flag as error texts name it: `-p, --project` with its shorthand, `--name` without. -/
def title (f : Flag) : String :=
  match f.short with
  | some c => "-" ++ c.toString ++ ", --" ++ f.name
  | none => "--" ++ f.name

end Flag

/-- What the command line asks for: the run options, the flags set on it in the order first
    set, the arguments that are not flags, and whether help was asked for. -/
structure Invocation where
  /-- The run options the flags set. -/
  options : RunOptions := {}
  /-- The flags set, each once, in the order first set. -/
  changed : List Flag := []
  /-- The arguments that are not flags, in order. -/
  positional : List Bytes := []
  /-- Whether help was asked for. -/
  help : Bool := false
  /-- Whether a completion script is to leave out descriptions. -/
  noDescriptions : Bool := false
  deriving Repr

namespace Invocation

/-- The options with a switch flag set. -/
def setSwitch (o : RunOptions) (f : Flag) (b : Bool) : RunOptions :=
  match f with
  | .dryRun => { o with dryRun := b }
  | .backup => { o with backup := b }
  | .revert => { o with revert := b }
  | .apply => { o with apply := b }
  | .verbose => { o with verbose := b }
  | .debug => { o with debug := b }
  | .quiet => { o with quiet := b }
  | _ => o

/-- The options with a text flag set. -/
def setText (o : RunOptions) (f : Flag) (v : Bytes) : RunOptions :=
  match f with
  | .project => { o with project := v }
  | .src => { o with sourceRoot := v }
  | .out => { o with outputRoot := v }
  | .log => { o with logFile := v }
  | _ => o

/-- The options with patterns added to a list flag. -/
def addPatterns (o : RunOptions) (f : Flag) (ps : List String) : RunOptions :=
  match f with
  | .includes => { o with includes := o.includes ++ ps }
  | .excludes => { o with excludes := o.excludes ++ ps }
  | .excludeDir => { o with excludedDirs := o.excludedDirs ++ ps }
  | _ => o

/-- The options with a number flag set. -/
def setNumber (o : RunOptions) (f : Flag) (n : Int) : RunOptions :=
  match f with
  | .workers => { o with workers := n }
  | .cacheSize => { o with cacheSize := n }
  | _ => o

/-- The invocation with a flag's value taken in; the reader's reason when the value cannot be
    read. -/
def assign (inv : Invocation) (f : Flag) (v : Bytes) : Except Bytes Invocation :=
  match f.kind with
  | .text => .ok { inv with options := setText inv.options f v }
  | .switch =>
    match readSwitch v with
    | some b =>
      if f == .help then .ok { inv with help := b }
      else if f == .noDescriptions then .ok { inv with noDescriptions := b }
      else .ok { inv with options := setSwitch inv.options f b }
    | none => .error (switchError v)
  | .number =>
    match readInteger v with
    | .ok n => .ok { inv with options := setNumber inv.options f n }
    | .error p => .error (numberError v p)
  | .patterns =>
    match readPatterns v with
    | .ok ps => .ok { inv with options := addPatterns inv.options f (ps.map Bytes.decode) }
    | .error e => .error e
  | .format =>
    if ["text", "json", "csv"].any (Bytes.ofString · == v) then
      .ok { inv with options := { inv.options with logFormat := Bytes.decode v } }
    else .error (Bytes.ofString "must be 'text', 'json' or 'csv'")

/-- The invocation with a flag set to a value and marked as set; the error names the flag and
    the value when the value cannot be read. -/
def set (inv : Invocation) (f : Flag) (v : Bytes) : Except Bytes Invocation :=
  match inv.assign f v with
  | .ok inv => .ok (if inv.changed.contains f then inv else { inv with changed := inv.changed ++ [f] })
  | .error reason =>
    .error (Bytes.ofString "invalid argument " ++ Text.quote v ++ Bytes.ofString " for " ++
      Text.quote (Bytes.ofString f.title) ++ Bytes.ofString " flag: " ++ reason)

end Invocation

end Unalias.Command
