import Unalias.Command.Parse
import Unalias.Command.Tree
import Unalias.Text.Space

/-! # Answering completion requests

A shell completion script asks the program for the candidates that can stand in place of the
last word of a command line, by calling the hidden command `__complete` (or `__completeNoDesc`,
which leaves out the descriptions) with the words typed so far. The answer is a line per
candidate, then a line `:N` with the directive `N`, a set of bits telling the shell what to do
besides: 4 means that file names are not to be offered. The directive's name goes to the
standard error.

The words before the last one select the command, as on a real call. Then:

* when the help flag was set among them, even to false, no candidates are offered;
* when the last word starts a flag's value (`--log ` or `--log=`), no candidates are known;
* when it starts with `-`, the candidates are the flags of the command not yet set, each with
  its line of help, except the flags that a flag already set excludes; a list flag is offered
  again;
* otherwise, when no plain argument and no flag stands before it, the candidates are the
  subcommands whose names start with it.

The completion commands and the shell commands never take file names, so their answers carry
the directive 4, as does every answer that lists flags or subcommands.
-/

namespace Unalias.Command

/-- The directive with no bits: the shell may go on as it would. -/
def directiveDefault : Nat := 0

/-- The directive bit telling the shell that the request failed. -/
def directiveError : Nat := 1

/-- The directive bit that keeps the shell from adding a blank after the candidate. -/
def directiveNoSpace : Nat := 2

/-- The directive bit that keeps the shell from offering file names. -/
def directiveNoFiles : Nat := 4

/-- The directive bit telling the shell that the candidates are file extensions to offer. -/
def directiveFilterExt : Nat := 8

/-- The directive bit telling the shell to offer directories only. -/
def directiveFilterDirs : Nat := 16

/-- The directive bit that keeps the shell from sorting the candidates. -/
def directiveKeepOrder : Nat := 32

/-- The names of the directive bits, lowest first. -/
def directiveNames : List String :=
  ["ShellCompDirectiveError", "ShellCompDirectiveNoSpace", "ShellCompDirectiveNoFileComp",
    "ShellCompDirectiveFilterFileExt", "ShellCompDirectiveFilterDirs",
    "ShellCompDirectiveKeepOrder"]

/-- The names of the bits a directive holds, comma-separated; `ShellCompDirectiveDefault` when
    it holds none. -/
def directiveText (d : Nat) : String :=
  if 64 ≤ d then s!"ERROR: unexpected ShellCompDirective value: {d}"
  else
    let set := (directiveNames.zipIdx.filter fun (_, i) => d / Nat.pow 2 i % 2 == 1).map (·.1)
    if set.isEmpty then "ShellCompDirectiveDefault" else ", ".intercalate set

/-- Whether an argument has the form of a flag: `--` and a name, or `-` and a letter. -/
def IsFlagArg (arg : Bytes) : Bool :=
  match arg with
  | 45 :: 45 :: _ :: _ => true
  | 45 :: c :: _ => c != 45
  | _ => false

/-- The flag of a command that a name given in a completion request stands for: a single byte
    is a shorthand, anything longer a long name. -/
def Cmd.flagNamed? (c : Cmd) (name : Bytes) : Option Flag :=
  match name with
  | [b] => Flag.ofShort? c.flags b
  | _ => Flag.ofName? c.flags name

/-- What the last word of a completion request says about flags. -/
structure ValueTarget where
  /-- The flag whose value is being completed, if any. -/
  flag : Option Flag
  /-- The command's arguments, without that flag when it stood alone before the word. -/
  args : List Bytes
  /-- The text to complete: the word, or what follows `=` in it. -/
  word : Bytes
  /-- The flag name the command does not know, when one was given. -/
  unknown : Option Bytes

/-- The flag named before `=` in a word: the long name after `--`, or the shorthand just before
    the `=`. -/
def nameBeforeEquals (word : Bytes) (i : Nat) : Bytes :=
  let head := word.take i
  match head with
  | 45 :: 45 :: name => name
  | _ => head.drop (i - 1)

/-- The flag named by an argument standing alone: the long name after `--`, or the last byte
    of a group of shorthands. -/
def nameOfFlagArg (arg : Bytes) : Bytes :=
  match arg with
  | 45 :: 45 :: name => name
  | _ => arg.drop (arg.length - 1)

/-- Which flag's value the word completes, if any: a word `--name=` or `-x=` completes the
    value of that flag; a word that follows `--name` or `-x` alone completes its value unless
    the flag is a switch; any other word starting with `-` is a flag name in the making. -/
def Cmd.valueTarget (c : Cmd) (args : List Bytes) (word : Bytes) : ValueTarget :=
  let equals := if word.head? == some 45 then word.idxOf? 61 else none
  if word.head? == some 45 && equals.isNone then ⟨none, args, word, none⟩
  else
    let (named, rest, withEquals) : Bytes × Bytes × Bool :=
      match equals with
      | some i => (nameBeforeEquals word i, word.drop (i + 1), true)
      | none => ([], word, false)
    let (name, trimmed) : Bytes × List Bytes :=
      if !named.isEmpty then (named, args)
      else match args.getLast? with
        | some prev =>
          if IsFlagArg prev && !prev.contains 61 then (nameOfFlagArg prev, args.dropLast)
          else ([], args)
        | none => ([], args)
    if name.isEmpty then ⟨none, trimmed, rest, none⟩
    else match c.flagNamed? name with
      | none => ⟨none, args, word, some name⟩
      | some f =>
        if !withEquals && f.kind == .switch then ⟨none, args, rest, none⟩
        else ⟨some f, trimmed, rest, none⟩

/-- The flags hidden from completion because a flag set excludes them: the other flags of each
    exclusive group that has a flag set. -/
def hiddenBy (changed : List Flag) : List Flag :=
  Invocation.exclusiveGroups.foldl (fun hidden g =>
    hidden ++ g.filter fun f => g.any fun set => changed.contains set && set != f) []

/-- The candidates a flag offers for a word starting with `-`: its long form and its shorthand,
    each when it starts with the word, with the flag's line of help. -/
def Cmd.flagCandidates (c : Cmd) (word : Bytes) (f : Flag) : List Bytes :=
  let help := Bytes.ofString ("\t" ++ c.usageOf f)
  let long := Bytes.ofString ("--" ++ f.name)
  let short := match f.short with
    | some s => [Bytes.ofString ("-" ++ s.toString)]
    | none => []
  ((long :: short).filter word.isPrefixOf).map (· ++ help)

/-- The outcome of a completion request. -/
structure Completion where
  /-- The candidates, each with its description after a tab. -/
  candidates : List Bytes := []
  /-- The directive. -/
  directive : Nat := directiveDefault
  /-- What went wrong on the way, if anything. -/
  error : Option Bytes := none

/-- The arguments as a list in brackets, separated by blanks. -/
def showArgs (args : List Bytes) : Bytes :=
  [91] ++ List.intercalate [32] args ++ [93]

/-- The candidates for the last of the words, the words before it selecting the command;
    `withCompletion` tells whether the `completion` command exists. -/
def complete (withCompletion : Bool) (before : List Bytes) (last : Bytes) : Completion :=
  let (c, args) := Cmd.locate withCompletion before
  let t := c.valueTarget args last
  let withDash := (Invocation.ofArgsWith c.flags (t.args ++ [[45, 45]])).toOption
  match Invocation.ofArgsWith c.flags t.args with
  | .error e =>
    { error := some (Bytes.ofString "Error while parsing flags from args " ++ showArgs t.args ++
        Bytes.ofString ": " ++ e) }
  | .ok inv =>
    let flagCompletion :=
      (withDash.map (·.positional.length)).getD 0 ≤ inv.positional.length
    match t.unknown with
    | some name =>
      if flagCompletion then
        { error := some (Bytes.ofString ("Subcommand '" ++ c.name ++ "' does not support flag '") ++
            name ++ Bytes.ofString "'") }
      else completeWord c withCompletion t inv flagCompletion
    | none => completeWord c withCompletion t inv flagCompletion
where
  /-- The candidates once the flags before the word are read. A help flag that was set, even
      to false, ends the completion with no candidates. -/
  completeWord (c : Cmd) (withCompletion : Bool) (t : ValueTarget) (inv : Invocation)
      (flagCompletion : Bool) : Completion :=
    if inv.changed.contains .help then { directive := directiveNoFiles }
    else if t.flag.isNone && t.word.head? == some 45 && !t.word.contains 61 && flagCompletion then
      let hidden := if c == .main then hiddenBy inv.changed else []
      let offered := (c.flags.mergeSort fun a b => a.name ≤ b.name).filter fun f =>
        !hidden.contains f && (!inv.changed.contains f || f.kind == .patterns)
      { candidates := offered.flatMap (c.flagCandidates t.word), directive := directiveNoFiles }
    else
      let subs := c.children withCompletion
      let listed := t.flag.isNone && inv.positional.isEmpty && inv.changed.isEmpty
      let candidates := if listed then
          (subs.filter fun d => t.word.isPrefixOf (Bytes.ofString d.name)).map fun d =>
            Bytes.ofString (d.name ++ "\t" ++ d.short)
        else []
      let directive := if listed && !subs.isEmpty then directiveNoFiles else directiveDefault
      let byCommand := !(t.flag.isSome && flagCompletion) && c != .main
      { candidates, directive := if byCommand then directiveNoFiles else directive }

/-- A candidate as it is printed: without its description when descriptions are left out, cut at
    the first line end, and trimmed. -/
def candidateLine (noDescriptions : Bool) (candidate : Bytes) : Bytes :=
  let shown := if noDescriptions then candidate.takeWhile (· != 9) else candidate
  Bytes.trimSpace (shown.takeWhile (· != 10))

/-- The standard output and standard error of a completion request. -/
def Completion.render (r : Completion) (noDescriptions : Bool) : Bytes × Bytes :=
  let out := r.candidates.flatMap (fun cand => candidateLine noDescriptions cand ++ [10]) ++
    Bytes.ofString s!":{r.directive}\n"
  let err := (match r.error with
    | some e => Bytes.ofString "[Debug] [Error] " ++ e ++ [10]
    | none => []) ++ Bytes.ofString ("Completion ended with directive: " ++
      directiveText r.directive ++ "\n")
  (out, err)

end Unalias.Command
