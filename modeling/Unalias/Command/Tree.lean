import Unalias.Command.Flag

/-! # The program's commands

Besides the main command, the program has a `completion` command that writes shell completion
scripts, with one subcommand per shell. The `completion` command exists only when the arguments
call it (or when a completion request completes its arguments), so that the main command keeps
refusing plain arguments.

Which command the arguments call is decided before any flag is read: the words of the arguments
that are neither flags nor flag values are looked up one level at a time. A flag that the
command does not know yet is taken to want a value, and a flag wanting a value that stands
second to last or last ends the search. The word found is then removed from the arguments, and
what is left goes to the command found.
-/

namespace Unalias.Command

/-- The shells a completion script can be written for. -/
inductive Shell where
  | bash | zsh | fish | powershell
  deriving DecidableEq, Repr

namespace Shell

/-- Every shell, in the order their commands are listed. -/
def all : List Shell := [bash, fish, powershell, zsh]

/-- The shell's name, which is also its command's name. -/
def name : Shell → String
  | bash => "bash" | zsh => "zsh" | fish => "fish" | powershell => "powershell"

/-- The shell of a name. -/
def ofName? (word : Bytes) : Option Shell := all.find? fun s => Bytes.ofString s.name == word

end Shell

/-- A command of the program. -/
inductive Cmd where
  /-- The main command, which processes compiled files or replays a report. -/
  | main
  /-- The command that groups the completion scripts. -/
  | completion
  /-- The command that writes the completion script of a shell. -/
  | script (s : Shell)
  deriving DecidableEq, Repr

namespace Cmd

/-- The command's own name. -/
def name : Cmd → String
  | main => commandName
  | completion => "completion"
  | script s => s.name

/-- The command's name with the names of the commands above it. -/
def path : Cmd → String
  | main => commandName
  | completion => commandName ++ " completion"
  | script s => commandName ++ " completion " ++ s.name

/-- The one-line description of a subcommand. -/
def short : Cmd → String
  | main => ""
  | completion => "Generate the autocompletion script for the specified shell"
  | script s => "Generate the autocompletion script for " ++ s.name

/-- The subcommands, in the order they are listed; `completion` only when it exists. -/
def children (withCompletion : Bool) : Cmd → List Cmd
  | main => if withCompletion then [completion] else []
  | completion => Shell.all.map script
  | script _ => []

/-- The flags the command knows once it runs, the help flag included. -/
def flags : Cmd → List Flag
  | main => Flag.all
  | completion => [.help]
  | script _ => [.help, .noDescriptions]

/-- The line of help of a flag of the command: the help flag names the command. -/
def usageOf (c : Cmd) (f : Flag) : String :=
  if f == .help then "help for " ++ c.name else f.usage

/-- The flags the command knows while the arguments are searched for a command: all but the
    help flag, which is added only when the command runs. -/
def knownFlags (c : Cmd) : List Flag := c.flags.filter (· != .help)

end Cmd

/-- Whether an argument is a flag that takes the next argument as its value, judged with the
    flags known: `--name` or `-x` without `=`, where the flag is unknown or not a switch. -/
def TakesNext (known : List Flag) (arg : Bytes) : Bool :=
  if arg.contains 61 then false
  else match arg with
    | 45 :: 45 :: name =>
      match Flag.ofName? known name with
      | some f => f.kind != .switch
      | none => true
    | [45, c] =>
      match Flag.ofShort? known c with
      | some f => f.kind != .switch
      | none => true
    | _ => false

/-- The words of the arguments that can name a subcommand, in order: arguments that are not
    empty, not flags and not flag values, up to `--`. -/
def commandWords (known : List Flag) : List Bytes → List Bytes
  | [] => []
  | s :: rest =>
    if s == [45, 45] then []
    else if TakesNext known s then
      match rest with
      | _ :: more@(_ :: _) => commandWords known more
      | _ => []
    else if !s.isEmpty && s.head? != some 45 then s :: commandWords known rest
    else commandWords known rest
termination_by args => args.length
decreasing_by
  · rename_i h
    subst h
    exact Nat.lt_of_lt_of_le (Nat.lt_succ_self _) (Nat.le_succ _)
  · exact Nat.lt_succ_self _
  · exact Nat.lt_succ_self _

/-- The arguments without the first argument equal to `word` that is neither a flag nor a flag
    value, searching up to `--`. -/
def withoutWord (known : List Flag) (word : Bytes) : List Bytes → List Bytes
  | [] => []
  | s :: rest =>
    if s == [45, 45] then s :: rest
    else if TakesNext known s then
      match rest with
      | v :: more => s :: v :: withoutWord known word more
      | [] => [s]
    else if s.head? != some 45 && s == word then rest
    else s :: withoutWord known word rest

/-- The subcommand of `c` that the arguments name, with the arguments it is given; `c` itself
    with all the arguments when they name none. -/
def Cmd.step (withCompletion : Bool) (c : Cmd) (args : List Bytes) : Option (Cmd × List Bytes) :=
  match (commandWords c.knownFlags args).head? with
  | none => none
  | some word =>
    match (c.children withCompletion).find? fun d => Bytes.ofString d.name == word with
    | some d => some (d, withoutWord c.knownFlags word args)
    | none => none

/-- The command the arguments call, with the arguments it is given, searching from the main
    command down; the tree is two levels deep. -/
def Cmd.locate (withCompletion : Bool) (args : List Bytes) : Cmd × List Bytes :=
  match Cmd.main.step withCompletion args with
  | none => (.main, args)
  | some (c, rest) =>
    match c.step withCompletion rest with
    | none => (c, rest)
    | some found => found

end Unalias.Command
