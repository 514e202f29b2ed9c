import Unalias.Command.Tree

/-! # The commands' help

A command's help text is its description, its usage line, its examples, the table of its
subcommands, and the table of its flags sorted by name. In the flag table each flag's names and
kind of value stand in a column as wide as the widest entry, and its line of help follows after
three blanks past that width. Subcommand names stand in a column at least eleven wide.
-/

namespace Unalias.Command

/-- What the command does. -/
def description : String :=
  commandName ++ " reads the paths mapping of a tsconfig.json (following extends)
and rewrites every aliased module specifier in the compiled output directory
into a relative path, so the output runs without a path-mapping loader.

A specifier is only rewritten when one of its alias candidates exists under
the source tree. Relative paths are computed from the location of the
corresponding source file."

/-- How the command is called. -/
def usageLine : String := commandName ++ " -p <tsconfig> -s <src> [-o <out>] [flags]"

/-- Examples of calls. -/
def examples : List String :=
  ["-p tsconfig.json -s ./src -o ./dist", "-p tsconfig.json -s ./src --dry-run -v",
    "-p tsconfig.json -s ./src --log run.json --log-format json", "--revert --log run.json"]

/-- The word that names a flag's kind of value in the table; switches show none. -/
def FlagKind.word : FlagKind → String
  | .text | .format => "string"
  | .patterns => "strings"
  | .number => "int"
  | .switch => ""

/-- A flag's names and kind of value, as the table's first column shows them. -/
def Flag.head (f : Flag) : String :=
  let names := match f.short with
    | some c => "  -" ++ c.toString ++ ", --" ++ f.name
    | none => "      --" ++ f.name
  if f.kind.word.isEmpty then names else names ++ " " ++ f.kind.word

/-- Blanks to pad a text of length `n` to `width`. -/
def padding (width n : Nat) : String := String.ofList (List.replicate (width - n) ' ')

/-- The table of a command's flags, a line each, sorted by name. -/
def Cmd.flagTable (c : Cmd) : List String :=
  let flags := c.flags.mergeSort fun a b => a.name ≤ b.name
  let width := flags.foldl (fun w f => max w f.head.length) 0
  flags.map fun f => f.head ++ padding (width + 3) f.head.length ++ c.usageOf f

/-- The help text of the main command. -/
def helpText : String :=
  description ++ "\n\nUsage:\n  " ++ usageLine ++ "\n\nExamples:\n" ++
    "\n".intercalate (examples.map fun e => "  " ++ commandName ++ " " ++ e) ++
    "\n\nFlags:\n" ++ "\n".intercalate Cmd.main.flagTable ++ "\n"

/-- What the completion command does. -/
def completionDescription : String :=
  "Generate the autocompletion script for " ++ commandName ++ " for the specified shell.
See each sub-command's help for details on how to use the generated script."

/-- How to load a shell's completion script, a list item per line. -/
def Shell.description (s : Shell) : String :=
  let n := commandName
  "\n".intercalate <| match s with
  | .bash => [
      "Generate the autocompletion script for the bash shell.",
      "",
      "This script depends on the 'bash-completion' package.",
      "If it is not installed already, you can install it via your OS's package manager.",
      "",
      "To load completions in your current shell session:",
      "",
      "\tsource <(" ++ n ++ " completion bash)",
      "",
      "To load completions for every new session, execute once:",
      "",
      "#### Linux:",
      "",
      "\t" ++ n ++ " completion bash > /etc/bash_completion.d/" ++ n,
      "",
      "#### macOS:",
      "",
      "\t" ++ n ++ " completion bash > $(brew --prefix)/etc/bash_completion.d/" ++ n,
      "",
      "You will need to start a new shell for this setup to take effect."]
  | .zsh => [
      "Generate the autocompletion script for the zsh shell.",
      "",
      "If shell completion is not already enabled in your environment you will need",
      "to enable it.  You can execute the following once:",
      "",
      "\techo \"autoload -U compinit; compinit\" >> ~/.zshrc",
      "",
      "To load completions in your current shell session:",
      "",
      "\tsource <(" ++ n ++ " completion zsh)",
      "",
      "To load completions for every new session, execute once:",
      "",
      "#### Linux:",
      "",
      "\t" ++ n ++ " completion zsh > \"$\x7bfpath[1]\x7d/_" ++ n ++ "\"",
      "",
      "#### macOS:",
      "",
      "\t" ++ n ++ " completion zsh > $(brew --prefix)/share/zsh/site-functions/_" ++ n,
      "",
      "You will need to start a new shell for this setup to take effect."]
  | .fish => [
      "Generate the autocompletion script for the fish shell.",
      "",
      "To load completions in your current shell session:",
      "",
      "\t" ++ n ++ " completion fish | source",
      "",
      "To load completions for every new session, execute once:",
      "",
      "\t" ++ n ++ " completion fish > ~/.config/fish/completions/" ++ n ++ ".fish",
      "",
      "You will need to start a new shell for this setup to take effect."]
  | .powershell => [
      "Generate the autocompletion script for powershell.",
      "",
      "To load completions in your current shell session:",
      "",
      "\t" ++ n ++ " completion powershell | Out-String | Invoke-Expression",
      "",
      "To load completions for every new session, add the output of the above command",
      "to your powershell profile."]

/-- The help text of the completion command. -/
def completionHelp : String :=
  let rows := Shell.all.map fun s =>
    "  " ++ s.name ++ padding 11 s.name.length ++ " " ++ (Cmd.script s).short
  completionDescription ++ "\n\nUsage:\n  " ++ Cmd.completion.path ++ " [command]" ++
    "\n\nAvailable Commands:\n" ++ "\n".intercalate rows ++
    "\n\nFlags:\n" ++ "\n".intercalate Cmd.completion.flagTable ++
    "\n\nUse \"" ++ Cmd.completion.path ++ " [command] --help\" for more information about a command.\n"

/-- The help text of a shell's script command; only the bash command's usage line leaves out
    its flags. -/
def Shell.help (s : Shell) : String :=
  let use := (Cmd.script s).path ++ (if s == .bash then "" else " [flags]")
  s.description ++ "\n\nUsage:\n  " ++ use ++ "\n\nFlags:\n" ++
    "\n".intercalate (Cmd.script s).flagTable ++ "\n"

end Unalias.Command
