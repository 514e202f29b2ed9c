import Unalias.Failure
import Unalias.Glob
import Unalias.Options

/-! # Finding the compiled files

The compiled files of a run are the regular files below the output directory, visited in a
walk that takes each directory's entries in byte order of their names and enters a
subdirectory right where it stands. The output directory may be reached through links; the walk
starts from the directory it leads to, and files are reported under the output directory as
given. A link inside it is neither entered nor taken, whatever it points to.

A subdirectory is not entered when its name equals an excluded-directory pattern or matches it;
a malformed excluded-directory pattern is passed over. A file is taken when its path relative to
the output directory matches an include pattern (every compiled script when none is given) and
no exclude pattern; a malformed include or exclude pattern reached on the way is an error of the
whole run. Patterns are matched by a library taken as a parameter (`GlobMatcher`); the program
passes `Glob.matches?`.
-/

namespace Unalias

/-- How a pattern library matches: whether a pattern matches a name, or the pattern's error. -/
abbrev GlobMatcher := String → String → Except Glob.BadPattern Bool

/-- A compiled file found for processing. -/
structure FoundFile where
  /-- Its path below the output directory as given. -/
  path : Path
  /-- Its path relative to the output directory. -/
  relPath : Bytes
  /-- Its size in bytes. -/
  size : Nat
  deriving DecidableEq, Repr

/-- Which files and directories a walk takes. -/
structure FileRules where
  /-- Patterns of the files to take; empty for every compiled script. -/
  includes : List String := []
  /-- Patterns of the files to leave. -/
  excludes : List String := []
  /-- Patterns of the directories not to enter. -/
  excludedDirs : List String := []
  deriving Repr

namespace FileRules

/-- The rules of a run's options. -/
def ofOptions (o : RunOptions) : FileRules := ⟨o.includes, o.excludes, o.excludedDirs⟩

/-- Whether a directory of this name is left out of the walk. -/
def SkipsDir (glob : GlobMatcher) (r : FileRules) (name : String) : Bool :=
  r.excludedDirs.any fun p =>
    p == name || match glob p name with
      | .ok b => b
      | .error _ => false

/-- Whether the first pattern that matches the path exists, trying them in order; the error of
    the first malformed pattern reached, with the word for the list, on the way. -/
def anyMatches (glob : GlobMatcher) (word : String) (patterns : List String) (relPath : String) :
    Except Failure Bool :=
  patterns.foldlM (fun found p =>
    if found then pure true
    else match glob p relPath with
      | .ok b => pure b
      | .error e => throw (.config [] s!"invalid {word} pattern: {p}" (some (.plain
          (Bytes.ofString e.text))))) false

/-- Whether a file at this relative path is taken. -/
def Takes (glob : GlobMatcher) (r : FileRules) (relPath : String) : Except Failure Bool := do
  let includes := if r.includes.isEmpty then [defaultInclude] else r.includes
  if !(← anyMatches glob "include" includes relPath) then return false
  return !(← anyMatches glob "exclude" r.excludes relPath)

end FileRules

/-- The files taken below directory `dir`, which lies at `rel` below the walk's root; `root` is
    the output directory as given, `fuel` bounds the depth. -/
def walkFiles (glob : GlobMatcher) (fs : FileSystem) (rules : FileRules) (root : Path) :
    Nat → Path → List Bytes → Except Failure (List FoundFile)
  | 0, _, _ => .ok []
  | fuel + 1, dir, rel => do
    let entries ← match fs.listDir dir with
      | .ok es => pure es
      | .error e => throw (Failure.ofFile fs.cwd dir (.system "open" dir e))
    entries.foldlM (fun found (name, p, node) => do
      match node with
      | .directory =>
        if rules.SkipsDir glob (Bytes.decode name) then return found
        else return found ++ (← walkFiles glob fs rules root fuel p (rel ++ [name]))
      | .file f =>
        let relPath := Path.unpieces (rel ++ [name])
        if ← rules.Takes glob (Bytes.decode relPath) then
          return found ++ [⟨Path.join root relPath, relPath, f.content.length⟩]
        else return found
      | .symlink _ => return found) []

/-- The compiled files below the output directory, in walk order. -/
def discoverFiles (glob : GlobMatcher) (fs : FileSystem) (rules : FileRules) (root : Path) :
    Except Failure (List FoundFile) :=
  match fs.stat root with
  | .error e => .error (.config root "output directory not found" (some (.system "stat" root e)))
  | .ok .directory =>
    match fs.resolve root with
    | .error e =>
      .error (.config root "output directory not readable" (some (.system "lstat" root e)))
    | .ok dir => walkFiles glob fs rules root (fs.nodes.length + 1) dir []
  | .ok _ => .error (.config root "output directory is not a directory")

end Unalias
