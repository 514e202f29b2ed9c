import Unalias.Alias

/-! # Resolving aliased specifiers

A layout says where a project's sources live, where its compiled files go, and what its aliases
stand for. A compiled file sits at the same place below the output root as its source below the
source root, so a specifier written in the source is resolved from the source's directory.

To resolve a specifier, the first alias entry whose stem starts it is taken, and the rest of the
specifier is joined to each candidate directory in turn. The first module that exists, as it is
or with one of the extensions `.js .jsx .ts .tsx .d.ts .json`, is the target, and the specifier
becomes the relative path from the source's directory to it, starting `./` unless it starts with
a dot. Nothing is checked when no stem matches.
-/

namespace Unalias

/-- Where sources and compiled files live, and the alias table. -/
structure Layout where
  /-- The alias table. -/
  table : AliasTable
  /-- The directory the sources live in. -/
  sourceRoot : Path
  /-- The directory the compiled files live in. -/
  outputRoot : Path
  deriving Repr

/-- What became of one specifier. -/
structure Resolution where
  /-- The specifier as found. -/
  requested : Bytes
  /-- The specifier to write: relative when resolved, else the one requested. -/
  specifier : Bytes
  /-- The stem of the alias entry used, empty when none matched. -/
  stem : Bytes := []
  /-- The module found, without extension; empty when none was. -/
  target : Path := []
  /-- The file that exists for the module, with its extension. -/
  found : Path := []
  /-- Where the source of the referring file lives; set once an entry matched. -/
  sourceFile : Path := []
  deriving DecidableEq, Repr

namespace Resolution

/-- Whether an alias entry with a non-empty stem took the specifier. -/
def Matched (r : Resolution) : Bool := !r.stem.isEmpty

/-- Whether a module was found. -/
def Resolved (r : Resolution) : Bool := !r.target.isEmpty

/-- Whether the specifier is to be replaced. -/
def Changed (r : Resolution) : Bool := r.specifier != r.requested

end Resolution

/-- The extensions tried, in order, after the module itself. -/
def moduleExtensions : List Bytes :=
  [".js", ".jsx", ".ts", ".tsx", ".d.ts", ".json"].map Bytes.ofString

/-- The specifier that reaches `target` from directory `fromDir`: the relative path, or the
    target itself when there is none, with `./` put in front unless it starts with a dot. -/
def relativeSpecifier (fromDir target : Path) : Bytes :=
  let rel := (Path.rel? fromDir target).getD target
  if rel.head? = some Path.dot then rel else Bytes.ofString "./" ++ rel

namespace Layout

/-- A layout with both roots cleaned. -/
def ofRoots (table : AliasTable) (sourceRoot outputRoot : Path) : Layout :=
  ⟨table, Path.clean sourceRoot, Path.clean outputRoot⟩

/-- The source file of a compiled file: the same place below the source root as the compiled
    file below the output root, or the compiled file itself when no relative path leads there. -/
def sourceOf (l : Layout) (outputFile : Path) : Path :=
  match Path.rel? l.outputRoot outputFile with
  | some rel => Path.join l.sourceRoot rel
  | none => outputFile

variable {m : Type → Type} [Monad m]

/-- The first of the module and its extended names that exists. -/
def lookup (exists? : Path → m Bool) (module : Path) : m (Option Path) := do
  if ← exists? module then return some module
  for ext in moduleExtensions do
    if ← exists? (module ++ ext) then return some (module ++ ext)
  return none

/-- The first candidate directory under which the tail names an existing module: the module
    and the file found. -/
def firstModule (exists? : Path → m Bool) (tail : Bytes) :
    List Path → m (Option (Path × Path))
  | [] => pure none
  | dir :: dirs => do
    let module := Path.join dir tail
    match ← lookup exists? module with
    | some found => pure (some (module, found))
    | none => firstModule exists? tail dirs

/-- Resolves a specifier written in a compiled file. -/
def resolve (l : Layout) (exists? : Path → m Bool) (specifier : Bytes) (outputFile : Path) :
    m Resolution := do
  match l.table.match? specifier with
  | none => pure ⟨specifier, specifier, [], [], [], []⟩
  | some e =>
    let source := l.sourceOf outputFile
    match ← firstModule exists? (specifier.drop e.stem.length) e.candidates with
    | some (module, found) =>
      pure ⟨specifier, relativeSpecifier (Path.dir source) module, e.stem, module, found, source⟩
    | none => pure ⟨specifier, specifier, e.stem, [], [], source⟩

end Layout

end Unalias
