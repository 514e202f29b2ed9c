import Unalias.Project.Load

/-! # The settings of a run

A run needs `baseUrl`, `paths` and `outDir`, checked in that order. The base and output
directories are taken against the directory of the project file, unless absolute; so are a
source root and an output directory given in their place. The source root is the base directory
unless given.
-/

namespace Unalias

/-- The settings of a run, every directory absolute. -/
structure ProjectSettings where
  /-- The project file. -/
  configPath : Path
  /-- `baseUrl` as written. -/
  baseUrl : String
  /-- `outDir` as written. -/
  outDir : String
  /-- The directory aliases are relative to. -/
  baseDirectory : Path
  /-- The directory of the sources. -/
  sourceRoot : Path
  /-- The directory of the compiled files. -/
  outputDirectory : Path
  /-- The declared aliases. -/
  paths : List PathMapping
  deriving Repr

/-- A path taken against a directory unless absolute, and cleaned. -/
def absJoin (dir p : Path) : Path :=
  if Path.IsAbs p then Path.clean p else Path.join dir p

/-- The settings of a run from a project's merged settings, with a source root and an output
    directory given in place of the declared ones when not empty. -/
def ProjectConfig.settle (c : ProjectConfig) (sourceRoot outputRoot : Bytes) :
    Except Failure ProjectSettings :=
  if c.baseUrl.isEmpty then .error (.config c.path "compilerOptions.baseUrl is not set")
  else match c.paths with
    | none => .error (.config c.path "compilerOptions.paths is not set")
    | some paths =>
      if c.outDir.isEmpty then .error (.config c.path "compilerOptions.outDir is not set")
      else
        let dir := Path.dir c.path
        let base := absJoin dir (Bytes.ofString c.baseUrl)
        .ok { configPath := c.path, baseUrl := c.baseUrl, outDir := c.outDir,
              baseDirectory := base
              sourceRoot := if sourceRoot.isEmpty then base else absJoin dir sourceRoot
              outputDirectory :=
                absJoin dir (if outputRoot.isEmpty then Bytes.ofString c.outDir else outputRoot)
              paths }

/-- The alias table of a run. -/
def ProjectSettings.table (s : ProjectSettings) : AliasTable :=
  AliasTable.build s.paths s.baseDirectory

end Unalias
