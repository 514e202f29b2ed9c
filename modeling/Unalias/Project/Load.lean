import Unalias.Failure
import Unalias.Json.Comments
import Unalias.Project.Document

/-! # Loading a project file

A project file may build on others through `extends`. Loading reads the parents first, in the
order listed, and lays each one's settings over what came before; the file's own options are
laid last. A setting is laid over only when it is declared: a non-empty `baseUrl` or `outDir`,
a `paths` that is not `null`. The files read are listed parents first, so a parent shared by two
branches is listed twice.

A reference is looked for as written (with `.json` added unless it ends so) against the
directory of the file that makes it, or as an absolute path. A bare name, one that does not
start with `.` or `..`, is also looked for under `node_modules` in that directory and in each
directory above it, as `name`, `name.json` and `name/tsconfig.json`. The first regular file
found wins. A file met again on the way down from the first one is a cycle. The walk always
ends: it descends only from a file it could read, whose path is shorter than `pathMax`, and a
chain holds each such path once.

A file read starts without its byte order mark, and its comments and trailing commas are
blanked before it is read as JSON.
-/

namespace Unalias

/-- A project file's settings, merged with everything it builds on. -/
structure ProjectConfig where
  /-- The project file. -/
  path : Path
  /-- The base directory of aliases, as written. -/
  baseUrl : String := ""
  /-- The output directory, as written. -/
  outDir : String := ""
  /-- The aliases, none when never declared. -/
  paths : Option (List PathMapping) := none
  /-- The files read, parents before children. -/
  files : List Path := []
  deriving DecidableEq, Repr

namespace ProjectConfig

/-- The settings with every declared value laid over them. -/
def overlay (c : ProjectConfig) (baseUrl outDir : String) (paths : Option (List PathMapping)) :
    ProjectConfig :=
  { c with
    baseUrl := if baseUrl.isEmpty then c.baseUrl else baseUrl
    outDir := if outDir.isEmpty then c.outDir else outDir
    paths := match paths with
      | some ps => some ps
      | none => c.paths }

end ProjectConfig

/-- The byte order mark of UTF-8. -/
def byteOrderMark : Bytes := [0xEF, 0xBB, 0xBF]

/-- The declarations of the project file at a path. -/
def readProjectDocument (fs : FileSystem) (path : Path) : Except Failure ProjectDocument :=
  match fs.readFile path with
  | .error e =>
    let cause := Failure.system "open" path e
    if e = .notFound then .error (.config path "project file not found" (some cause))
    else .error (.config path "project file not readable" (some (Failure.ofFile fs.cwd path cause)))
  | .ok content =>
    let content := if byteOrderMark.isPrefixOf content then content.drop 3 else content
    match Json.parse (Json.withoutComments content) >>= ProjectDocument.ofJson with
    | .ok doc => .ok doc
    | .error msg =>
      .error (.config path "project file is not valid JSON"
        (some (.make .parsing path msg (some (.plain (Bytes.ofString msg))))))

/-- Whether a reference is written relative to the directory, as `.`, `..`, `./…` or `../…`. -/
def IsRelativeReference (ref : Bytes) : Bool :=
  ref == [Path.dot] || ref == Path.parent || (Bytes.ofString "./").isPrefixOf ref ||
    (Bytes.ofString "../").isPrefixOf ref

/-- A path, and the path with `.json` added unless it ends so. -/
def withJsonSuffix (p : Path) : List Path :=
  let json := Bytes.ofString ".json"
  if json.isSuffixOf p then [p] else [p, p ++ json]

/-- The places a bare name is looked for under `node_modules`, from a directory up to the root. -/
def packageCandidates (dir ref : Bytes) : List Path :=
  (dir :: FileSystem.ancestors dir).flatMap fun d =>
    let base := Path.joinAll [d, Bytes.ofString "node_modules", ref]
    withJsonSuffix base ++ [Path.join base (Bytes.ofString "tsconfig.json")]

/-- The places a reference made from a directory is looked for, in order. -/
def referenceCandidates (dir ref : Bytes) : List Path :=
  if Path.IsAbs ref then withJsonSuffix ref
  else withJsonSuffix (Path.join dir ref) ++
    (if IsRelativeReference ref then [] else packageCandidates dir ref)

/-- Whether a path names a regular file. -/
def FileSystem.IsRegular (fs : FileSystem) (p : Path) : Bool :=
  match fs.stat p with
  | .ok (.file _) => true
  | _ => false

/-- The project file a reference made from a directory points to. -/
def resolveReference (fs : FileSystem) (dir ref : Bytes) : Except Failure Path :=
  if ref.isEmpty then .error (.config dir "empty extends reference")
  else
    match (referenceCandidates dir ref).find? fs.IsRegular with
    | some p => .ok p
    | none => .error (.config (Path.join dir ref) "extended config not found")

/-- The text of a chain of files, joined by arrows. -/
def chainText (chain : List Path) : Bytes := List.intercalate (Bytes.ofString " -> ") chain

/-- The failure of an extends chain that comes back to a file already on it; the chain ends with
    that file, which the failure names. -/
def Failure.circularExtends (chain : List Path) : Failure :=
  .tool .config (chain.getLastD []) (Bytes.ofString "circular extends: " ++ chainText chain) none

/-- A project file that can be read has a path shorter than `pathMax`. -/
theorem readProjectDocument_length {fs : FileSystem} {p : Path} {doc : ProjectDocument}
    (h : readProjectDocument fs p = .ok doc) : p.length < pathMax := by
  unfold readProjectDocument at h
  cases hr : fs.readFile p with
  | error e =>
    rw [hr] at h
    by_cases he : e = .notFound <;> simp [he] at h
  | ok c => exact FileSystem.readFile_length hr

/-- The paths shorter than `pathMax` that are not yet on a chain: the room the chain has left to
    grow, since every file read on it has such a path. -/
def chainRoom (chain : List Path) : Nat :=
  ((Bytes.allShorter pathMax).filter (· ∉ chain)).length

theorem chainRoom_append {chain : List Path} {path : Path} (hshort : path.length < pathMax)
    (hnew : path ∉ chain) : chainRoom (chain ++ [path]) < chainRoom chain := by
  unfold chainRoom
  have hmem : path ∈ (Bytes.allShorter pathMax).filter (· ∉ chain) :=
    List.mem_filter.2 ⟨Bytes.mem_allShorter hshort, by simpa using hnew⟩
  have hsplit : (Bytes.allShorter pathMax).filter (· ∉ chain ++ [path]) =
      ((Bytes.allShorter pathMax).filter (· ∉ chain)).filter (· ≠ path) := by
    rw [List.filter_filter]
    apply List.filter_congr
    intro x _
    simp [and_comm]
  rw [hsplit]
  exact List.length_filter_lt_length_iff_exists.2 ⟨path, hmem, by simp⟩

/-- Loads the project file at a path, below the files in `chain`. The walk descends only from a
    file it could read, which is not yet on the chain, so the chain's room shrinks with each
    step down. -/
def loadProject (fs : FileSystem) (chain : List Path) (path : Path) :
    Except Failure ProjectConfig :=
  if hc : chain.contains path then .error (Failure.circularExtends (chain ++ [path]))
  else
    match hdoc : readProjectDocument fs path with
    | .error e => .error e
    | .ok doc => do
      let dir := Path.dir path
      let cfg ← doc.parents.foldlM (fun (cfg : ProjectConfig) ref => do
        let parentPath ← resolveReference fs dir (Bytes.ofString ref)
        let parent ← loadProject fs (chain ++ [path]) parentPath
        pure { cfg.overlay parent.baseUrl parent.outDir parent.paths with
          files := cfg.files ++ parent.files }) { path }
      let cfg := match doc.options with
        | some co => cfg.overlay co.baseUrl co.outDir co.paths
        | none => cfg
      pure { cfg with files := cfg.files ++ [path] }
termination_by chainRoom chain
decreasing_by exact chainRoom_append (readProjectDocument_length hdoc) (by simpa using hc)

/-- Loads the project file at a path, relative to the working directory. -/
def ProjectConfig.load (fs : FileSystem) (path : Bytes) : Except Failure ProjectConfig :=
  loadProject fs [] (Path.abs fs.cwd path)

end Unalias
