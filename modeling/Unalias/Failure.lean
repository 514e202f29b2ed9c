import Unalias.Path
import Unalias.FileSystem

/-! # Failures

The tool's own errors fall in five categories, named in their text: a file could not be used,
the configuration is wrong, a project file or a report could not be parsed, a specifier could
not be resolved, or a backup failed. A file error may be more specific: not found, not
readable, not writable. Each tool error may name the path it concerns and may carry the failure
that caused it. Failures from outside the tool are the file system's, plain texts, and the bare
conditions "does not exist" and "permission denied".
-/

namespace Unalias

/-- The kind of a tool error. -/
inductive ErrorKind where
  /-- A file could not be used. -/
  | file
  /-- A file was not found. -/
  | fileNotFound
  /-- A file could not be written. -/
  | fileNotWritable
  /-- A file could not be read. -/
  | fileNotReadable
  /-- The configuration is wrong. -/
  | config
  /-- A project file or a report could not be parsed. -/
  | parsing
  /-- A specifier could not be resolved. -/
  | resolution
  /-- A backup could not be made, restored or removed. -/
  | backup
  deriving DecidableEq, Repr

/-- The category of a tool error, as its text names it. -/
inductive ErrorCategory where
  | file | config | parsing | resolution | backup
  deriving DecidableEq, Repr

/-- The category a kind belongs to. -/
def ErrorKind.category : ErrorKind → ErrorCategory
  | .file | .fileNotFound | .fileNotWritable | .fileNotReadable => .file
  | .config => .config
  | .parsing => .parsing
  | .resolution => .resolution
  | .backup => .backup

/-- The word that names a category in error texts. -/
def ErrorCategory.word : ErrorCategory → String
  | .file => "file"
  | .config => "config"
  | .parsing => "parsing"
  | .resolution => "resolution"
  | .backup => "backup"

/-- Why something failed. -/
inductive Failure where
  /-- A tool error: its kind, the path it concerns (empty for none), its message, and what
      caused it. -/
  | tool (kind : ErrorKind) (path : Bytes) (message : Bytes) (cause : Option Failure)
  /-- A file-system call `op` on `path` failed. -/
  | system (op : String) (path : Path) (e : FsError)
  /-- The bare condition that a file does not exist. -/
  | notExist
  /-- The bare condition that permission is denied. -/
  | permission
  /-- A failure told by its text alone. -/
  | plain (text : Bytes)
  /-- A failure told by a text followed by the failure that caused it. -/
  | wrapped (text : Bytes) (cause : Failure)
  deriving Repr, Inhabited

namespace Failure

/-- A tool error of a kind, with a path, a message and a cause. -/
def make (kind : ErrorKind) (path : Bytes) (message : String) (cause : Option Failure := none) :
    Failure :=
  .tool kind path (Bytes.ofString message) cause

/-- A configuration error. -/
def config (path : Bytes) (message : String) (cause : Option Failure := none) : Failure :=
  make .config path message cause

/-- The report that an aliased specifier found in a file names no existing module. -/
def unresolved (path specifier : Bytes) : Failure :=
  .tool .resolution path (Bytes.ofString "could not replace " ++ specifier) none

/-- The text of a failure. -/
def text : Failure → Bytes
  | .tool kind path message _ =>
    let word := Bytes.ofString kind.category.word
    if path.isEmpty then word ++ Bytes.ofString " error: " ++ message
    else word ++ Bytes.ofString " error for " ++ path ++ Bytes.ofString ": " ++ message
  | .system op path e => Bytes.ofString (op ++ " ") ++ path ++ Bytes.ofString (": " ++ e.text)
  | .notExist => Bytes.ofString "file does not exist"
  | .permission => Bytes.ofString "permission denied"
  | .plain t => t
  | .wrapped t c => t ++ Bytes.ofString ": " ++ c.text

/-- The failure that caused this one. -/
def cause? : Failure → Option Failure
  | .tool _ _ _ c => c
  | .wrapped _ c => some c
  | _ => none

/-- Whether the failure, or one that caused it, says that a file does not exist. -/
def MeansNotExist : Failure → Bool
  | .tool _ _ _ (some c) => c.MeansNotExist
  | .wrapped _ c => c.MeansNotExist
  | .system _ _ .notFound => true
  | .notExist => true
  | _ => false

/-- Whether the failure, or one that caused it, says that permission is denied. -/
def MeansPermission : Failure → Bool
  | .tool _ _ _ (some c) => c.MeansPermission
  | .wrapped _ c => c.MeansPermission
  | .permission => true
  | _ => false

/-- Whether the failure, or one that caused it, is a tool error of the category. -/
def IsCategory (cat : ErrorCategory) : Failure → Bool
  | .tool kind _ _ c =>
    kind.category == cat || match c with
      | some c => c.IsCategory cat
      | none => false
  | .wrapped _ c => c.IsCategory cat
  | _ => false

/-- A failure of a file operation on a path, as a file error on the absolute path: not found,
    not readable when permission was denied, and otherwise a general failure. -/
def ofFile (cwd : Path) (path : Bytes) (cause : Failure) : Failure :=
  let abs := Path.abs cwd path
  if cause.MeansNotExist then make .fileNotFound abs "file not found" (some cause)
  else if cause.MeansPermission then make .fileNotReadable abs "file not readable" (some cause)
  else make .file abs "file operation failed" (some cause)

end Failure

end Unalias
