import Unalias.FileSystem.Action

/-! # Backups

Before a file is changed, a copy of it can be kept beside it under its name followed by a stamp
and `.bak`. A backup can later be copied back over the file, or discarded.

A copy first opens the target for writing, creating it with the source's permissions less the
umask, or truncating it and keeping its permissions when it exists, and only then reads the
source: a source that is a directory fails at the read and leaves the target empty. A backup that
cannot be made leaves no partial copy behind.
-/

namespace Unalias

namespace Backup

/-- The name of the backup of `file` made at `stamp`: `NAME.STAMP.bak`. -/
def nameFor (file : Path) (stamp : Bytes) : Bytes :=
  Path.base file ++ [Path.dot] ++ stamp ++ Bytes.ofString ".bak"

/-- The path of the backup of `file` made at `stamp`, beside the file. -/
def pathFor (file : Path) (stamp : Bytes) : Path :=
  Path.join (Path.dir file) (nameFor file stamp)

variable {m : Type → Type} [Monad m] (sys : Syscalls m)

/-- The bytes of `src` copied into `dst`. -/
def copy (src dst : Path) : ExceptT Failure m Unit := do
  let node ← match ← sys.lift.call (Call.stat src) with
    | .ok n => pure n
    | .error e => throw (Failure.system "stat" src e)
  if let .error e ← sys.lift.call (Call.writeFile dst [] (FileSystem.permissions node)) then
    throw (Failure.system "open" dst e)
  let content ← match ← sys.lift.call (Call.readFile src) with
    | .ok c => pure c
    | .error e => throw (Failure.system "read" src e)
  if let .error e ← sys.lift.call (Call.writeFile dst content (FileSystem.permissions node)) then
    throw (Failure.system "write" dst e)

/-- A backup of `file` made at `stamp`, giving its path; nothing is made, and the path is empty,
    when backups are not `enabled`. -/
def create (enabled : Bool) (stamp : Bytes) (file : Path) : ExceptT Failure m Path := do
  if !enabled then return []
  let dst := pathFor file stamp
  tryCatch (do copy sys file dst; pure dst) fun e => do
    let _ ← sys.lift.call (Call.remove dst)
    throw (Failure.make .backup file "failed to create backup" (some e))

/-- The content of the backup copied back over `file`; nothing is done for an empty
    backup path. -/
def restore (file backup : Path) : ExceptT Failure m Unit := do
  if backup.isEmpty then return
  match ← sys.lift.call (Call.stat backup) with
  | .error .notFound =>
    throw (Failure.make .backup backup "backup file not found"
      (some (.system "stat" backup .notFound)))
  | _ =>
    tryCatch (copy sys backup file) fun e =>
      throw (Failure.make .backup file "failed to restore file content" (some e))

/-- The backup removed; a backup that is already gone is no failure. -/
def discard (backup : Path) : ExceptT Failure m Unit := do
  if backup.isEmpty then return
  match ← sys.lift.call (Call.remove backup) with
  | .ok () => pure ()
  | .error .notFound => pure ()
  | .error e =>
    throw (Failure.make .backup backup "failed to remove backup file"
      (some (.system "remove" backup e)))

end Backup

end Unalias
