import Unalias.Failure

/-! # Actions on a file system

An action reads and changes a file system and gives a value or fails. A failed action keeps the
changes it made before it failed, as a real file system does: a file opened for writing stays
truncated when the copy into it fails.

Operations made of several system calls are written once for any monad that can make the calls
(`Syscalls`): run alone on a tree, each call answers and changes the tree in turn
(`Syscalls.alone`); run beside other programs, each call is one atomic step.
-/

namespace Unalias

/-- An action on a file system that gives an `α` or fails. -/
abbrev FsAction (α : Type) := EStateM Failure FileSystem α

namespace FileSystem

/-- The bytes of a regular file, or the system's failure: opening fails when nothing is at the
    path, and reading fails on a directory. -/
def readBytes (fs : FileSystem) (p : Path) : Except Failure Bytes :=
  match fs.stat p with
  | .ok (.file f) => .ok f.content
  | .ok _ => .error (.system "read" p .isDirectory)
  | .error e => .error (.system "open" p e)

/-- The permission bits of what a path names: a directory's are rwxr-xr-x, a link's rwxrwxrwx. -/
def permissions : Node → Nat
  | .file f => f.mode
  | .directory => 0o755
  | .symlink _ => 0o777

end FileSystem

/-- A system call: its answer from the tree it finds, and the tree it leaves. -/
abbrev Call (β : Type) := FileSystem → β × FileSystem

namespace Call

/-- What a path names, links followed. -/
def stat (p : Path) : Call (Except FsError Node) := fun fs => (fs.stat p, fs)

/-- The bytes of the regular file a path names. -/
def readFile (p : Path) : Call (Except FsError Bytes) := fun fs => (fs.readFile p, fs)

/-- The bytes of the regular file a path names, or the failure to open or read it. -/
def readBytes (p : Path) : Call (Except Failure Bytes) := fun fs => (fs.readBytes p, fs)

/-- A call that changes the tree, or fails and leaves it as it was. -/
def change (op : FileSystem → Except FsError FileSystem) : Call (Except FsError Unit) := fun fs =>
  match op fs with
  | .ok fs' => (.ok (), fs')
  | .error e => (.error e, fs)

/-- Opens a file for writing, creating it with `perm` less the umask, and writes the bytes. -/
def writeFile (p : Path) (content : Bytes) (perm : Nat) : Call (Except FsError Unit) :=
  change (·.writeFile p content perm)

/-- Creates an empty file where nothing is. -/
def createExclusive (p : Path) (perm : Nat) : Call (Except FsError Unit) :=
  change (·.createExclusive p perm)

/-- Sets the permissions of the file a path names. -/
def chmod (p : Path) (mode : Nat) : Call (Except FsError Unit) := change (·.chmod p mode)

/-- Moves the entry at `src` to `dst`. -/
def rename (src dst : Path) : Call (Except FsError Unit) := change (·.rename src dst)

/-- Removes the entry at a path. -/
def remove (p : Path) : Call (Except FsError Unit) := change (·.remove p)

end Call

/-- How a monad makes system calls. -/
structure Syscalls (m : Type → Type) where
  /-- Makes a call. -/
  call : {β : Type} → Call β → m β

/-- Calls made alone on a tree, one after another. -/
def Syscalls.alone : Syscalls (StateM FileSystem) := ⟨fun c fs => c fs⟩

/-- The same calls, made where failures can also be thrown. -/
def Syscalls.lift {m : Type → Type} [Monad m] {ε : Type} (sys : Syscalls m) :
    Syscalls (ExceptT ε m) :=
  ⟨fun c => ExceptT.lift (sys.call c)⟩

namespace FsAction

/-- The action that gives the value of an `Except`, or fails with its failure. -/
def ofExcept {α : Type} : Except Failure α → FsAction α
  | .ok a => pure a
  | .error e => throw e

/-- An operation made of calls, run alone as an action. -/
def ofCalls {α : Type} (x : ExceptT Failure (StateM FileSystem) α) : FsAction α := fun fs =>
  match x.run fs with
  | (.ok a, fs') => .ok a fs'
  | (.error e, fs') => .error e fs'

end FsAction

end Unalias
