import Unalias.Path

/-! # A file system as a value

The tool reads and writes a directory tree; here the tree is a value, so that a run is a
function from one tree to the next. A tree holds regular files, each with its bytes and
permission bits, directories, and symbolic links, each with the path it points to, under
absolute cleaned paths; the root always exists, and every other entry sits in a directory that
the tree holds. Relative paths are taken against the working directory, and the empty path names
nothing.

A path is followed the way the system follows it, piece by piece from the root or the working
directory, so `..` after a missing entry or a file fails even where cleaning the text would not.
A link met before the last piece is followed, from the root for an absolute target and from the
link's directory otherwise, and so is a link the last piece names when the operation follows it:
reading, writing, listing and asking what a path names do, removing, renaming and creating a
file that must be new do not. A walk follows at most 40 links.

New files get their requested permissions less the group and other write bits (umask 022).
Writing to an existing file keeps its permissions. A directory can be removed only when empty.
A name longer than 255 bytes, or a path of 4096 bytes or more, is refused as too long, and a
path holding a zero byte is refused outright.
-/

namespace Unalias

/-- Why an operation on the file system failed. -/
inductive FsError where
  /-- Nothing exists at the path. -/
  | notFound
  /-- The path names a directory where a file was needed. -/
  | isDirectory
  /-- A part of the path names a file where a directory was needed. -/
  | notDirectory
  /-- The directory to remove still holds entries. -/
  | notEmpty
  /-- A name in the path, or the whole path, is longer than the system takes. -/
  | nameTooLong
  /-- The path holds a zero byte, which no path given to the system can hold. -/
  | invalidArgument
  /-- The walk met more links than it follows. -/
  | tooManyLinks
  /-- Something is already at the path of a file that must be new. -/
  | alreadyExists
  deriving DecidableEq, Repr

/-- The system's text for the error. -/
def FsError.text : FsError → String
  | .notFound => "no such file or directory"
  | .isDirectory => "is a directory"
  | .notDirectory => "not a directory"
  | .notEmpty => "directory not empty"
  | .nameTooLong => "file name too long"
  | .invalidArgument => "invalid argument"
  | .tooManyLinks => "too many levels of symbolic links"
  | .alreadyExists => "file exists"

/-- A regular file: its bytes and permission bits. -/
structure StoredFile where
  /-- The bytes. -/
  content : Bytes
  /-- The permission bits, such as 420 for rw-r--r--. -/
  mode : Nat
  deriving DecidableEq, Repr

/-- What a path names. -/
inductive Node where
  /-- A regular file. -/
  | file (f : StoredFile)
  /-- A directory. -/
  | directory
  /-- A symbolic link, with the path it points to. -/
  | symlink (target : Path)
  deriving DecidableEq, Repr

/-- A directory tree, with the directory that relative paths start from. -/
structure FileSystem where
  /-- The working directory, absolute and cleaned. -/
  cwd : Path
  /-- Every file and directory but the root, under its absolute cleaned path. -/
  nodes : List (Path × Node)
  deriving Repr

/-- The permission bits taken away from new files. -/
def umask : Nat := 0o022

/-- The longest name a directory entry can have, in bytes. -/
def nameMax : Nat := 255

/-- The length, in bytes, that a path given to the system must stay below. -/
def pathMax : Nat := 4096

/-- The most links one walk follows. -/
def maxLinks : Nat := 40

/-- Whether `a` sorts strictly before `b`, byte by byte. -/
def Bytes.lt : Bytes → Bytes → Bool
  | [], _ :: _ => true
  | a :: as, b :: bs => a < b || (a == b && Bytes.lt as bs)
  | _, _ => false

namespace FileSystem

/-- The absolute cleaned path a path names by lexical rules alone; none for the empty path. -/
def locate (fs : FileSystem) (p : Path) : Option Path :=
  if p = [] then none else some (Path.abs fs.cwd p)

/-- The entry at an absolute cleaned path. -/
def node? (fs : FileSystem) (p : Path) : Option Node :=
  if p = [Path.slash] then some .directory
  else (fs.nodes.find? (·.1 == p)).map (·.2)

/-- The directories above an absolute cleaned path, nearest first, the root last. -/
def ancestors (p : Path) : List Path :=
  let rec up (fuel : Nat) (q : Path) : List Path :=
    match fuel with
    | 0 => []
    | fuel + 1 =>
      let d := Path.dir q
      if d = q then [] else d :: up fuel d
  up p.length p

/-- The directory reached from `cur` after one piece: `.` and an empty piece stay, `..` climbs,
    and a name leads below. -/
def walkStep (cur : Path) (piece : Bytes) : Except FsError Path :=
  if piece = [] ∨ piece = [Path.dot] then .ok cur
  else if piece = Path.parent then .ok (Path.dir cur)
  else if nameMax < piece.length then .error .nameTooLong
  else .ok (Path.join cur piece)

/-- The walk of the pieces from the directory `cur`. Every piece but the last must lead to a
    directory, or to a link, which `follow` walks on from with its target's pieces before the
    rest; the last piece leads anywhere, and a link there is followed when `last` is set. -/
def walkPieces (fs : FileSystem) (follow : Path → List Bytes → Except FsError Path) (last : Bool) :
    Path → List Bytes → Except FsError Path
  | cur, [] => .ok cur
  | cur, piece :: rest => do
    let next ← walkStep cur piece
    match fs.node? next with
    | some (.symlink t) =>
      if rest.isEmpty && !last then .ok next
      else if t = [] then .error .notFound
      else follow (if Path.IsAbs t then [Path.slash] else cur) (Path.pieces t ++ rest)
    | some .directory => walkPieces fs follow last next rest
    | some (.file _) => if rest.isEmpty then .ok next else .error .notDirectory
    | none => if rest.isEmpty then .ok next else .error .notFound

/-- The walk of the pieces from `cur` that may follow `links` more links. -/
def walkLinks (fs : FileSystem) (last : Bool) : Nat → Path → List Bytes → Except FsError Path
  | 0 => fs.walkPieces (fun _ _ => .error .tooManyLinks) last
  | links + 1 => fs.walkPieces (fs.walkLinks last links) last

/-- Where a walk of the path starts: the root for an absolute path, else the working directory. -/
def start (fs : FileSystem) (p : Path) : Path :=
  if Path.IsAbs p then [Path.slash] else fs.cwd

/-- The absolute cleaned path that a path leads to when walked piece by piece, following a link
    the last piece names when `last` is set. The empty path leads nowhere. A path with a zero
    byte or of `pathMax` bytes or more is refused before the walk, and a name longer than
    `nameMax` when the walk looks it up in a directory. -/
def walkWith (fs : FileSystem) (last : Bool) (p : Path) : Except FsError Path :=
  if p.contains 0 then .error .invalidArgument
  else if p = [] then .error .notFound
  else if pathMax ≤ p.length then .error .nameTooLong
  else fs.walkLinks last maxLinks (fs.start p) (Path.pieces p)

/-- The path of the entry a path names: a link it names is not followed. -/
def walk (fs : FileSystem) (p : Path) : Except FsError Path := fs.walkWith false p

/-- The path of what a path leads to, every link on the way followed. -/
def resolve (fs : FileSystem) (p : Path) : Except FsError Path := fs.walkWith true p

/-- What a path names. -/
def stat (fs : FileSystem) (p : Path) : Except FsError Node := do
  let a ← fs.resolve p
  match fs.node? a with
  | some n => .ok n
  | none => .error .notFound

/-- Whether a path leads to something. -/
def Exists (fs : FileSystem) (p : Path) : Bool :=
  match fs.stat p with
  | .ok _ => true
  | .error _ => false

/-- The bytes of a regular file. -/
def readFile (fs : FileSystem) (p : Path) : Except FsError Bytes :=
  match fs.stat p with
  | .ok (.file f) => .ok f.content
  | .ok _ => .error .isDirectory
  | .error e => .error e

/-- A path the walk leads somewhere from is shorter than `pathMax`. -/
theorem walkWith_length {fs : FileSystem} {last : Bool} {p a : Path}
    (h : fs.walkWith last p = .ok a) : p.length < pathMax := by
  unfold walkWith at h
  split at h
  · cases h
  split at h
  · cases h
  split at h
  · cases h
  omega

/-- A path whose file can be read is shorter than `pathMax`. -/
theorem readFile_length {fs : FileSystem} {p : Path} {c : Bytes} (h : fs.readFile p = .ok c) :
    p.length < pathMax := by
  unfold readFile stat at h
  cases hw : fs.resolve p with
  | error e => simp [hw, bind, Except.bind] at h
  | ok a => exact walkWith_length hw

/-- The tree with the entry at an absolute path set. -/
def put (fs : FileSystem) (a : Path) (n : Node) : FileSystem :=
  { fs with nodes := (fs.nodes.filter (·.1 != a)) ++ [(a, n)] }

/-- The bytes written to a file, created with the given permissions less the umask when new,
    keeping its permissions when it exists; a link is written through. A path ending in `/`
    names a directory, so no file can be written there: a file found there is not a directory,
    and nothing found there would have to be one. -/
def writeFile (fs : FileSystem) (p : Path) (content : Bytes) (perm : Nat) :
    Except FsError FileSystem := do
  let body := (p.reverse.dropWhile (· = Path.slash)).reverse
  let slashed := body.length < p.length
  let a ← if body = [] ∧ slashed then pure [Path.slash] else fs.resolve body
  match fs.node? a with
  | some (.file f) =>
    if slashed then .error .notDirectory else .ok (fs.put a (.file ⟨content, f.mode⟩))
  | some _ => .error .isDirectory
  | none =>
    if slashed then .error .isDirectory
    else .ok (fs.put a (.file ⟨content, perm &&& (0o7777 - umask)⟩))

/-- Whether the entry at an absolute path lies inside the directory `d`. -/
def IsInside (d a : Path) : Bool := a != d && Path.dir a == d

/-- The tree without the file, link or empty directory at a path. -/
def remove (fs : FileSystem) (p : Path) : Except FsError FileSystem := do
  let a ← fs.walk p
  match fs.node? a with
  | none => .error .notFound
  | some .directory =>
    if a = [Path.slash] || fs.nodes.any (fun n => IsInside a n.1) then .error .notEmpty
    else .ok { fs with nodes := fs.nodes.filter (·.1 != a) }
  | some _ => .ok { fs with nodes := fs.nodes.filter (·.1 != a) }

/-- The tree with an empty file made at a path where nothing is, not even a link, with the given
    permissions less the umask. -/
def createExclusive (fs : FileSystem) (p : Path) (perm : Nat) : Except FsError FileSystem := do
  let a ← fs.walk p
  match fs.node? a with
  | some _ => .error .alreadyExists
  | none => .ok (fs.put a (.file ⟨[], perm &&& (0o7777 - umask)⟩))

/-- The tree with the permissions of the file a path leads to set; a directory keeps its own. -/
def chmod (fs : FileSystem) (p : Path) (mode : Nat) : Except FsError FileSystem := do
  let a ← fs.resolve p
  match fs.node? a with
  | some (.file f) => .ok (fs.put a (.file { f with mode := mode &&& 0o7777 }))
  | some _ => .ok fs
  | none => .error .notFound

/-- The tree with the file or link at `src` moved to `dst`, in place of what is there; neither
    path's last link is followed. A directory is not moved here, and none is replaced. -/
def rename (fs : FileSystem) (src dst : Path) : Except FsError FileSystem := do
  let a ← fs.walk src
  let b ← fs.walk dst
  match fs.node? a with
  | none => .error .notFound
  | some .directory => .error .isDirectory
  | some n =>
    match fs.node? b with
    | some .directory => .error .isDirectory
    | _ => if a = b then .ok fs else .ok ({ fs with nodes := fs.nodes.filter (·.1 != a) }.put b n)

/-- The entries of a directory, by name in byte order: each name with its absolute path and
    what it names. -/
def listDir (fs : FileSystem) (p : Path) : Except FsError (List (Bytes × Path × Node)) := do
  let a ← fs.resolve p
  match fs.node? a with
  | some .directory =>
    let inside := fs.nodes.filter fun n => IsInside a n.1
    .ok ((inside.map fun (q, n) => (Path.base q, q, n)).mergeSort
      fun x y => !Bytes.lt y.1 x.1)
  | some _ => .error .notDirectory
  | none => .error .notFound

/-- The tree with a directory and every directory above it. -/
def makeDirs (fs : FileSystem) (a : Path) : FileSystem :=
  ((a :: ancestors a).reverse).foldl (fun fs d =>
    match fs.node? d with
    | some _ => fs
    | none => fs.put d .directory) fs

/-- The tree with a file put at a path, its directories made first. -/
def addFile (fs : FileSystem) (p : Path) (f : StoredFile) : FileSystem :=
  match fs.locate p with
  | none => fs
  | some a => (fs.makeDirs (Path.dir a)).put a (.file f)

/-- The regular files of the tree, by path in byte order. -/
def files (fs : FileSystem) : List (Path × StoredFile) :=
  (fs.nodes.filterMap fun (p, n) => match n with
    | .file f => some (p, f)
    | _ => none).mergeSort fun x y => !Bytes.lt y.1 x.1

end FileSystem

end Unalias
