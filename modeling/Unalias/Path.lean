import Unalias.Bytes

/-! # Slash-separated paths

Paths are byte strings cut at `/`. Every path the tool builds goes through `Path.clean`, the
lexical normal form: no empty piece, no `.` piece, and `..` only at the front of a relative path.
`Path.rel?` walks from one directory to another by dropping the pieces both share; it has no
answer when only one of the two is absolute, or when the walk would have to climb out of a `..`.
-/

namespace Unalias

/-- A slash-separated file path, as bytes. -/
abbrev Path := Bytes

namespace Path

/-- The separator, `/`. -/
def slash : UInt8 := 47

/-- The byte `.`. -/
def dot : UInt8 := 46

/-- The piece `..`, which names the parent directory. -/
def parent : Bytes := [dot, dot]

/-- The pieces between slashes, empty ones included: `a//b` has three and `/a` two. -/
def pieces : Bytes → List Bytes
  | [] => [[]]
  | b :: rest =>
    match pieces rest with
    | [] => [[b]]
    | p :: ps => if b = slash then [] :: p :: ps else (b :: p) :: ps

/-- Pieces put back together with slashes between them. -/
def unpieces (ps : List Bytes) : Bytes := List.intercalate [slash] ps

/-- A path is absolute when it starts at the root. -/
def IsAbs (p : Path) : Bool := p.head? == some slash

/-- One piece taken into the pieces kept so far, which are held last first: an empty piece and
    `.` vanish, `..` cancels the piece before it, and at the root `..` stays at the root. -/
def keep (rooted : Bool) (kept : List Bytes) (piece : Bytes) : List Bytes :=
  if piece = [] ∨ piece = [dot] then kept
  else if piece = parent then
    match kept with
    | top :: rest => if top = parent then piece :: kept else rest
    | [] => if rooted then [] else [piece]
  else piece :: kept

/-- The shortest path that names the same file by lexical rules alone; `.` for the empty path. -/
def clean (p : Path) : Path :=
  if p = [] then [dot]
  else
    let rooted := IsAbs p
    let body := unpieces ((pieces p).foldl (keep rooted) []).reverse
    if rooted then slash :: body
    else if body = [] then [dot] else body

/-- Two paths joined by a slash and cleaned; an empty part is left out, and two empty parts give
    the empty path. -/
def join (a b : Path) : Path :=
  if a = [] then (if b = [] then [] else clean b)
  else clean (a ++ slash :: b)

/-- Parts joined left to right from the first non-empty one, then cleaned; all empty gives the
    empty path. -/
def joinAll : List Path → Path
  | [] => []
  | a :: rest => if a = [] then joinAll rest else clean (unpieces (a :: rest))

/-- Everything up to the last slash, cleaned: the directory that holds the path's last piece. -/
def dir (p : Path) : Path :=
  clean (p.reverse.dropWhile (· ≠ slash)).reverse

/-- The last piece of a path, trailing slashes ignored: `.` for the empty path and `/` for a path
    of slashes only. -/
def base (p : Path) : Path :=
  if p = [] then [dot]
  else
    let trimmed := p.reverse.dropWhile (· = slash)
    if trimmed = [] then [slash]
    else (trimmed.takeWhile (· ≠ slash)).reverse

/-- A path made absolute against a working directory. -/
def abs (cwd p : Path) : Path :=
  if IsAbs p then clean p else join cwd p

/-- Drops the pieces two lists start with in common. -/
def dropCommon : List Bytes → List Bytes → List Bytes × List Bytes
  | x :: xs, y :: ys => if x = y then dropCommon xs ys else (x :: xs, y :: ys)
  | xs, ys => (xs, ys)

/-- The names a cleaned path passes through below its start: none for `/` and `.`, and for
    `/a/b` or `a/b` the pieces `a` and `b`. -/
def names (p : Path) : List Bytes :=
  let body := if IsAbs p then p.drop 1 else p
  if body = [] ∨ body = [dot] then [] else pieces body

/-- The relative path that leads from directory `base` to `target`, both cleaned first: `..` for
    each name of `base` past the shared ones, then the rest of `target`. None when exactly one
    of them is absolute, or when the first name of `base` past the shared ones is `..`. The
    path `.` has no names, whether it is the base or the target. -/
def rel? (base target : Path) : Option Path :=
  let b := clean base
  let t := clean target
  if t = b then some [dot]
  else if IsAbs b != IsAbs t then none
  else
    let (bs, ts) := dropCommon (names b) (names t)
    match bs with
    | [] => some (unpieces ts)
    | first :: _ =>
      if first = parent then none
      else some (unpieces (List.replicate bs.length parent ++ ts))

end Path

end Unalias
