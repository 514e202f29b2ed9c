import Unalias.Edit
import Unalias.Resolution

/-! # The outcome for one compiled file

The specifiers of a compiled file are found, each is resolved, and those whose resolution
changed them are replaced in one pass of edits. An aliased specifier for which no module exists
is reported as unresolved and left alone. Lines and columns count from 1, columns in bytes.

Nothing is done for an empty file, an empty alias table, or a file without specifiers. The file
counts as modified only when its bytes changed; an unmodified outcome holds no new content.
-/

namespace Unalias

/-- A specifier replaced in a file. -/
structure Replacement where
  /-- The specifier as it was. -/
  before : Bytes
  /-- The specifier written in its place. -/
  after : Bytes
  /-- The module it names, without extension. -/
  target : Path
  /-- The line of the specifier. -/
  line : Int
  /-- The column of its first byte. -/
  column : Int
  /-- The offset of its first byte in the old content. -/
  offset : Int
  /-- The offset of the replacing bytes in the new content. -/
  newOffset : Int := 0
  deriving DecidableEq, Repr

/-- An aliased specifier for which no module exists. -/
structure Unresolved where
  /-- The specifier. -/
  specifier : Bytes
  /-- Its line. -/
  line : Int
  /-- The column of its first byte. -/
  column : Int
  deriving DecidableEq, Repr

/-- What became of one compiled file. -/
structure FileOutcome where
  /-- The file. -/
  path : Path
  /-- Its source file, from the first aliased specifier; empty when it has none. -/
  sourceFile : Path := []
  /-- The specifiers replaced, in order. -/
  replacements : List Replacement := []
  /-- The aliased specifiers that stay, in order. -/
  unresolved : List Unresolved := []
  /-- Whether the content changed. -/
  modified : Bool := false
  /-- The size of the content read. -/
  oldSize : Int
  /-- The size of the content to write. -/
  newSize : Int
  /-- The content to write, when modified. -/
  content : Option Bytes := none
  /-- Why the edits could not be made, with the file they were for. -/
  error : Option EditError := none
  deriving Repr

/-- A walk through a file that turns increasing offsets into lines and columns, passing over
    each byte once. -/
structure LineCursor where
  /-- How far the walk has come. -/
  offset : Nat := 0
  /-- The line it is on. -/
  line : Nat := 1
  /-- Where that line starts. -/
  lineStart : Nat := 0
  deriving DecidableEq, Repr

namespace LineCursor

/-- The cursor moved over `bytes`, the content from its offset on, up to `target`. -/
def advance (c : LineCursor) (target : Nat) : Bytes → LineCursor
  | [] => c
  | b :: rest =>
    if c.offset < target then
      let c := if b = 10 then { c with line := c.line + 1, lineStart := c.offset + 1 } else c
      advance { c with offset := c.offset + 1 } target rest
    else c

/-- The line and column of `target`, and the cursor moved there. -/
def locate (c : LineCursor) (content : Bytes) (target : Nat) : (Nat × Nat) × LineCursor :=
  let c := c.advance target (content.drop c.offset)
  ((c.line, target - c.lineStart + 1), c)

end LineCursor

/-- What the resolutions of a file's specifiers add to its outcome. -/
structure Findings where
  /-- The source file from the first aliased specifier. -/
  sourceFile : Path := []
  /-- Replacements, in order. -/
  replacements : List Replacement := []
  /-- Unresolved specifiers, in order. -/
  unresolved : List Unresolved := []

/-- Takes the resolutions of the occurrences in order into the findings; an occurrence that no
    alias entry matched is passed over. -/
def collect (content : Bytes) :
    LineCursor → Findings → List (Occurrence × Resolution) → Findings
  | _, f, [] => { f with replacements := f.replacements.reverse, unresolved := f.unresolved.reverse }
  | cur, f, (o, r) :: rest =>
    if !r.Matched then collect content cur f rest
    else
      let f := if f.sourceFile.isEmpty then { f with sourceFile := r.sourceFile } else f
      let ((line, column), cur) := cur.locate content o.start
      if !r.Resolved then
        collect content cur { f with unresolved := ⟨o.value, line, column⟩ :: f.unresolved } rest
      else if r.Changed then
        collect content cur
          { f with replacements :=
              { before := r.requested, after := r.specifier, target := r.target, line, column,
                offset := o.start } :: f.replacements } rest
      else collect content cur f rest

/-- The outcome for content whose specifiers resolved as given. -/
def FileOutcome.ofResolutions (path : Path) (content : Bytes)
    (resolved : List (Occurrence × Resolution)) : FileOutcome :=
  let base : FileOutcome := { path, oldSize := content.length, newSize := content.length }
  let f := collect content {} {} resolved
  let base := { base with sourceFile := f.sourceFile, unresolved := f.unresolved }
  if f.replacements.isEmpty then base
  else
    let edits := f.replacements.map fun r => (⟨r.offset, r.before, r.after⟩ : Edit)
    match applyEdits content edits with
    | .error e =>
      { base with error := some e }
    | .ok (out, offsets) =>
      let reps := (f.replacements.zip offsets).map fun (r, n) => { r with newOffset := n }
      if out = content then { base with replacements := reps }
      else { base with replacements := reps, modified := true, content := some out,
                       newSize := out.length }

/-- The outcome for a compiled file: its specifiers resolved in order through the layout. A batch
    has its layout before it reads any file, so no file is ever processed without one. -/
def FileOutcome.compute {m : Type → Type} [Monad m] (l : Layout) (exists? : Path → m Bool)
    (path : Path) (content : Bytes) : m FileOutcome := do
  let base : FileOutcome := { path, oldSize := content.length, newSize := content.length }
  if content.isEmpty || l.table.isEmpty then return base
  let occurrences := scan content
  if occurrences.isEmpty then return base
  let resolved ← occurrences.mapM fun o => do
    return (o, ← l.resolve exists? o.value path)
  return FileOutcome.ofResolutions path content resolved

end Unalias
