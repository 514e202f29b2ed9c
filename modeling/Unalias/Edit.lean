import Unalias.Specifier
import Unalias.Text.Quoted

/-! # Edits

An edit replaces the bytes `old` found at an offset by `new`. A list of edits is applied in one
pass from the front: each must start at or after the end of the one before it (the first at or
after offset 0), lie inside the content, and find its `old` bytes where it says. The pass answers
the new content and where each edit's `new` bytes start in it.

Offsets are signed 64-bit words, as a caller may hand in any; the end of an edit is computed in
the same words, so a sum past the largest word wraps around to a negative one.

`remap` turns the specifiers of a file into edits: a hint recorded for an offset wins when its
`old` text is the specifier found there, otherwise a plain mapping from old to new specifier
applies.
-/

namespace Unalias

/-- Replace `old` at `offset` by `new`. -/
structure Edit where
  /-- Where `old` starts. -/
  offset : Int
  /-- The bytes expected at `offset`. -/
  old : Bytes
  /-- The bytes put in their place. -/
  new : Bytes
  deriving DecidableEq, Repr

/-- Why a list of edits cannot be applied. -/
inductive EditError where
  /-- Edit `index` starts before the end of the edit before it, or ends past the content. -/
  | outOfRange (index : Nat) (offset : Int)
  /-- Edit `index` does not find its `old` bytes at its offset. -/
  | mismatch (index : Nat) (offset : Int) (old : Bytes)
  /-- Edit `index` ends, in wrapped arithmetic, before it starts: the slice `[offset:stop]` it
      would read does not exist. The bound reported is the end when it is negative, and both
      bounds otherwise. -/
  | sliceBounds (index : Nat) (offset : Int) (stop : Int)
  deriving DecidableEq, Repr

namespace EditError

/-- The text of the error. -/
def message : EditError → Bytes
  | .outOfRange i off =>
    Bytes.ofString s!"edit {i} at offset {off} is out of order or out of range"
  | .mismatch i off old =>
    Bytes.ofString s!"edit {i} at offset {off}: expected " ++ Text.quote old
  | .sliceBounds _ off stop =>
    if stop < 0 then Bytes.ofString s!"runtime error: slice bounds out of range [:{stop}]"
    else Bytes.ofString s!"runtime error: slice bounds out of range [{off}:{stop}]"

end EditError

/-- A sum taken in signed 64-bit words, wrapping around past either end. -/
def wordSum (a b : Int) : Int := Int.bmod (a + b) (Nat.pow 2 64)

namespace Edit

/-- Where the edit ends, in wrapped word arithmetic. -/
def stop (e : Edit) : Int := wordSum e.offset e.old.length

/-- Applies the edits after `last`, the end of the edit before them, writing from output offset
    `written`; `index` numbers the first of them. -/
def applyFrom (content : Bytes) (last written : Nat) :
    Nat → List Edit → Except EditError (Bytes × List Nat)
  | _, [] => .ok (content.drop last, [])
  | index, e :: es =>
    if e.offset < last ∨ e.stop > content.length then .error (.outOfRange index e.offset)
    else if e.stop < e.offset then .error (.sliceBounds index e.offset e.stop)
    else
      let start := e.offset.toNat
      let stop := e.stop.toNat
      if (content.drop start).take (stop - start) ≠ e.old then
        .error (.mismatch index e.offset e.old)
      else
        let gap := (content.drop last).take (start - last)
        let at_ := written + gap.length
        match applyFrom content stop (at_ + e.new.length) (index + 1) es with
        | .ok (rest, offsets) => .ok (gap ++ e.new ++ rest, at_ :: offsets)
        | .error err => .error err

end Edit

/-- The content with every edit made, and where each edit's new bytes start in it. -/
def applyEdits (content : Bytes) (edits : List Edit) : Except EditError (Bytes × List Nat) :=
  Edit.applyFrom content 0 0 0 edits

/-- A hint for `remap`: where a specifier was recorded, and what it was and becomes there. -/
abbrev Hints := List (Int × Edit)

/-- The hint recorded for an offset; of several, the last one recorded. -/
def Hints.find? (hints : Hints) (offset : Int) : Option Edit :=
  (hints.reverse.find? fun h => h.1 == offset).map (·.2)

/-- The edit `remap` makes at an occurrence, if any: the hint at its start when the hint's `old`
    is the specifier found, otherwise the mapping's new specifier when it differs. -/
def remapEdit (mapping : List (Bytes × Bytes)) (hints : Hints) (o : Occurrence) : Option Edit :=
  match hints.find? o.start with
  | some h =>
    if h.old = o.value then some ⟨o.start, o.value, h.new⟩ else byMapping
  | none => byMapping
where
  /-- The plain mapping's edit: the first entry for the specifier, when it changes it. -/
  byMapping : Option Edit :=
    match (mapping.find? fun m => m.1 == o.value) with
    | some (_, target) => if target ≠ o.value then some ⟨o.start, o.value, target⟩ else none
    | none => none

/-- The content with its specifiers changed by hints and mapping, and how many were changed;
    the content unchanged, and none counted, when the edits cannot be applied. -/
def remap (content : Bytes) (mapping : List (Bytes × Bytes)) (hints : Hints) : Bytes × Nat :=
  let edits := (scan content).filterMap (remapEdit mapping hints)
  if edits = [] then (content, 0)
  else
    match applyEdits content edits with
    | .ok (out, _) => (out, edits.length)
    | .error _ => (content, 0)

end Unalias
