import Unalias.Bytes

/-! # Import specifiers in compiled code

A compiled file names the modules it loads in two forms: a call, `import('x')` or
`require("x")`, and a declaration, `import 'x'` or `from "x"`. The scanner reads the text, not the
program, so a specifier inside a comment or a string is found too. A specifier may hold any
byte but a quote, and its two quotes need not match.

Each form is searched left to right; a match resumes the search at its end. The two lists are
merged by position, calls first where two start together, and an occurrence that starts inside
the one kept before it is dropped.
-/

namespace Unalias

/-- The form a specifier was found in. -/
inductive SpecifierKind where
  /-- `import('x')` or `require('x')`. -/
  | call
  /-- `import 'x'`, or `from 'x'` after an import or export list. -/
  | declaration
  deriving DecidableEq, Repr

/-- The name of the form, as reports write it. -/
def SpecifierKind.name : SpecifierKind → String
  | .call => "call"
  | .declaration => "declaration"

/-- A specifier found in a file: the bytes between its quotes, at `start` up to `stop`. -/
structure Occurrence where
  /-- Offset of the first byte after the opening quote. -/
  start : Nat
  /-- Offset of the closing quote. -/
  stop : Nat
  /-- The specifier, `stop - start` bytes. -/
  value : Bytes
  /-- The form it was found in. -/
  kind : SpecifierKind
  deriving DecidableEq, Repr

/-- A search pattern: a keyword out of `keywords`, then `opener`, a quote, the specifier, a quote
    and `closer`. -/
structure SpecifierForm where
  /-- The words that may start the form. -/
  keywords : List Bytes
  /-- What stands between the keyword and the opening quote. -/
  opener : Bytes
  /-- What must follow the closing quote. -/
  closer : Bytes
  /-- The form found. -/
  kind : SpecifierKind

namespace SpecifierForm

/-- `import('x')` and `require('x')`. -/
def call : SpecifierForm :=
  ⟨[Bytes.ofString "import", Bytes.ofString "require"], Bytes.ofString "(", Bytes.ofString ")",
    .call⟩

/-- `import 'x'` and `from 'x'`. -/
def declaration : SpecifierForm :=
  ⟨[Bytes.ofString "import", Bytes.ofString "from"], Bytes.ofString " ", [], .declaration⟩

/-- The forms, in the order their matches are merged. -/
def all : List SpecifierForm := [call, declaration]

end SpecifierForm

/-- A single or a double quote. -/
def IsQuote (b : UInt8) : Bool := b == 39 || b == 34

/-- A match of the form at the head of the bytes after the given lead-in: the offset of the
    specifier, the specifier, and the length of the whole match. -/
def matchQuoted (lead closer : Bytes) (s : Bytes) : Option (Nat × Bytes × Nat) :=
  if lead.isPrefixOf s then
    match s.drop lead.length with
    | q :: body =>
      if IsQuote q then
        let value := body.takeWhile (fun b => !IsQuote b)
        match body.drop value.length with
        | q' :: tail =>
          if IsQuote q' && closer.isPrefixOf tail then
            some (lead.length + 1, value, lead.length + value.length + 2 + closer.length)
          else none
        | [] => none
      else none
    | [] => none
  else none

/-- A match of the form at the head of the bytes, trying its keywords in turn. -/
def SpecifierForm.matchHead (f : SpecifierForm) (s : Bytes) : Option (Nat × Bytes × Nat) :=
  f.keywords.findSome? fun kw => matchQuoted (kw ++ f.opener) f.closer s

/-- Every match of the form, left to right, each search resuming where the last match ended;
    `pos` is the offset of `s` in the file. -/
def SpecifierForm.findAll (f : SpecifierForm) (pos : Nat) : Bytes → List Occurrence
  | [] => []
  | b :: rest =>
    match f.matchHead (b :: rest) with
    | some (at_, value, len) =>
      ⟨pos + at_, pos + at_ + value.length, value, f.kind⟩ ::
        f.findAll (pos + len) (rest.drop (len - 1))
    | none => f.findAll (pos + 1) rest
termination_by s => s.length
decreasing_by
  · rw [List.length_drop, List.length_cons]; omega
  · rw [List.length_cons]; omega

/-- Occurrences in order, without one that starts before the end of the one kept before it. -/
def dropOverlaps : Nat → List Occurrence → List Occurrence
  | _, [] => []
  | lastStop, o :: os =>
    if o.start < lastStop then dropOverlaps lastStop os
    else o :: dropOverlaps o.stop os

/-- The specifiers of a file, in order of position. -/
def scan (content : Bytes) : List Occurrence :=
  let found := SpecifierForm.all.flatMap fun f => f.findAll 0 content
  dropOverlaps 0 (found.mergeSort fun a b => a.start ≤ b.start)

end Unalias
