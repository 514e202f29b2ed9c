/-! # File patterns

A pattern is matched against a slash-separated relative path, piece by piece. Within a piece,
`*` matches any run of characters, `?` one character, `[...]` one character of a class (ranges
`a-z`, a leading `^` to negate, `\` to escape), `{a,b}` any of the alternatives, which may
nest and may hold slashes, and `\c` the character `c`. A piece that is exactly `**` matches any
number of whole pieces, at least one unless it ends the pattern.

A malformed construct (an unclosed class or alternative, an empty class, a stray `-`, a trailing
backslash, a backslash before the replacement character U+FFFD) is an error, but only when the
matcher reaches it: a pattern that fails earlier reports no error. Every alternative of a brace
is reached, so a malformed one is an error even when another matches.
-/

namespace Unalias.Glob

/-- The error of a malformed pattern. -/
structure BadPattern where
  deriving DecidableEq, Repr

/-- The text of the error. -/
def BadPattern.text (_ : BadPattern) : String := "syntax error in pattern"

/-- A pattern's outcome against one path piece: `none` when it does not match, otherwise the
    patterns left for the following pieces, one for each way the piece matched, and the empty
    list when the piece used the whole pattern. Ways are gathered, not merged: when one
    alternative uses the whole pattern and another leaves some of it, only the latter remains. -/
abbrev Step := Option (List (List Char))

/-- The position of the first `c` that does not follow a backslash. -/
def findUnescaped (c : Char) : List Char → Option Nat :=
  go none 0
where
  /-- Searches from position `i`, after the character `prev`. -/
  go (prev : Option Char) (i : Nat) : List Char → Option Nat
    | [] => none
    | x :: xs => if x == c && prev != some '\\' then some i else go (some x) (i + 1) xs

/-- The parts of a text between separators `c` that do not follow a backslash; a separator at
    the end leaves an empty last part. -/
def splitUnescaped (c : Char) (s : List Char) : List (List Char) :=
  if s.contains c then go s false else [s]
where
  /-- The parts of the rest, which follows a separator when `afterSep`. -/
  go (s : List Char) (afterSep : Bool) : List (List Char) :=
    match s with
    | [] => if afterSep then [[]] else []
    | x :: xs =>
      match h : findUnescaped c (x :: xs) with
      | none => [x :: xs]
      | some i => (x :: xs).take i :: go ((x :: xs).drop (i + 1)) true
  termination_by s.length
  decreasing_by rw [List.length_drop, List.length_cons]; omega

/-- The alternatives after an opening brace, split at top-level commas, and the length read up to
    and with the closing brace; none when it does not close. Nested braces and escapes are
    respected. -/
def splitAlternatives (s : List Char) : Option (List (List Char) × Nat) :=
  go s 1 false [] [] 0
where
  /-- Reads with `depth` open braces, `esc` after a backslash, the finished alternatives `alts`
      (last first), the current one `cur` (last character first), and `n` characters read. -/
  go : List Char → Nat → Bool → List (List Char) → List Char → Nat →
      Option (List (List Char) × Nat)
    | [], _, _, _, _, _ => none
    | x :: xs, depth, esc, alts, cur, n =>
      if esc then go xs depth false alts (x :: cur) (n + 1)
      else if x == '\\' then go xs depth true alts (x :: cur) (n + 1)
      else if x == '{' then go xs (depth + 1) false alts (x :: cur) (n + 1)
      else if x == '}' then
        if depth == 1 then some ((cur.reverse :: alts).reverse, n + 1)
        else go xs (depth - 1) false alts (x :: cur) (n + 1)
      else if x == ',' && depth == 1 then go xs depth false (cur.reverse :: alts) [] (n + 1)
      else go xs depth false alts (x :: cur) (n + 1)

/-- Whether a pattern piece can match the empty text: empty, `*`, `**`, or alternatives one of
    which can, followed by a piece that can. -/
def canBeEmpty : Nat → List Char → Except BadPattern Bool
  | 0, _ => .ok false
  | fuel + 1, p =>
    if p = [] ∨ p = ['*'] ∨ p = ['*', '*'] then .ok true
    else match p with
      | '{' :: rest =>
        match splitAlternatives rest with
        | none => .error {}
        | some (options, stop) => do
          if !(← canBeEmpty fuel (rest.drop stop)) then return false
          for o in options do
            if ← canBeEmpty fuel o then return true
          return false
      | _ => .ok false

/-- Whether a character is in a class, its text between the brackets; an error for a malformed
    class. -/
def classMatches (cls : List Char) (c : Char) : Except BadPattern Bool :=
  match cls with
  | [] => .error {}
  | first :: _ =>
    let negate := first == '^'
    match go cls.length (if negate then cls.drop 1 else cls) false with
    | .ok found => .ok (found != negate)
    | .error e => .error e
where
  /-- Reads the ranges of the class, `found` once one holds `c`; `fuel` bounds the steps. -/
  go : Nat → List Char → Bool → Except BadPattern Bool
    | _, [], found => .ok found
    | 0, _ :: _, found => .ok found
    | fuel + 1, lo :: rest, found =>
      if lo == '-' then .error {}
      else
        let (lo, rest) : Option Char × List Char :=
          if lo == '\\' then (rest.head?, rest.drop 1) else (some lo, rest)
        match lo with
        | none => .error {}
        | some lo =>
          match rest with
          | '-' :: rest' =>
            match rest' with
            | [] => .error {}
            | hi :: rest'' =>
              if hi == '-' then .error {}
              else
                let (hi, rest'') : Option Char × List Char :=
                  if hi == '\\' then (rest''.head?, rest''.drop 1) else (some hi, rest'')
                match hi with
                | none => .error {}
                | some hi => go fuel rest'' (found || (decide (lo ≤ c) && decide (c ≤ hi)))
          | _ => go fuel rest (found || (decide (lo ≤ c) && decide (c ≤ lo)))

/-- The text before the first unescaped slash, and what follows that slash if there is one. -/
def firstPiece (p : List Char) : List Char × Option (List Char) :=
  match findUnescaped '/' p with
  | some i => (p.take i, some (p.drop (i + 1)))
  | none => (p, none)

/-- The first outcome of `f` over the candidates that is a match; an error stops the search. -/
def firstMatch {α : Type} (f : α → Except BadPattern Step) : List α → Except BadPattern Step
  | [] => .ok none
  | x :: xs => do
    match ← f x with
    | none => firstMatch f xs
    | r => return r

/-- The non-empty tails of a list, longest first. -/
def nonEmptyTails {α : Type} : List α → List (List α)
  | [] => []
  | x :: xs => (x :: xs) :: nonEmptyTails xs

/-- Matches a pattern against one path piece; `fuel` bounds the steps. Every alternative of a
    brace is tried, so a malformed one is an error even when another matches. -/
def matchPiece : Nat → List Char → List Char → Except BadPattern Step
  | 0, _, _ => .ok none
  | fuel + 1, c :: p, m :: n =>
    if c == '/' then .ok none
    else if c == '\\' then
      match p with
      | [] => .error {}
      | e :: p' =>
        if e == '\uFFFD' then .error {}
        else if e == m then matchPiece fuel p' n
        else .ok none
    else if c == '*' then
      match p with
      | [] => .ok (some [])
      | '/' :: rest => .ok (some [rest])
      | _ => firstMatch (fun t => matchPiece fuel p t) (nonEmptyTails (m :: n))
    else if c == '[' then
      match findUnescaped ']' p with
      | none => .error {}
      | some e => do
        if ← classMatches (p.take e) m then matchPiece fuel (p.drop (e + 1)) n
        else return none
    else if c == '{' then
      match splitAlternatives p with
      | none => .error {}
      | some (options, stop) => do
        let ways ← options.mapM fun o => matchPiece fuel (o ++ p.drop stop) (m :: n)
        let found := ways.filterMap id
        return if found.isEmpty then none else some found.flatten
    else if c == '?' || c == m then matchPiece fuel p n
    else .ok none
  | fuel + 1, p, [] =>
    if p.isEmpty then .ok (some [])
    else
      let (test, after) := firstPiece p
      match canBeEmpty (fuel + 1) test with
      | .error e => .error e
      | .ok false => .ok none
      | .ok true => .ok (some (after.toList))
  | _ + 1, [], _ :: _ => .ok none

/-- Whether `f` holds of some candidate, trying them in order; an error stops the search. -/
def anyHolds {α : Type} (f : α → Except BadPattern Bool) : List α → Except BadPattern Bool
  | [] => .ok false
  | x :: xs => do if ← f x then return true else anyHolds f xs

/-- Matches a pattern against the pieces of a path; `fuel` bounds the steps. -/
def matchPieces : Nat → List Char → List (List Char) → Except BadPattern Bool
  | 0, _, _ => .ok false
  | fuel + 1, pattern, pieces =>
    if pattern.isEmpty && (pieces.isEmpty || pieces == [[]]) then .ok true
    else
      match firstPiece pattern with
      | (['*', '*'], none) => .ok true
      | (['*', '*'], some rest) =>
        .ok ((List.range pieces.length).any fun i =>
          match matchPieces fuel rest (pieces.drop i) with
          | .ok b => b
          | .error _ => false)
      | _ =>
        match pieces with
        | [] => .ok false
        | piece :: more => do
          match ← matchPiece (pattern.length + 1) pattern piece with
          | none => return false
          | some ways =>
            if more.isEmpty then return ways.isEmpty
            else anyHolds (fun alt => matchPieces fuel alt more) ways

/-- Whether a pattern matches a slash-separated path; an error when the matcher reaches a
    malformed part of the pattern. -/
def matches? (pattern name : String) : Except BadPattern Bool :=
  matchPieces (pattern.length + 1) pattern.toList (splitUnescaped '/' name.toList)

end Unalias.Glob
