import Unalias.Text.Space

/-! # Comma-separated records

Writing: fields are joined by commas and a record ends with a line feed. A field is quoted when
it holds a comma, a quote, a carriage return or a line feed, when it starts with white space, or
when it is exactly `\.`; inside quotes a quote is written twice.

Reading: lines end at a line feed, a carriage return before it dropped; empty lines are passed
over. A field that does not start with a quote runs to the next comma and may hold no quote; a
quoted field runs to a quote that is followed by a comma or the end of the line, holds doubled
quotes as single ones, and may go on over line ends. A quote anywhere else, or a quoted field left
open, is an error, reported with the line the record starts on and the line and byte column,
both counted from 1, where the reading stopped.
-/

namespace Unalias.Csv

/-- Whether a field is written in quotes. -/
def NeedsQuotes (field : Bytes) : Bool :=
  if field.isEmpty then false
  else field == Bytes.ofString "\\." || field.any (fun b => b == 10 || b == 13 || b == 34 || b == 44) ||
    Bytes.StartsWithSpace field

/-- A field as written. -/
def writeField (field : Bytes) : Bytes :=
  if NeedsQuotes field then 34 :: field.flatMap (fun b => if b == 34 then [34, 34] else [b]) ++ [34]
  else field

/-- A record as written, with its line feed. -/
def writeRecord (fields : List Bytes) : Bytes :=
  List.intercalate [44] (fields.map writeField) ++ [10]

/-- What is wrong where reading stopped. -/
inductive ReadProblem where
  /-- A quote in a field that is not quoted. -/
  | bareQuote
  /-- A quote in a quoted field that is neither doubled nor at its end, or a quoted field left
      open. -/
  | badQuote
  deriving DecidableEq, Repr

/-- The text of the problem. -/
def ReadProblem.text : ReadProblem → String
  | .bareQuote => "bare \" in non-quoted-field"
  | .badQuote => "extraneous or missing \" in quoted-field"

/-- Why a text is not comma-separated records: the problem, the line its record starts on, and
    the line and byte column where reading stopped. -/
structure ReadError where
  /-- What is wrong. -/
  problem : ReadProblem
  /-- The line the record starts on. -/
  startLine : Nat
  /-- The line where reading stopped. -/
  line : Nat
  /-- The byte column where reading stopped. -/
  column : Nat
  deriving DecidableEq, Repr

/-- The text of the error. -/
def ReadError.text (e : ReadError) : String :=
  let problem := e.problem.text
  let line := e.line
  let column := e.column
  let start := e.startLine
  if start = line then s!"parse error on line {line}, column {column}: {problem}"
  else s!"record on line {start}; parse error on line {line}, column {column}: {problem}"

/-- The next line with its line feed, a carriage return before the line feed, or before the end
    of the text, dropped; and the rest of the text. -/
def nextLine (s : Bytes) : Bytes × Bytes :=
  let body := s.takeWhile (· != 10)
  let rest := s.drop (body.length + 1)
  if body.length < s.length then
    (if body.getLast? == some 13 then body.dropLast ++ [10] else body ++ [10], rest)
  else
    (if body.getLast? == some 13 then body.dropLast else body, [])

/-- The line without its line feed. -/
def dropNewline (line : Bytes) : Bytes :=
  if line.getLast? == some 10 then line.dropLast else line

/-- Where a record is being read: the line it starts on, the number of lines read so far, and
    the line and byte column reached. -/
structure Place where
  /-- The line the record starts on. -/
  start : Nat
  /-- The number of lines read so far. -/
  lines : Nat
  /-- The line reached. -/
  line : Nat
  /-- The byte column reached. -/
  column : Nat
  deriving DecidableEq, Repr

/-- The error of a problem found at a line and column of a record. -/
def Place.fail (p : Place) (problem : ReadProblem) (line column : Nat) : ReadError :=
  { problem, startLine := p.start, line, column }

/-- The fields of a record from the rest of its current line `line` on, with `rest` the text
    after that line: the fields read so far are `fields` (last first). Gives the fields, the
    text after the record, and the number of lines read. `fuel` bounds the steps. -/
def readFields : Nat → Place → Bytes → Bytes → List Bytes →
    Except ReadError (List Bytes × Bytes × Nat)
  | 0, p, _, rest, fields => .ok (fields.reverse, rest, p.lines)
  | fuel + 1, p, line, rest, fields =>
    match line with
    | 34 :: quoted => readQuoted fuel { p with column := p.column + 1 } quoted rest fields []
    | _ =>
      let field := line.takeWhile (· != 44)
      let bare := field.takeWhile (· != 34)
      if field.length < line.length then
        if bare.length < field.length then .error (p.fail .bareQuote p.lines (p.column + bare.length))
        else
          readFields fuel { p with column := p.column + field.length + 1 }
            (line.drop (field.length + 1)) rest (field :: fields)
      else
        let field := dropNewline field
        if bare.length < field.length then .error (p.fail .bareQuote p.lines (p.column + bare.length))
        else .ok ((field :: fields).reverse, rest, p.lines)
where
  /-- Reads a quoted field on `line` after its opening quote, its bytes so far `cur`, last
      first. -/
  readQuoted : Nat → Place → Bytes → Bytes → List Bytes → Bytes →
      Except ReadError (List Bytes × Bytes × Nat)
    | 0, p, _, rest, fields, cur => .ok ((cur.reverse :: fields).reverse, rest, p.lines)
    | fuel + 1, p, line, rest, fields, cur =>
      let chunk := line.takeWhile (· != 34)
      if chunk.length < line.length then
        let cur := chunk.reverse ++ cur
        let p := { p with column := p.column + chunk.length + 1 }
        match line.drop (chunk.length + 1) with
        | 34 :: after => readQuoted fuel { p with column := p.column + 1 } after rest fields (34 :: cur)
        | 44 :: after => readFields fuel { p with column := p.column + 1 } after rest (cur.reverse :: fields)
        | after =>
          if after.isEmpty || after == [10] then .ok ((cur.reverse :: fields).reverse, rest, p.lines)
          else .error (p.fail .badQuote p.lines (p.column - 1))
      else if !line.isEmpty then
        let (next, rest') := nextLine rest
        let p := { p with lines := p.lines + 1, column := p.column + line.length }
        let p := if next.isEmpty then p else { p with line := p.line + 1, column := 1 }
        readQuoted fuel p next rest' fields (line.reverse ++ cur)
      else .error (p.fail .badQuote p.line p.column)

/-- The next record after `lines` lines were read, passing over empty lines: the record, the
    text after it, and the number of lines read; none at the end of the text. `fuel` bounds the
    steps. -/
def readRecord : Nat → Nat → Bytes → Except ReadError (Option (List Bytes × Bytes × Nat))
  | 0, _, _ => .ok none
  | fuel + 1, lines, s =>
    if s.isEmpty then .ok none
    else
      let (line, rest) := nextLine s
      if line.isEmpty || line == [10] then readRecord fuel (lines + 1) rest
      else
        let p : Place := { start := lines + 1, lines := lines + 1, line := lines + 1, column := 1 }
        (readFields (2 * s.length + 2) p line rest []).map some

/-- All records of a text after `lines` lines were read; `fuel` bounds the steps. -/
def readRecords : Nat → Nat → Bytes → Except ReadError (List (List Bytes))
  | 0, _, _ => .ok []
  | fuel + 1, lines, s => do
    match ← readRecord (s.length + 1) lines s with
    | none => pure []
    | some (fields, rest, lines) =>
      let more ← readRecords fuel lines rest
      pure (fields :: more)

/-- All records of a text. -/
def read (s : Bytes) : Except ReadError (List (List Bytes)) := readRecords (s.length + 1) 0 s

/-- The first record of a text; none when the text holds no record. -/
def readFirst (s : Bytes) : Except ReadError (Option (List Bytes)) :=
  (readRecord (s.length + 1) 0 s).map (·.map (·.1))

end Unalias.Csv
