import Unalias.Csv
import Unalias.Text.Quoted

/-! # Values of command-line flags

A flag's value is read from the text that follows it. A switch reads the words `1 t T TRUE true
True` as on and `0 f F FALSE false False` as off. A number is an integer literal that fits in 64
bits with sign: an optional sign, then decimal digits, or after `0b`, `0o` or `0x` binary, octal
or hexadecimal digits, or after a lone leading `0` octal digits; underscores may stand between
digits and after a base prefix. A list of patterns is read as one comma-separated record, so a
pattern holding a comma is written in double quotes.

A value that cannot be read is reported in the words of the reader that refused it.
-/

namespace Unalias.Command

/-- Why a number cannot be read. -/
inductive NumberProblem where
  /-- The text is not an integer literal. -/
  | malformed
  /-- The literal does not fit in 64 bits. -/
  | tooLarge
  deriving DecidableEq, Repr

/-- The text of the problem. -/
def NumberProblem.text : NumberProblem → String
  | .malformed => "invalid syntax"
  | .tooLarge => "value out of range"

/-- The byte with the lower-case bit set, which lower-cases an ASCII letter. -/
def lowerByte (c : UInt8) : UInt8 := c ||| 32

/-- The value of a digit or letter as a digit, letters counting from ten. -/
def digitValue (c : UInt8) : Option Nat :=
  if 48 ≤ c && c ≤ 57 then some (c.toNat - 48)
  else if 97 ≤ lowerByte c && lowerByte c ≤ 122 then some ((lowerByte c).toNat - 87)
  else none

/-- The base a literal is written in, and its digits after the base prefix. -/
def baseOf (s : Bytes) : Nat × Bytes :=
  match s with
  | 48 :: c :: rest =>
    if rest.isEmpty then (8, c :: rest)
    else if lowerByte c == 98 then (2, rest)
    else if lowerByte c == 111 then (8, rest)
    else if lowerByte c == 120 then (16, rest)
    else (8, c :: rest)
  | 48 :: rest => (8, rest)
  | _ => (10, s)

/-- The largest value of 64 bits without sign. -/
def maxUnsigned : Nat := Nat.pow 2 64 - 1

/-- The value of digits in a base, read from the left onto `n`; underscores are passed over. -/
def digitsIn (base : Nat) : Nat → Bytes → Except NumberProblem Nat
  | n, [] => .ok n
  | n, c :: rest =>
    if c == 95 then digitsIn base n rest
    else
      match digitValue c with
      | none => .error .malformed
      | some d =>
        if base ≤ d then .error .malformed
        else if maxUnsigned < n * base + d then .error .tooLarge
        else digitsIn base (n * base + d) rest

/-- Whether the underscores of a literal stand only between digits, or between a base prefix
    and a digit. -/
def UnderscoresFit (s : Bytes) : Bool :=
  let s := match s with
    | 45 :: r => r
    | 43 :: r => r
    | _ => s
  let (start, hex, digits) : Char × Bool × Bytes := match s with
    | 48 :: c :: r =>
      if lowerByte c == 98 || lowerByte c == 111 || lowerByte c == 120 then ('0', lowerByte c == 120, r)
      else ('^', false, s)
    | _ => ('^', false, s)
  let step (saw : Option Char) (c : UInt8) : Option Char := saw.bind fun saw =>
    if (48 ≤ c && c ≤ 57) || (hex && 97 ≤ lowerByte c && lowerByte c ≤ 102) then some '0'
    else if c == 95 then (if saw == '0' then some '_' else none)
    else if saw == '_' then none
    else some '!'
  match digits.foldl step (some start) with
  | some saw => saw != '_'
  | none => false

/-- A literal without sign read as a value of 64 bits. -/
def readUnsigned (s : Bytes) : Except NumberProblem Nat := do
  if s.isEmpty then throw .malformed
  let (base, digits) := baseOf s
  let n ← digitsIn base 0 digits
  if s.contains 95 && !UnderscoresFit s then throw .malformed
  pure n

/-- A literal with optional sign read as a value of 64 bits with sign. -/
def readInteger (s : Bytes) : Except NumberProblem Int :=
  if s.isEmpty then .error .malformed
  else
    let (negative, u) : Bool × Bytes := match s with
      | 43 :: r => (false, r)
      | 45 :: r => (true, r)
      | _ => (false, s)
    match readUnsigned u with
    | .error .malformed => .error .malformed
    | .error .tooLarge => .error .tooLarge
    | .ok n =>
      if !negative && Nat.pow 2 63 ≤ n then .error .tooLarge
      else if negative && Nat.pow 2 63 < n then .error .tooLarge
      else .ok (if negative then -(n : Int) else n)

/-- The words read as on and off. -/
def readSwitch (s : Bytes) : Option Bool :=
  if ["1", "t", "T", "TRUE", "true", "True"].any (Bytes.ofString · == s) then some true
  else if ["0", "f", "F", "FALSE", "false", "False"].any (Bytes.ofString · == s) then some false
  else none

/-- The reason a number cannot be read, in the reader's words. -/
def numberError (s : Bytes) (p : NumberProblem) : Bytes :=
  Bytes.ofString "strconv.ParseInt: parsing " ++ Text.quote s ++ Bytes.ofString (": " ++ p.text)

/-- The reason a switch cannot be read, in the reader's words. -/
def switchError (s : Bytes) : Bytes :=
  Bytes.ofString "strconv.ParseBool: parsing " ++ Text.quote s ++ Bytes.ofString ": invalid syntax"

/-- The patterns a list value holds: the fields of its first comma-separated record; none for
    the empty text. -/
def readPatterns (s : Bytes) : Except Bytes (List Bytes) :=
  if s.isEmpty then .ok []
  else
    match Csv.readFirst s with
    | .ok (some fields) => .ok fields
    | .ok none => .error (Bytes.ofString "EOF")
    | .error e => .error (Bytes.ofString e.text)

end Unalias.Command
