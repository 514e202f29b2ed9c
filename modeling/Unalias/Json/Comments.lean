import Unalias.Bytes

/-! # JSON with comments

Project files may hold `//` and `/* */` comments and a comma before a closing bracket or brace.
Such text becomes plain JSON byte for byte: a comment turns into blanks, keeping its line
breaks, tabs and carriage returns; a comma that only blanks separate from the next `}` or `]`
turns into a blank; text inside strings is kept as it is. A block comment left open at the end
loses its last byte.
-/

namespace Unalias.Json

/-- Where the conversion stands. -/
inductive CommentMode where
  /-- In JSON text. -/
  | code
  /-- In a `//` comment. -/
  | line
  /-- In a `/* */` comment. -/
  | block
  /-- In a string. -/
  | text
  deriving DecidableEq, Repr

/-- The output so far, last byte first, with its last comma turned into a blank when only
    blanks follow it. -/
def blankTrailingComma : Bytes → Bytes
  | [] => []
  | b :: rest =>
    if b == 32 || b == 9 || b == 10 || b == 13 then b :: blankTrailingComma rest
    else if b == 44 then 32 :: rest
    else b :: rest

/-- A comment byte as it is kept: line breaks (in block comments), tabs and carriage returns
    stay, anything else becomes a blank. -/
def blankOut (keepNewline : Bool) (b : UInt8) : UInt8 :=
  if b == 9 || b == 13 || (keepNewline && b == 10) then b else 32

/-- Converts the rest of the input in the given mode onto the output, which is held last byte
    first. -/
def uncomment : CommentMode → Bytes → Bytes → Bytes
  | _, [], out => out
  | .code, 47 :: 47 :: rest, out => uncomment .line rest (32 :: 32 :: out)
  | .code, 47 :: 42 :: rest, out => uncomment .block rest (32 :: 32 :: out)
  | .code, 34 :: rest, out => uncomment .text rest (34 :: out)
  | .code, b :: rest, out =>
    if b == 125 || b == 93 then uncomment .code rest (b :: blankTrailingComma out)
    else uncomment .code rest (b :: out)
  | .line, 10 :: rest, out => uncomment .code rest (10 :: out)
  | .line, b :: rest, out => uncomment .line rest (blankOut false b :: out)
  | .block, [_], out => out
  | .block, 42 :: 47 :: rest, out => uncomment .code rest (32 :: 32 :: out)
  | .block, b :: rest, out => uncomment .block rest (blankOut true b :: out)
  | .text, 92 :: b :: rest, out => uncomment .text rest (b :: 92 :: out)
  | .text, 34 :: rest, out => uncomment .code rest (34 :: out)
  | .text, b :: rest, out => uncomment .text rest (b :: out)

/-- The plain JSON text of a text with comments and trailing commas. -/
def withoutComments (s : Bytes) : Bytes := (uncomment .code s []).reverse

end Unalias.Json
