import Unalias.Bytes
import Unalias.Json.Parse
import Unalias.Json.Value
import Unalias.Text.Quoted

/-! # Writing JSON

Values are written with two blanks of indentation per level, one member or item per line, and
`"name": value` for members; an empty array is `[]` and an empty object `{}` on one line. In
strings, a quote and a backslash get a backslash, the control characters backspace, tab, line
feed, form feed and carriage return their one-letter escapes, the other control characters a
`\u00XX` escape in lower-case hexadecimal, and everything else stands as it is.
-/

namespace Unalias.Json

/-- The bytes that stand for one character inside a JSON string. -/
def escapeChar (c : Char) : Bytes :=
  match c with
  | '"' => Bytes.ofString "\\\""
  | '\\' => Bytes.ofString "\\\\"
  | '\x08' => Bytes.ofString "\\b"
  | '\t' => Bytes.ofString "\\t"
  | '\n' => Bytes.ofString "\\n"
  | '\x0c' => Bytes.ofString "\\f"
  | '\r' => Bytes.ofString "\\r"
  | c =>
    if c.toNat < 32 then Bytes.ofString "\\u" ++ Text.hexDigits c.toNat 4
    else Bytes.ofString c.toString

/-- A string as a JSON string literal. -/
def quoteString (s : String) : Bytes := 34 :: (s.toList.flatMap escapeChar ++ [34])

/-- The blanks that indent a line at a depth. -/
def indentAt (depth : Nat) : Bytes := List.replicate (2 * depth) 32

/-- A value written at a nesting depth, its first line not indented. -/
def render (depth : Nat) : JsonValue → Bytes
  | .null => Bytes.ofString "null"
  | .bool b => Bytes.ofString (if b then "true" else "false")
  | .number lit => Bytes.ofString lit
  | .string s => quoteString s
  | .array [] => Bytes.ofString "[]"
  | .array (v :: vs) =>
    Bytes.ofString "[\n" ++ indentAt (depth + 1) ++ render (depth + 1) v ++
      items depth vs ++ [10] ++ indentAt depth ++ Bytes.ofString "]"
  | .object [] => Bytes.ofString "\x7b\x7d"
  | .object ((k, v) :: ms) =>
    Bytes.ofString "\x7b\n" ++ indentAt (depth + 1) ++ quoteString k ++ Bytes.ofString ": " ++
      render (depth + 1) v ++ members depth ms ++ [10] ++ indentAt depth ++ Bytes.ofString "\x7d"
where
  /-- The items after the first, each on its own line after a comma. -/
  items (depth : Nat) : List JsonValue → Bytes
    | [] => []
    | v :: vs => Bytes.ofString ",\n" ++ indentAt (depth + 1) ++ render (depth + 1) v ++ items depth vs
  /-- The members after the first, each on its own line after a comma. -/
  members (depth : Nat) : List (String × JsonValue) → Bytes
    | [] => []
    | (k, v) :: ms =>
      Bytes.ofString ",\n" ++ indentAt (depth + 1) ++ quoteString k ++ Bytes.ofString ": " ++
        render (depth + 1) v ++ members depth ms

/-- The JSON library the program runs with: this writer, and the reader of `Json.parse`. -/
def standardCodec : JsonCodec := ⟨render 0, parse⟩

end Unalias.Json
