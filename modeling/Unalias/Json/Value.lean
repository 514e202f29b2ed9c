import Unalias.Bytes

/-! # JSON values

A JSON document as written: numbers keep their literal text, and objects keep their members in
order with repeated names, so that a reader can apply its own policy for repeated names.

Writing a value as text and reading text back are the JSON library's work; the program takes
the library as a value (`JsonCodec`), so that what is proved of it rests only on what the
library is documented to do.
-/

namespace Unalias

/-- A JSON value as written. -/
inductive JsonValue where
  /-- `null`. -/
  | null
  /-- `true` or `false`. -/
  | bool (b : Bool)
  /-- A number, as its literal text. -/
  | number (literal : String)
  /-- A string. -/
  | string (s : String)
  /-- An array. -/
  | array (items : List JsonValue)
  /-- An object: its members in order, a repeated name kept each time. -/
  | object (members : List (String × JsonValue))
  deriving Repr, Inhabited

/-- A JSON library: it writes a value as text, indented by two blanks a level, and reads one
    value back from text, or says why it cannot. -/
structure JsonCodec where
  render : JsonValue → Bytes
  parse : Bytes → Except String JsonValue

/-- The kind of a value as a reader names the first token of it. -/
def JsonValue.kindText : JsonValue → String
  | .null => "null"
  | .bool true => "true"
  | .bool false => "false"
  | .number _ => "number"
  | .string _ => "string"
  | .array _ => "["
  | .object _ => "\x7b"

end Unalias
