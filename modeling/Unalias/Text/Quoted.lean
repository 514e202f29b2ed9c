import Unalias.Bytes
import Unalias.Text.Printable

/-! # Quoted literals

A byte string written between double quotes so that every byte can be read back: a quote and a
backslash get a backslash, printable characters stand as they are, the usual control characters
get their one-letter escapes, other characters below U+10000 are written `\uXXXX` and the rest
`\UXXXXXXXX`, and a byte that starts no well-formed UTF-8 sequence is written `\xXX`, all in
lower-case hexadecimal. A single character is written the same way between single quotes, where
the single quote is the one that gets a backslash.
-/

namespace Unalias.Text

/-- The lower-case hexadecimal digit of a value below 16. -/
def hexDigit (n : Nat) : UInt8 :=
  if n < 10 then (48 + n).toUInt8 else (87 + n).toUInt8

/-- The last `width` hexadecimal digits of a number, most significant first. -/
def hexDigits (n : Nat) : Nat → Bytes
  | 0 => []
  | width + 1 => hexDigits (n / 16) width ++ [hexDigit (n % 16)]

/-- The backslash. -/
def backslash : UInt8 := 92

/-- The escape for the character with code point `c`, whose own bytes are `bytes`, inside
    quotes `delim`. -/
def escapeRune (delim c : Nat) (bytes : Bytes) : Bytes :=
  if c = delim ∨ c = 92 then backslash :: bytes
  else if IsPrintable c then bytes
  else if c = 7 then Bytes.ofString "\\a"
  else if c = 8 then Bytes.ofString "\\b"
  else if c = 12 then Bytes.ofString "\\f"
  else if c = 10 then Bytes.ofString "\\n"
  else if c = 13 then Bytes.ofString "\\r"
  else if c = 9 then Bytes.ofString "\\t"
  else if c = 11 then Bytes.ofString "\\v"
  else if c < 32 ∨ c = 127 then Bytes.ofString "\\x" ++ hexDigits c 2
  else if c < 0x10000 then Bytes.ofString "\\u" ++ hexDigits c 4
  else Bytes.ofString "\\U" ++ hexDigits c 8

/-- The escaped body of a quoted literal, character by character. -/
def escape : Bytes → Bytes
  | [] => []
  | a :: rest =>
    match Bytes.headRune (a :: rest) with
    | some (w, c) => escapeRune 34 c ((a :: rest).take w) ++ escape (rest.drop (w - 1))
    | none => Bytes.ofString "\\x" ++ hexDigits a.toNat 2 ++ escape rest
termination_by bs => bs.length
decreasing_by
  · rw [List.length_drop, List.length_cons]; omega
  · rw [List.length_cons]; omega

/-- The bytes as a double-quoted literal. -/
def quote (bs : Bytes) : Bytes := 34 :: escape bs ++ [34]

/-- The character with code point `c` as a single-quoted literal. -/
def quoteChar (c : Nat) : Bytes :=
  39 :: escapeRune 39 c (Bytes.ofString (Char.ofNat c).toString) ++ [39]

end Unalias.Text
