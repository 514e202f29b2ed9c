import Unalias.Bytes
import Unalias.Json.Value

/-! # Reading JSON

A strict reader for RFC 8259 text over bytes: one value between optional blanks (space, tab,
line feed, carriage return) and nothing after it; numbers without leading zeros; strings of
well-formed UTF-8 without raw control characters, with the escapes `\" \\ \/ \b \f \n \r \t`
and `\uXXXX`, where a surrogate must pair up. Anything else is refused with a short reason.
-/

namespace Unalias.Json

/-- Whether a byte is a JSON blank. -/
def IsBlank (b : UInt8) : Bool := b == 32 || b == 9 || b == 10 || b == 13

/-- Whether a byte is an ASCII digit. -/
def IsDigit (b : UInt8) : Bool := 48 ≤ b && b ≤ 57

/-- The bytes after the leading blanks. -/
def skipBlanks (s : Bytes) : Bytes := s.dropWhile IsBlank

/-- The value of a hexadecimal digit. -/
def hexValue (b : UInt8) : Option Nat :=
  if 48 ≤ b && b ≤ 57 then some (b.toNat - 48)
  else if 97 ≤ b && b ≤ 102 then some (b.toNat - 87)
  else if 65 ≤ b && b ≤ 70 then some (b.toNat - 55)
  else none

/-- Four hexadecimal digits at the head of the bytes. -/
def hex4 : Bytes → Option (Nat × Bytes)
  | a :: b :: c :: d :: rest => do
    let x ← hexValue a
    let y ← hexValue b
    let z ← hexValue c
    let w ← hexValue d
    some (((x * 16 + y) * 16 + z) * 16 + w, rest)
  | _ => none

/-- The code point of an escape after its backslash, and the bytes after it. -/
def escapeAt : Bytes → Except String (Nat × Bytes)
  | 34 :: rest => .ok (34, rest)
  | 92 :: rest => .ok (92, rest)
  | 47 :: rest => .ok (47, rest)
  | 98 :: rest => .ok (8, rest)
  | 102 :: rest => .ok (12, rest)
  | 110 :: rest => .ok (10, rest)
  | 114 :: rest => .ok (13, rest)
  | 116 :: rest => .ok (9, rest)
  | 117 :: rest =>
    match hex4 rest with
    | none => .error "invalid escape sequence"
    | some (hi, rest) =>
      if 0xD800 ≤ hi && hi < 0xDC00 then
        match rest with
        | 92 :: 117 :: rest' =>
          match hex4 rest' with
          | some (lo, rest'') =>
            if 0xDC00 ≤ lo && lo < 0xE000 then
              .ok (0x10000 + (hi - 0xD800) * 1024 + (lo - 0xDC00), rest'')
            else .error "invalid surrogate pair"
          | none => .error "invalid escape sequence"
        | _ => .error "invalid surrogate pair"
      else if 0xDC00 ≤ hi && hi < 0xE000 then .error "invalid surrogate pair"
      else .ok (hi, rest)
  | _ => .error "invalid escape sequence"

/-- The characters of a string after its opening quote, up to and without the closing quote,
    and the bytes after the closing quote. -/
def stringBody (s : Bytes) : Except String (List Char × Bytes) :=
  go s.length s []
where
  /-- Reads with fuel at least the number of bytes left. -/
  go : Nat → Bytes → List Char → Except String (List Char × Bytes)
    | 0, _, _ => .error "unexpected end of input"
    | fuel + 1, bs, acc =>
      match bs with
      | [] => .error "unexpected end of input"
      | 34 :: rest => .ok (acc.reverse, rest)
      | 92 :: rest =>
        match escapeAt rest with
        | .ok (c, rest) => go fuel rest (Char.ofNat c :: acc)
        | .error e => .error e
      | b :: rest =>
        if b < 32 then .error "invalid character in string"
        else
          match Bytes.headRune (b :: rest) with
          | some (w, c) => go fuel (rest.drop (w - 1)) (Char.ofNat c :: acc)
          | none => .error "invalid UTF-8 in string"

/-- A run of digits at the head of the bytes: the digits and the rest. -/
def digits (s : Bytes) : Bytes × Bytes := (s.takeWhile IsDigit, s.dropWhile IsDigit)

/-- The sign of a number at the head of the bytes, a minus or nothing, and the rest. -/
def numberSign : Bytes → Bytes × Bytes
  | 45 :: rest => ([45], rest)
  | s => ([], s)

/-- The integer part of a number: a lone zero or a run of digits. -/
def integerPart (s : Bytes) : Except String (Bytes × Bytes) :=
  match s with
  | 48 :: rest => pure ([48], rest)
  | _ =>
    let (ds, rest) := digits s
    if ds.isEmpty then throw "invalid number" else pure (ds, rest)

/-- The fraction of a number, if one stands there: a point and a run of digits. -/
def fractionPart (s : Bytes) : Except String (Bytes × Bytes) :=
  match s with
  | 46 :: rest =>
    let (ds, rest) := digits rest
    if ds.isEmpty then throw "invalid number" else pure (46 :: ds, rest)
  | _ => pure ([], s)

/-- The exponent of a number, if one stands there: `e` or `E`, an optional sign and a run of
    digits. -/
def exponentPart (s : Bytes) : Except String (Bytes × Bytes) :=
  match s with
  | e :: rest =>
    if e == 101 || e == 69 then
      let (sg, rest) : Bytes × Bytes := match rest with
        | 43 :: r => ([43], r)
        | 45 :: r => ([45], r)
        | _ => ([], rest)
      let (ds, rest) := digits rest
      if ds.isEmpty then throw "invalid number" else pure (e :: sg ++ ds, rest)
    else pure ([], s)
  | [] => pure ([], s)

/-- A number at the head of the bytes: its literal and the rest. -/
def number (s : Bytes) : Except String (String × Bytes) := do
  let (sign, s) := numberSign s
  let (int, s) ← integerPart s
  let (frac, s) ← fractionPart s
  let (exp, s) ← exponentPart s
  pure (Bytes.decode (sign ++ int ++ frac ++ exp), s)

/-- A literal word at the head of the bytes. -/
def word (w : String) (v : JsonValue) (s : Bytes) : Except String (JsonValue × Bytes) :=
  let wb := Bytes.ofString w
  if wb.isPrefixOf s then .ok (v, s.drop wb.length) else .error "invalid literal"

mutual

/-- A value after optional blanks, and the bytes after it; `fuel` bounds the nesting. -/
def value : Nat → Bytes → Except String (JsonValue × Bytes)
  | 0, _ => .error "nesting too deep"
  | fuel + 1, s =>
    match skipBlanks s with
    | [] => .error "unexpected end of input"
    | 123 :: rest => members fuel (skipBlanks rest) true []
    | 91 :: rest => items fuel (skipBlanks rest) true []
    | 34 :: rest => do
      let (cs, rest) ← stringBody rest
      pure (.string (String.ofList cs), rest)
    | 116 :: _ => word "true" (.bool true) (skipBlanks s)
    | 102 :: _ => word "false" (.bool false) (skipBlanks s)
    | 110 :: _ => word "null" .null (skipBlanks s)
    | b :: _ =>
      if b == 45 || IsDigit b then do
        let (lit, rest) ← number (skipBlanks s)
        pure (.number lit, rest)
      else .error "invalid character"

/-- The members of an object after its opening brace; `first` when none has been read. -/
def members : Nat → Bytes → Bool → List (String × JsonValue) →
    Except String (JsonValue × Bytes)
  | 0, _, _, _ => .error "nesting too deep"
  | fuel + 1, s, first, acc =>
    match s with
    | 125 :: rest => if first then .ok (.object acc.reverse, rest) else .error "expected name"
    | 34 :: rest => do
      let (cs, rest) ← stringBody rest
      match skipBlanks rest with
      | 58 :: rest => do
        let (v, rest) ← value fuel rest
        match skipBlanks rest with
        | 44 :: rest => members fuel (skipBlanks rest) false ((String.ofList cs, v) :: acc)
        | 125 :: rest => .ok (.object ((String.ofList cs, v) :: acc).reverse, rest)
        | _ => .error "expected a comma or a closing brace"
      | _ => .error "expected a colon"
    | _ => .error "expected name"

/-- The items of an array after its opening bracket; `first` when none has been read. -/
def items : Nat → Bytes → Bool → List JsonValue → Except String (JsonValue × Bytes)
  | 0, _, _, _ => .error "nesting too deep"
  | fuel + 1, s, first, acc =>
    match s with
    | 93 :: rest => if first then .ok (.array acc.reverse, rest) else .error "expected value"
    | _ => do
      let (v, rest) ← value fuel s
      match skipBlanks rest with
      | 44 :: rest => items fuel (skipBlanks rest) false (v :: acc)
      | 93 :: rest => .ok (.array (v :: acc).reverse, rest)
      | _ => .error "expected a comma or a closing bracket"

end

/-- The one value a text holds, between optional blanks. -/
def parse (s : Bytes) : Except String JsonValue := do
  let (v, rest) ← value (2 * s.length + 2) s
  if (skipBlanks rest).isEmpty then pure v else throw "invalid character after top-level value"

end Unalias.Json
