import Unalias.Bytes

/-! # White space

White space here is the Unicode White_Space set: the ASCII blanks tab, line feed, vertical tab,
form feed, carriage return and space, next line, no-break space, and the space separators, line
separator and paragraph separator above them. Trimming takes it off both ends of a text, and off
both ends of a byte string read as UTF-8, where a byte that starts no well-formed sequence is not
white space.
-/

namespace Unalias

/-- Whether a code point is white space. -/
def IsSpaceCode (n : Nat) : Bool :=
  (9 ≤ n && n ≤ 13) || n == 32 || n == 0x85 || n == 0xA0 || n == 0x1680 ||
    (0x2000 ≤ n && n ≤ 0x200A) || n == 0x2028 || n == 0x2029 || n == 0x202F ||
    n == 0x205F || n == 0x3000

/-- Whether a character is white space. -/
def IsSpace (c : Char) : Bool := IsSpaceCode c.toNat

/-- The text without white space at either end. -/
def trimSpace (s : String) : String :=
  String.ofList ((s.toList.dropWhile IsSpace).reverse.dropWhile IsSpace).reverse

/-- The UTF-8 forms of the white space characters. -/
def spaceForms : List Bytes :=
  ([9, 10, 11, 12, 13, 32, 0x85, 0xA0, 0x1680, 0x2000, 0x2001, 0x2002, 0x2003, 0x2004, 0x2005,
    0x2006, 0x2007, 0x2008, 0x2009, 0x200A, 0x2028, 0x2029, 0x202F, 0x205F, 0x3000] : List Nat).map
    fun n => Bytes.ofString (Char.ofNat n).toString

namespace Bytes

/-- The bytes without leading white space; `fuel` bounds the steps. -/
def dropSpace : Nat → Bytes → Bytes
  | 0, bs => bs
  | fuel + 1, bs =>
    match spaceForms.find? (·.isPrefixOf bs) with
    | some f => dropSpace fuel (bs.drop f.length)
    | none => bs

/-- The bytes without trailing white space; `fuel` bounds the steps. -/
def dropSpaceEnd : Nat → Bytes → Bytes
  | 0, bs => bs
  | fuel + 1, bs =>
    match spaceForms.find? (·.isSuffixOf bs) with
    | some f => dropSpaceEnd fuel (bs.take (bs.length - f.length))
    | none => bs

/-- The bytes without white space at either end. -/
def trimSpace (bs : Bytes) : Bytes := dropSpaceEnd bs.length (dropSpace bs.length bs)

/-- Whether the bytes start with white space. -/
def StartsWithSpace (bs : Bytes) : Bool := spaceForms.any (·.isPrefixOf bs)

end Bytes

end Unalias
