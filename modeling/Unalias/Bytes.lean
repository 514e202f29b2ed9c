/-! # Byte strings

File contents, import specifiers and file paths are byte strings: a compiled file may hold any
bytes, and a specifier cut out of it carries them into every path built from it. Nothing here
assumes UTF-8. Text is decoded only where it is shown, by `Bytes.decode`, which puts U+FFFD in
place of each byte that does not start a well-formed UTF-8 sequence.
-/

namespace Unalias

/-- A byte string. -/
abbrev Bytes := List UInt8

namespace Bytes

/-- The UTF-8 bytes of a text. -/
def ofString (s : String) : Bytes := s.toUTF8.toList

/-- The decimal digits of a natural number. -/
def ofNat (n : Nat) : Bytes := ofString (toString n)

/-- The decimal text of an integer, with a leading minus sign when negative. -/
def ofInt (i : Int) : Bytes := ofString (toString i)

/-- A byte that continues a multi-byte sequence. -/
def IsTail (b : UInt8) : Bool := 0x80 ≤ b && b ≤ 0xBF

/-- The width of the well-formed UTF-8 sequence at the head of the bytes, with the code point it
    encodes, or `none` when the head byte starts no well-formed sequence (RFC 3629: no overlong
    form, no surrogate, nothing above U+10FFFF). -/
def headRune : Bytes → Option (Nat × Nat)
  | [] => none
  | a :: rest =>
    let t (b : UInt8) : Nat := b.toNat - 0x80
    if a < 0x80 then some (1, a.toNat)
    else if 0xC2 ≤ a && a ≤ 0xDF then
      match rest with
      | b :: _ => if IsTail b then some (2, (a.toNat - 0xC0) * 64 + t b) else none
      | [] => none
    else if 0xE0 ≤ a && a ≤ 0xEF then
      match rest with
      | b :: c :: _ =>
        let lo : UInt8 := if a = 0xE0 then 0xA0 else 0x80
        let hi : UInt8 := if a = 0xED then 0x9F else 0xBF
        if lo ≤ b && b ≤ hi && IsTail c then
          some (3, (a.toNat - 0xE0) * 4096 + t b * 64 + t c)
        else none
      | _ => none
    else if 0xF0 ≤ a && a ≤ 0xF4 then
      match rest with
      | b :: c :: d :: _ =>
        let lo : UInt8 := if a = 0xF0 then 0x90 else 0x80
        let hi : UInt8 := if a = 0xF4 then 0x8F else 0xBF
        if lo ≤ b && b ≤ hi && IsTail c && IsTail d then
          some (4, (a.toNat - 0xF0) * 262144 + t b * 4096 + t c * 64 + t d)
        else none
      | _ => none
    else none

/-- The code points of the bytes, each byte that starts no well-formed sequence read as
    `none`, on its own. -/
def codePoints : Bytes → List (Option Nat)
  | [] => []
  | a :: rest =>
    match headRune (a :: rest) with
    | some (w, c) => some c :: codePoints (rest.drop (w - 1))
    | none => none :: codePoints rest
termination_by bs => bs.length
decreasing_by
  · rw [List.length_drop, List.length_cons]; omega
  · rw [List.length_cons]; omega

/-- The text the bytes spell, with U+FFFD for each byte that starts no well-formed sequence. -/
def decode (bs : Bytes) : String :=
  String.ofList ((codePoints bs).map fun r => Char.ofNat (r.getD 0xFFFD))

/-- Whether the bytes are well-formed UTF-8. -/
def IsUtf8 (bs : Bytes) : Bool := (codePoints bs).all Option.isSome

/-- The text the bytes spell, when they are well-formed UTF-8. -/
def toString? (bs : Bytes) : Option String :=
  if IsUtf8 bs then some (decode bs) else none

/-- The pieces between the separator bytes, in order: one more piece than there are separators,
    so that a separator at either end gives an empty piece there. -/
def split (sep : UInt8) : Bytes → List Bytes
  | [] => [[]]
  | b :: bs =>
    if b == sep then [] :: split sep bs
    else
      match split sep bs with
      | p :: ps => (b :: p) :: ps
      | [] => [[b]]

/-- The value of a non-empty run of ASCII digits; none when empty or when another byte is in
    it. -/
def digitsValue (bs : Bytes) : Option Nat :=
  if bs.isEmpty || bs.any (fun b => b < 48 || 57 < b) then none
  else some (bs.foldl (fun n b => 10 * n + (b.toNat - 48)) 0)

/-- A decimal integer with an optional sign, read when it fits in 64 bits with sign. Nothing
    else may stand in the bytes: no blank, no digit separator, no fraction. -/
def toInt64? (bs : Bytes) : Option Int :=
  let (negative, digits) : Bool × Bytes :=
    match bs with
    | 45 :: rest => (true, rest)
    | 43 :: rest => (false, rest)
    | _ => (false, bs)
  match digitsValue digits with
  | none => none
  | some n =>
    let v : Int := if negative then -(n : Int) else n
    if -((Nat.pow 2 63 : Nat) : Int) ≤ v && v < ((Nat.pow 2 63 : Nat) : Int) then some v else none

/-- Every byte string shorter than `n` bytes. -/
def allShorter : Nat → List Bytes
  | 0 => []
  | n + 1 => [] :: (List.range 256).flatMap fun b => (allShorter n).map (b.toUInt8 :: ·)

theorem mem_allShorter : ∀ {n : Nat} {bs : Bytes}, bs.length < n → bs ∈ allShorter n
  | _ + 1, [], _ => by simp [allShorter]
  | n + 1, b :: bs, h => by
    simp only [allShorter, List.mem_cons, List.mem_flatMap, List.mem_range, List.mem_map]
    right
    refine ⟨b.toNat, b.toNat_lt, bs, mem_allShorter (by simp at h; omega), ?_⟩
    simp

end Bytes

end Unalias
