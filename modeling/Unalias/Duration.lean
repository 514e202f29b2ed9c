import Unalias.Bytes

/-! # Durations as text

A duration in nanoseconds is written in the largest fitting units: below a microsecond in
`ns`, below a millisecond in `µs`, below a second in `ms`, all with a decimal fraction; from a
second on as hours, minutes and seconds, `1h2m3.5s`, leaving out leading zero units. The fraction
keeps no trailing zeros and no point when it is zero; zero is `0s`.
-/

namespace Unalias

/-- The digits of `v % 10^prec` after a point, without trailing zeros, and `v / 10^prec`. -/
def fractionText (v prec : Nat) : String × Nat :=
  let frac := v % Nat.pow 10 prec
  if frac = 0 then ("", v / Nat.pow 10 prec)
  else
    let digits := (toString frac).toList
    let padded := List.replicate (prec - digits.length) '0' ++ digits
    let trimmed := (padded.reverse.dropWhile (· == '0')).reverse
    ("." ++ String.ofList trimmed, v / Nat.pow 10 prec)

/-- The text of a non-negative duration in nanoseconds. -/
def durationTextNat (u : Nat) : String :=
  if u = 0 then "0s"
  else if u < 1000 then toString u ++ "ns"
  else if u < 1000000 then
    let (f, i) := fractionText u 3
    toString i ++ f ++ "µs"
  else if u < 1000000000 then
    let (f, i) := fractionText u 6
    toString i ++ f ++ "ms"
  else
    let (f, secs) := fractionText u 9
    let mins := secs / 60
    let hours := mins / 60
    let s := toString (secs % 60) ++ f ++ "s"
    if mins = 0 then s
    else if hours = 0 then toString (mins % 60) ++ "m" ++ s
    else toString hours ++ "h" ++ toString (mins % 60) ++ "m" ++ s

/-- The text of a duration in nanoseconds. -/
def durationText (d : Int) : String :=
  if d < 0 then "-" ++ durationTextNat d.natAbs else durationTextNat d.toNat

end Unalias
