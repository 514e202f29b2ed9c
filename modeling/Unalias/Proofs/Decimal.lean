import Mathlib.Data.List.Basic
import Mathlib.Tactic.Conv
import Unalias.Proofs.Utf8

/-! # Decimal integers as bytes

The decimal text of a number is ASCII: its bytes are the codes of `Nat.toDigits`, all digits,
with no leading zero. The text of a negative integer puts a minus sign before the digits of its
magnitude. Reading such a text back with `Bytes.toInt64?` gives the integer again whenever it
fits in 64 bits with sign (`toInt64?_ofInt`).
-/

namespace Unalias.Bytes


theorem ofString_ofList_of_ascii {cs : List Char} (h : ∀ c ∈ cs, c.toNat < 128) :
    ofString (String.ofList cs) = cs.map Char.toUInt8 := by
  rw [ofString_ofList]
  induction cs with
  | nil => rfl
  | cons c cs ih =>
    have hc : c.utf8Size = 1 :=
      Char.utf8Size_eq_one_iff.2 (UInt32.le_iff_toNat_le.2 (by
        have := h c (List.mem_cons_self ..); simp only [UInt32.reduceToNat]; exact Nat.le_of_lt_succ this))
    rw [List.flatMap_cons, String.utf8EncodeChar_eq_singleton hc,
      ih (fun c' hc' => h c' (List.mem_cons_of_mem _ hc')), List.map_cons]
    rfl

theorem toNat_toUInt8_of_isDigit {c : Char} (h : c.isDigit) : c.toUInt8.toNat = c.toNat := by
  have := Char.isDigit_iff_toNat.1 h
  simp only [Char.reduceToNat] at this
  show c.val.toUInt8.toNat = c.toNat
  rw [UInt32.toNat_toUInt8, Char.toNat_val]
  omega

theorem ofNat_eq_map (n : Nat) : ofNat n = (Nat.toDigits 10 n).map Char.toUInt8 := by
  rw [ofNat, Nat.toString_eq_ofList_toDigits]
  refine ofString_ofList_of_ascii fun c hc => ?_
  have := Char.isDigit_iff_toNat.1 (Nat.isDigit_of_mem_toDigits (by decide) (by decide) hc)
  simp only [Char.reduceToNat] at this
  omega

theorem digit_of_mem_ofNat {n : Nat} {b : UInt8} (h : b ∈ ofNat n) :
    48 ≤ b.toNat ∧ b.toNat ≤ 57 := by
  rw [ofNat_eq_map, List.mem_map] at h
  obtain ⟨c, hc, rfl⟩ := h
  have hd := Nat.isDigit_of_mem_toDigits (by decide) (by decide) hc
  have := Char.isDigit_iff_toNat.1 hd
  simp only [Char.reduceToNat] at this
  rw [toNat_toUInt8_of_isDigit hd]
  exact this

theorem foldl_ofNat (n : Nat) : (ofNat n).foldl (fun n b => 10 * n + (b.toNat - 48)) 0 = n := by
  rw [ofNat_eq_map, List.foldl_map]
  conv_rhs => rw [← Nat.ofDigitChars_ten_toDigits (n := n)]
  rw [Nat.ofDigitChars]
  refine List.foldl_ext _ _ _ fun a c hc => ?_
  rw [toNat_toUInt8_of_isDigit (Nat.isDigit_of_mem_toDigits (by decide) (by decide) hc)]
  rfl

theorem ofNat_ne_nil (n : Nat) : ofNat n ≠ [] := by
  rw [ofNat_eq_map]; simp

theorem digitsValue_ofNat (n : Nat) : digitsValue (ofNat n) = some n := by
  rw [digitsValue, if_neg, foldl_ofNat]
  simp only [Bool.or_eq_true, List.isEmpty_iff, List.any_eq_true, not_or, not_exists, not_and]
  refine ⟨ofNat_ne_nil n, fun b hb => ?_⟩
  have := digit_of_mem_ofNat hb
  simp only [decide_eq_true_eq, UInt8.lt_iff_toNat_lt, UInt8.reduceToNat]
  omega

theorem ofNat_cons_of_pos {n : Nat} (h : 0 < n) : ∃ d ds, ofNat n = d :: ds ∧ d ≠ 48 := by
  induction n using Nat.strongRecOn with
  | ind n ih =>
  rw [ofNat_eq_map, Nat.toDigits_eq_if (by decide)]
  split
  · rename_i hlt
    refine ⟨_, [], rfl, fun h48 => ?_⟩
    have := congrArg UInt8.toNat h48
    rw [toNat_toUInt8_of_isDigit (by simp [hlt]), Nat.toNat_digitChar_of_lt_ten hlt] at this
    simp at this; omega
  · obtain ⟨d, ds, hd, hne⟩ := ih (n / 10) (by omega) (by omega)
    rw [ofNat_eq_map] at hd
    exact ⟨d, ds ++ _, by rw [List.map_append, hd, List.cons_append], hne⟩

theorem ofNat_zero : ofNat 0 = [48] := by decide +kernel

theorem ofInt_natCast (m : Nat) : ofInt (m : Int) = ofNat m := rfl

theorem ofInt_negSucc (m : Nat) : ofInt (Int.negSucc m) = 45 :: ofNat (m + 1) := by
  show ofString ("-" ++ toString (m + 1)) = _
  rw [ofString_append, show ofString "-" = [45] by decide +kernel]
  rfl

theorem ofInt_ne_nil (i : Int) : ofInt i ≠ [] := by
  cases i with
  | ofNat m => exact ofNat_ne_nil m
  | negSucc m => rw [ofInt_negSucc]; exact List.cons_ne_nil _ _

theorem mem_ofInt {i : Int} {b : UInt8} (h : b ∈ ofInt i) :
    (48 ≤ b.toNat ∧ b.toNat ≤ 57) ∨ b = 45 := by
  cases i with
  | ofNat m => exact .inl (digit_of_mem_ofNat h)
  | negSucc m =>
    rw [ofInt_negSucc, List.mem_cons] at h
    rcases h with rfl | h
    · exact .inr rfl
    · exact .inl (digit_of_mem_ofNat h)

theorem int_pow_63 : (((Nat.pow 2 63 : Nat) : Int)) = 2 ^ 63 := by
  rw [Nat.pow_eq, Int.natCast_pow]
  rfl

/-- Bytes that start with a digit carry no sign: they read as their digits' value, when it is
    below `2 ^ 63`. -/
theorem toInt64?_of_digit {d : UInt8} {ds : Bytes} (hd : 48 ≤ d.toNat ∧ d.toNat ≤ 57) :
    toInt64? (d :: ds) =
      (digitsValue (d :: ds)).bind fun n => if (n : Int) < 2 ^ 63 then some (n : Int) else none := by
  unfold toInt64?
  -- the bound stays a name, so that no step evaluates the power
  generalize hP : Nat.pow 2 63 = P
  have hP' : (P : Int) = 2 ^ 63 := hP ▸ int_pow_63
  split
  rename_i negative digits heq
  -- the sign is read off the first byte, which is a digit
  split at heq
  · rename_i hsign; simp only [List.cons.injEq] at hsign; rw [hsign.1] at hd; simp at hd
  · rename_i hsign; simp only [List.cons.injEq] at hsign; rw [hsign.1] at hd; simp at hd
  · simp only [Prod.mk.injEq] at heq
    obtain ⟨rfl, rfl⟩ := heq
    cases digitsValue (d :: ds) with
    | none => rfl
    | some n =>
      have h0 : -2 ^ 63 ≤ (n : Int) := by omega
      have hv : (if false = true then -(n : Int) else n) = n := rfl
      dsimp only
      rw [hv, Option.bind_some]
      simp only [Bool.and_eq_true, decide_eq_true_eq, hP', h0, true_and]

theorem toInt64?_minus (ds : Bytes) :
    toInt64? (45 :: ds) =
      (digitsValue ds).bind fun n => if -2 ^ 63 ≤ -(n : Int) then some (-(n : Int)) else none := by
  unfold toInt64?
  generalize hP : Nat.pow 2 63 = P
  have hP' : (P : Int) = 2 ^ 63 := hP ▸ int_pow_63
  split
  rename_i negative digits heq
  split at heq
  · simp only [Prod.mk.injEq] at heq
    obtain ⟨rfl, rfl⟩ := heq
    rename_i hsign
    simp only [List.cons.injEq, true_and] at hsign
    subst hsign
    cases digitsValue ds with
    | none => rfl
    | some n =>
      have h0 : -(n : Int) < 2 ^ 63 := by omega
      simp only [if_true, Option.bind_some, Bool.and_eq_true, decide_eq_true_eq, hP', h0, and_true]
  · rename_i hsign; simp at hsign
  · rename_i hno _; exact absurd rfl (hno ds)

/-- The decimal text of a 64-bit integer reads back as that integer. -/
theorem toInt64?_ofInt {i : Int} (h1 : -2 ^ 63 ≤ i) (h2 : i < 2 ^ 63) :
    toInt64? (ofInt i) = some i := by
  cases i with
  | ofNat m =>
    rw [Int.ofNat_eq_natCast, ofInt_natCast] at *
    obtain ⟨d, ds, hd⟩ := List.exists_cons_of_ne_nil (ofNat_ne_nil m)
    rw [hd, toInt64?_of_digit (digit_of_mem_ofNat (hd ▸ List.mem_cons_self)), ← hd,
      digitsValue_ofNat, Option.bind_some, if_pos h2]
  | negSucc m =>
    rw [ofInt_negSucc, toInt64?_minus, digitsValue_ofNat, Option.bind_some, Int.negSucc_eq,
      if_pos (by omega)]
    congr 1

end Unalias.Bytes
