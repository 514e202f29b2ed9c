import Mathlib
import Unalias.Bytes

/-! # UTF-8 as the byte strings read it

`Bytes.headRune` reads one well-formed UTF-8 sequence off the head of a byte string. Read on the
encoding of a character it gives that character's width and code point
(`headRune_utf8EncodeChar`), and whatever it reads is the encoding of a character
(`headRune_eq_some`). So the code points of a text's bytes are its characters
(`codePoints_ofString`), decoding a text's bytes gives the text back (`decode_ofString`), and
well-formed bytes are the bytes of the text they decode to (`ofString_decode`).
-/

namespace Unalias.Bytes

theorem byteArray_toList_loop (bs : ByteArray) (i : Nat) (r : List UInt8) :
    ByteArray.toList.loop bs i r = r.reverse ++ bs.data.toList.drop i := by
  fun_induction ByteArray.toList.loop bs i r with
  | case1 i r hi ih =>
    have hlt : i < bs.data.toList.length := by rw [Array.length_toList]; exact hi
    have hget : bs.get! i = bs.data.toList[i] := by
      cases bs with
      | mk data => exact getElem!_pos data i hi
    rw [ih, List.drop_eq_getElem_cons hlt, hget]
    simp
  | case2 i r hi =>
    have hle : bs.data.toList.length ≤ i := by rw [Array.length_toList]; exact Nat.le_of_not_lt hi
    rw [List.drop_eq_nil_of_le hle, List.append_nil]

theorem byteArray_toList (bs : ByteArray) : bs.toList = bs.data.toList := by
  rw [ByteArray.toList, byteArray_toList_loop]; simp

/-- The bytes of a text are the encodings of its characters, one after another. -/
theorem ofString_eq_flatMap (s : String) :
    ofString s = s.toList.flatMap String.utf8EncodeChar := by
  rw [ofString, String.toUTF8_eq_toByteArray, byteArray_toList]
  conv_lhs => rw [← String.ofList_toList (s := s)]
  rw [String.toByteArray_ofList, List.utf8Encode, List.toList_data_toByteArray]

theorem ofString_append (s t : String) : ofString (s ++ t) = ofString s ++ ofString t := by
  rw [ofString_eq_flatMap, ofString_eq_flatMap, ofString_eq_flatMap, String.toList_append,
    List.flatMap_append]

theorem ofString_ofList (cs : List Char) :
    ofString (String.ofList cs) = cs.flatMap String.utf8EncodeChar := by
  rw [ofString_eq_flatMap, String.toList_ofList]

/-! ## One sequence -/

section Head

variable {a b c d : UInt8} {rest : Bytes}

theorem headRune_one (ha : a.toNat < 0x80) : headRune (a :: rest) = some (1, a.toNat) := by
  have : a < 0x80 := UInt8.lt_iff_toNat_lt.2 ha
  simp [headRune, this]

theorem headRune_two (ha : 0xC2 ≤ a.toNat ∧ a.toNat ≤ 0xDF) (hb : 0x80 ≤ b.toNat ∧ b.toNat ≤ 0xBF) :
    headRune (a :: b :: rest) = some (2, (a.toNat - 0xC0) * 64 + (b.toNat - 0x80)) := by
  simp only [headRune, IsTail, UInt8.lt_iff_toNat_lt, UInt8.le_iff_toNat_le, Bool.and_eq_true,
    decide_eq_true_eq, UInt8.reduceToNat]
  rw [if_neg (by omega), if_pos ha, if_pos hb]

/-- Three bytes: the second byte's range is narrower after `E0` (no overlong form) and after
    `ED` (no surrogate). -/
theorem headRune_three (ha : 0xE0 ≤ a.toNat ∧ a.toNat ≤ 0xEF)
    (hb : (if a.toNat = 0xE0 then 0xA0 else 0x80) ≤ b.toNat ∧
      b.toNat ≤ (if a.toNat = 0xED then 0x9F else 0xBF))
    (hc : 0x80 ≤ c.toNat ∧ c.toNat ≤ 0xBF) :
    headRune (a :: b :: c :: rest) =
      some (3, (a.toNat - 0xE0) * 4096 + (b.toNat - 0x80) * 64 + (c.toNat - 0x80)) := by
  have hE0 : a = 0xE0 ↔ a.toNat = 0xE0 := by rw [← UInt8.toNat_inj]; rfl
  have hED : a = 0xED ↔ a.toNat = 0xED := by rw [← UInt8.toNat_inj]; rfl
  simp only [headRune, IsTail, UInt8.lt_iff_toNat_lt, UInt8.le_iff_toNat_le, Bool.and_eq_true,
    decide_eq_true_eq, UInt8.reduceToNat, hE0, hED]
  rw [if_neg (by omega), if_neg (by omega), if_pos ha]
  simp only [apply_ite UInt8.toNat, UInt8.reduceToNat]
  rw [if_pos ⟨hb, hc⟩]

/-- Four bytes: the second byte's range is narrower after `F0` (no overlong form) and after
    `F4` (nothing above U+10FFFF). -/
theorem headRune_four (ha : 0xF0 ≤ a.toNat ∧ a.toNat ≤ 0xF4)
    (hb : (if a.toNat = 0xF0 then 0x90 else 0x80) ≤ b.toNat ∧
      b.toNat ≤ (if a.toNat = 0xF4 then 0x8F else 0xBF))
    (hc : 0x80 ≤ c.toNat ∧ c.toNat ≤ 0xBF) (hd : 0x80 ≤ d.toNat ∧ d.toNat ≤ 0xBF) :
    headRune (a :: b :: c :: d :: rest) =
      some (4, (a.toNat - 0xF0) * 262144 + (b.toNat - 0x80) * 4096 + (c.toNat - 0x80) * 64 +
        (d.toNat - 0x80)) := by
  have hF0 : a = 0xF0 ↔ a.toNat = 0xF0 := by rw [← UInt8.toNat_inj]; rfl
  have hF4 : a = 0xF4 ↔ a.toNat = 0xF4 := by rw [← UInt8.toNat_inj]; rfl
  simp only [headRune, IsTail, UInt8.lt_iff_toNat_lt, UInt8.le_iff_toNat_le, Bool.and_eq_true,
    decide_eq_true_eq, UInt8.reduceToNat, hF0, hF4]
  rw [if_neg (by omega), if_neg (by omega), if_neg (by omega), if_pos ha]
  simp only [apply_ite UInt8.toNat, UInt8.reduceToNat]
  rw [if_pos ⟨⟨hb, hc⟩, hd⟩]

end Head

/-- The encoding of a character reads back as that character, whatever follows it. -/
theorem headRune_utf8EncodeChar (ch : Char) (rest : Bytes) :
    headRune (String.utf8EncodeChar ch ++ rest) = some (ch.utf8Size, ch.toNat) := by
  have hv : ch.toNat < 0xD800 ∨ (0xDFFF < ch.toNat ∧ ch.toNat < 0x110000) := ch.valid
  have hle (n : UInt32) : ch.val ≤ n ↔ ch.toNat ≤ n.toNat := UInt32.le_iff_toNat_le
  have hlt (n : UInt32) : n < ch.val ↔ n.toNat < ch.toNat := UInt32.lt_iff_toNat_lt
  unfold String.utf8EncodeChar
  simp only [Char.toNat_val]
  -- one case per width, as the encoder splits on the code point
  split
  · rw [List.singleton_append, headRune_one (by simp; omega),
      Char.utf8Size_eq_one_iff.2 ((hle 127).2 (by simp only [UInt32.reduceToNat]; omega))]
    simp; omega
  split
  · rw [List.cons_append, List.singleton_append, headRune_two (by simp; omega) (by simp; omega),
      Char.utf8Size_eq_two_iff.2 ⟨(hlt 127).2 (by simp only [UInt32.reduceToNat]; omega),
        (hle 0x7ff).2 (by simp only [UInt32.reduceToNat]; omega)⟩]
    simp; omega
  split
  · rw [List.cons_append, List.cons_append, List.singleton_append,
      headRune_three (by simp; omega) (by simp; split <;> split <;> omega) (by simp; omega),
      Char.utf8Size_eq_three_iff.2 ⟨(hlt 0x7ff).2 (by simp only [UInt32.reduceToNat]; omega),
        (hle 0xffff).2 (by simp only [UInt32.reduceToNat]; omega)⟩]
    simp; omega
  · rw [List.cons_append, List.cons_append, List.cons_append, List.singleton_append,
      headRune_four (by simp; omega) (by simp; split <;> split <;> omega) (by simp; omega)
        (by simp; omega),
      Char.utf8Size_eq_four_iff.2 ((hlt 0xffff).2 (by simp only [UInt32.reduceToNat]; omega))]
    simp; omega

/-- The first byte of a character's encoding is the character itself below 128, and a lead byte
    of a longer sequence above. -/
theorem utf8EncodeChar_head (c : Char) : ∃ b tl, String.utf8EncodeChar c = b :: tl ∧
    (c.toNat < 128 → b.toNat = c.toNat) ∧ (128 ≤ c.toNat → 0xC0 ≤ b.toNat) := by
  have hval : c.val.toNat = c.toNat := rfl
  have hv : c.toNat < 0x110000 := by have := c.valid; omega
  unfold String.utf8EncodeChar
  simp only [Char.toNat_val]
  split
  · exact ⟨_, _, rfl, fun _ => by simp; omega, fun _ => by omega⟩
  split
  · exact ⟨_, _, rfl, fun _ => by omega, fun _ => by simp; omega⟩
  split
  · exact ⟨_, _, rfl, fun _ => by omega, fun _ => by simp; omega⟩
  · exact ⟨_, _, rfl, fun _ => by omega, fun _ => by simp; omega⟩

theorem toNat_ofNat_of_valid {n : Nat} (h : n.isValidChar) : (Char.ofNat n).toNat = n := by
  rw [Char.ofNat, dif_pos h]; rfl

theorem byte_eq_ofNat {a : UInt8} {m : Nat} (h : a.toNat = m) : a = UInt8.ofNat m := by
  subst h; exact UInt8.ofNat_toNat.symm

/-- What `headRune` reads is the encoding of a character: the one with the code point read. -/
theorem headRune_eq_some {bs : Bytes} {w n : Nat} (h : headRune bs = some (w, n)) :
    ∃ ch : Char, ch.toNat = n ∧ w = ch.utf8Size ∧ bs = String.utf8EncodeChar ch ++ bs.drop w := by
  cases bs with
  | nil => simp [headRune] at h
  | cons a rest =>
  have hlt (n : UInt32) {ch : Char} : n < ch.val ↔ n.toNat < ch.toNat := UInt32.lt_iff_toNat_lt
  have hle (n : UInt32) {ch : Char} : ch.val ≤ n ↔ ch.toNat ≤ n.toNat := UInt32.le_iff_toNat_le
  have hlead (k : UInt8) : a = k ↔ a.toNat = k.toNat := UInt8.toNat_inj.symm
  unfold headRune at h
  simp only [IsTail, UInt8.lt_iff_toNat_lt, UInt8.le_iff_toNat_le, Bool.and_eq_true,
    decide_eq_true_eq, hlead, apply_ite UInt8.toNat, UInt8.reduceToNat] at h
  -- in each width the character is `Char.ofNat n`, whose encoder splits as the reader did
  split at h
  · obtain ⟨rfl, rfl⟩ : 1 = w ∧ a.toNat = n := by simpa using h
    have hch := toNat_ofNat_of_valid (n := a.toNat) (.inl (by omega))
    refine ⟨Char.ofNat a.toNat, hch, (Char.utf8Size_eq_one_iff.2
      ((hle 127).2 (by simp only [UInt32.reduceToNat]; omega))).symm, ?_⟩
    simp only [String.utf8EncodeChar, Char.toNat_val, hch]
    rw [if_pos (by omega)]
    simp only [List.singleton_append, List.drop_succ_cons, List.drop_zero]
    rw [← byte_eq_ofNat rfl]
  split at h
  · split at h
    · rename_i b tail
      simp only [Option.ite_none_right_eq_some, Option.some.injEq, Prod.mk.injEq] at h
      obtain ⟨hb, rfl, rfl⟩ := h
      have hch := toNat_ofNat_of_valid (n := (a.toNat - 0xC0) * 64 + (b.toNat - 0x80))
        (.inl (by omega))
      refine ⟨_, hch, (Char.utf8Size_eq_two_iff.2
        ⟨(hlt 127).2 (by simp only [UInt32.reduceToNat]; omega),
          (hle 0x7ff).2 (by simp only [UInt32.reduceToNat]; omega)⟩).symm, ?_⟩
      simp only [String.utf8EncodeChar, Char.toNat_val, hch]
      rw [if_neg (by omega), if_pos (by omega)]
      simp only [List.cons_append, List.nil_append, List.drop_succ_cons, List.drop_zero]
      refine congrArg₂ _ (byte_eq_ofNat ?_) (congrArg₂ _ (byte_eq_ofNat ?_) rfl) <;> omega
    · cases h
  split at h
  · split at h
    · rename_i b c tail
      simp only [Option.ite_none_right_eq_some, Option.some.injEq, Prod.mk.injEq] at h
      obtain ⟨⟨hb, hc⟩, rfl, rfl⟩ := h
      have hb' : 128 ≤ b.toNat ∧ b.toNat ≤ 191 ∧ (a.toNat = 224 → 160 ≤ b.toNat) ∧
          (a.toNat = 237 → b.toNat ≤ 159) := by
        split_ifs at hb <;> omega
      clear hb
      have hch := toNat_ofNat_of_valid
        (n := (a.toNat - 0xE0) * 4096 + (b.toNat - 0x80) * 64 + (c.toNat - 0x80)) (by
          by_cases h237 : a.toNat ≤ 237
          · exact .inl (by omega)
          · exact .inr ⟨by omega, by omega⟩)
      refine ⟨_, hch, (Char.utf8Size_eq_three_iff.2
        ⟨(hlt 0x7ff).2 (by simp only [UInt32.reduceToNat]; omega),
          (hle 0xffff).2 (by simp only [UInt32.reduceToNat]; omega)⟩).symm, ?_⟩
      simp only [String.utf8EncodeChar, Char.toNat_val, hch]
      rw [if_neg (by omega), if_neg (by omega), if_pos (by omega)]
      simp only [List.cons_append, List.nil_append, List.drop_succ_cons, List.drop_zero]
      refine congrArg₂ _ (byte_eq_ofNat ?_) (congrArg₂ _ (byte_eq_ofNat ?_)
        (congrArg₂ _ (byte_eq_ofNat ?_) rfl)) <;> omega
    · cases h
  split at h
  · split at h
    · rename_i b c d tail
      simp only [Option.ite_none_right_eq_some, Option.some.injEq, Prod.mk.injEq] at h
      obtain ⟨⟨⟨hb, hc⟩, hd⟩, rfl, rfl⟩ := h
      have hb' : 128 ≤ b.toNat ∧ b.toNat ≤ 191 ∧ (a.toNat = 240 → 144 ≤ b.toNat) ∧
          (a.toNat = 244 → b.toNat ≤ 143) := by
        split_ifs at hb <;> omega
      clear hb
      have hch := toNat_ofNat_of_valid (n := (a.toNat - 0xF0) * 262144 +
          (b.toNat - 0x80) * 4096 + (c.toNat - 0x80) * 64 + (d.toNat - 0x80))
        (.inr ⟨by omega, by omega⟩)
      refine ⟨_, hch, (Char.utf8Size_eq_four_iff.2
        ((hlt 0xffff).2 (by simp only [UInt32.reduceToNat]; omega))).symm, ?_⟩
      simp only [String.utf8EncodeChar, Char.toNat_val, hch]
      rw [if_neg (by omega), if_neg (by omega), if_neg (by omega)]
      simp only [List.cons_append, List.nil_append, List.drop_succ_cons, List.drop_zero]
      refine congrArg₂ _ (byte_eq_ofNat ?_) (congrArg₂ _ (byte_eq_ofNat ?_)
        (congrArg₂ _ (byte_eq_ofNat ?_) (congrArg₂ _ (byte_eq_ofNat ?_) rfl))) <;> omega
    · cases h
  · cases h

/-! ## Whole byte strings -/

theorem codePoints_cons_of_headRune {a : UInt8} {rest : Bytes} {w n : Nat}
    (h : headRune (a :: rest) = some (w, n)) :
    codePoints (a :: rest) = some n :: codePoints (rest.drop (w - 1)) := by
  rw [codePoints, h]

theorem codePoints_flatMap (cs : List Char) :
    codePoints (cs.flatMap String.utf8EncodeChar) = cs.map fun c => some c.toNat := by
  induction cs with
  | nil => simp [codePoints]
  | cons c cs ih =>
    obtain ⟨a, tl, henc⟩ := List.exists_cons_of_ne_nil (String.utf8EncodeChar_ne_nil (c := c))
    have hlen : c.utf8Size = tl.length + 1 := by
      rw [← String.length_utf8EncodeChar, henc, List.length_cons]
    have hhead := headRune_utf8EncodeChar c (cs.flatMap String.utf8EncodeChar)
    rw [henc, List.cons_append] at hhead
    rw [List.flatMap_cons, henc, List.cons_append, codePoints_cons_of_headRune hhead, hlen,
      Nat.add_sub_cancel, List.drop_left, ih, List.map_cons]

theorem codePoints_ofString (s : String) :
    codePoints (ofString s) = s.toList.map fun c => some c.toNat := by
  rw [ofString_eq_flatMap, codePoints_flatMap]

theorem decode_ofString (s : String) : decode (ofString s) = s := by
  rw [decode, codePoints_ofString, List.map_map]
  conv_rhs => rw [← String.ofList_toList (s := s)]
  congr 1
  conv_rhs => rw [← List.map_id s.toList]
  apply List.map_congr_left
  intro c _
  simp

theorem isUtf8_ofString (s : String) : IsUtf8 (ofString s) := by
  simp [IsUtf8, codePoints_ofString]

theorem toString?_ofString (s : String) : toString? (ofString s) = some s := by
  rw [toString?, if_pos (isUtf8_ofString s), decode_ofString]

theorem flatMap_decode {bs : Bytes} (h : IsUtf8 bs) :
    ((codePoints bs).map fun r => Char.ofNat (r.getD 0xFFFD)).flatMap String.utf8EncodeChar =
      bs := by
  fun_induction codePoints bs with
  | case1 => rfl
  | case2 a rest w n hhead ih =>
    rw [IsUtf8, codePoints_cons_of_headRune hhead, List.all_cons] at h
    obtain ⟨ch, rfl, rfl, hbs⟩ := headRune_eq_some hhead
    have hdrop : (a :: rest).drop ch.utf8Size = rest.drop (ch.utf8Size - 1) := by
      have := Char.utf8Size_pos ch
      rw [show ch.utf8Size = ch.utf8Size - 1 + 1 by omega, List.drop_succ_cons, Nat.add_sub_cancel]
    rw [List.map_cons, List.flatMap_cons, Option.getD_some, Char.ofNat_toNat,
      ih (by simpa only [IsUtf8, Option.isSome_some, Bool.true_and] using h), ← hdrop, ← hbs]
  | case3 a rest hhead ih =>
    rw [IsUtf8, codePoints, hhead, List.all_cons] at h
    simp at h

/-- Well-formed bytes are the bytes of the text they decode to. -/
theorem ofString_decode {bs : Bytes} (h : IsUtf8 bs) : ofString (decode bs) = bs := by
  rw [decode, ofString_ofList, flatMap_decode h]

theorem ofString_of_toString? {bs : Bytes} {s : String} (h : toString? bs = some s) :
    ofString s = bs := by
  unfold toString? at h
  split at h
  · cases h; exact ofString_decode ‹_›
  · cases h

end Unalias.Bytes
