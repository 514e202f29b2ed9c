import Mathlib.Data.List.Basic
import Unalias.Proofs.Decimal
import Unalias.Json.Print
import Unalias.Json.Parse

/-! # Written JSON reads back

The reader gives back what the writer wrote. A string literal reads back as its text, every
character through its escape (`stringBody_escaped`); the decimal text of an integer reads back
as that number literal (`number_ofInt`); and a whole value, written at any depth with integers
for its numbers, reads back as itself (`value_render`), so that a document followed by a line
end parses to the value written (`parse_render`).

The reader's fuel bounds the nesting and the members read one after another; the text of a value
is longer than the calls its reading makes, so the induction runs on the fuel, over the value,
the members of an object from one on and the items of an array from one on at once
(`read_render`).
-/

namespace Unalias.Json

/-! ## Strings -/

theorem hexValue_hexDigit : ∀ n, n < 16 → hexValue (Text.hexDigit n) = some n := by decide

theorem hexDigits_four (n : Nat) : Text.hexDigits n 4 =
    [Text.hexDigit (n / 4096 % 16), Text.hexDigit (n / 256 % 16), Text.hexDigit (n / 16 % 16),
      Text.hexDigit (n % 16)] := by
  simp [Text.hexDigits, Nat.div_div_eq_div_mul]

theorem hex4_hexDigits {n : Nat} (h : n < 65536) (rest : Bytes) :
    hex4 (Text.hexDigits n 4 ++ rest) = some (n, rest) := by
  rw [hexDigits_four]
  simp only [List.cons_append, List.nil_append, hex4,
    hexValue_hexDigit _ (Nat.mod_lt _ (by decide))]
  simp only [Option.bind_eq_bind, Option.bind_some, Option.some.injEq, Prod.mk.injEq, and_true]
  omega

theorem escapeAt_hex {n : Nat} (h : n < 0xD800) (rest : Bytes) :
    escapeAt (117 :: (Text.hexDigits n 4 ++ rest)) = .ok (n, rest) := by
  rw [escapeAt.eq_9, hex4_hexDigits (n := n) (by omega)]
  dsimp only
  rw [if_neg (by simp; omega), if_neg (by simp; omega)]

theorem go_escape {rest more : Bytes} {n : Nat} (h : escapeAt rest = .ok (n, more))
    (f : Nat) (acc : List Char) :
    stringBody.go (f + 1) (92 :: rest) acc = stringBody.go f more (Char.ofNat n :: acc) := by
  rw [stringBody.go.eq_4, h]

theorem go_plain {b : UInt8} {rest : Bytes} {w n : Nat} (h34 : b ≠ 34) (h92 : b ≠ 92)
    (h32 : 32 ≤ b.toNat) (hh : Bytes.headRune (b :: rest) = some (w, n)) (f : Nat)
    (acc : List Char) :
    stringBody.go (f + 1) (b :: rest) acc = stringBody.go f (rest.drop (w - 1)) (Char.ofNat n :: acc) := by
  rw [stringBody.go.eq_5 _ _ _ _ h34 h92, if_neg (by rw [UInt8.lt_iff_toNat_lt]; simp; omega), hh]

theorem go_escapeChar (c : Char) (more : Bytes) (f : Nat) (acc : List Char) :
    stringBody.go (f + 1) (escapeChar c ++ more) acc = stringBody.go f more (c :: acc) := by
  unfold escapeChar
  split
  · rw [show Bytes.ofString "\\\"" = [92, 34] by decide +kernel]
    rfl
  · rw [show Bytes.ofString "\\\\" = [92, 92] by decide +kernel]
    rfl
  · rw [show Bytes.ofString "\\b" = [92, 98] by decide +kernel]
    rfl
  · rw [show Bytes.ofString "\\t" = [92, 116] by decide +kernel]
    rfl
  · rw [show Bytes.ofString "\\n" = [92, 110] by decide +kernel]
    rfl
  · rw [show Bytes.ofString "\\f" = [92, 102] by decide +kernel]
    rfl
  · rw [show Bytes.ofString "\\r" = [92, 114] by decide +kernel]
    rfl
  · rename_i _ hquote hslash _ _ _ _ _
    split
    · rename_i hlt
      rw [show Bytes.ofString "\\u" = [92, 117] by decide +kernel, List.append_assoc,
        List.cons_append, List.singleton_append, go_escape (escapeAt_hex (by omega) more),
        Char.ofNat_toNat]
    · rename_i hge
      obtain ⟨b, tl, henc, hlow, hhigh⟩ := Bytes.utf8EncodeChar_head c
      have hbytes : Bytes.ofString c.toString = b :: tl := by
        rw [Bytes.ofString_eq_flatMap, ← henc]; simp
      have hhead := Bytes.headRune_utf8EncodeChar c more
      rw [henc, List.cons_append] at hhead
      have hlen : c.utf8Size - 1 = tl.length := by
        rw [← String.length_utf8EncodeChar, henc, List.length_cons, Nat.add_sub_cancel]
      -- the first byte is the character itself below 128, and a lead byte above
      have hbyte : b.toNat ≠ 34 ∧ b.toNat ≠ 92 ∧ 32 ≤ b.toNat := by
        have hq : c.toNat ≠ 34 := fun h => hquote (Char.toNat_inj.1 h)
        have hs : c.toNat ≠ 92 := fun h => hslash (Char.toNat_inj.1 h)
        by_cases hc : c.toNat < 128
        · rw [hlow hc]; omega
        · have := hhigh (by omega); omega
      rw [hbytes, List.cons_append, go_plain (fun h => hbyte.1 (by rw [h]; rfl))
        (fun h => hbyte.2.1 (by rw [h]; rfl)) hbyte.2.2 hhead, hlen, List.drop_left,
        Char.ofNat_toNat]


theorem escapeChar_ne_nil (c : Char) : escapeChar c ≠ [] := by
  unfold escapeChar
  split
  any_goals decide +kernel
  split
  · exact List.append_ne_nil_of_left_ne_nil (by decide +kernel) _
  · rw [Bytes.ofString_eq_flatMap]
    simp

theorem length_le_flatMap_escapeChar (cs : List Char) :
    cs.length ≤ (cs.flatMap escapeChar).length := by
  induction cs with
  | nil => simp
  | cons c cs ih =>
    have := List.length_pos_of_ne_nil (escapeChar_ne_nil c)
    rw [List.flatMap_cons, List.length_append, List.length_cons]
    omega

theorem go_escaped (cs : List Char) (rest : Bytes) (f : Nat) (acc : List Char) :
    stringBody.go (f + cs.length + 1) (cs.flatMap escapeChar ++ 34 :: rest) acc =
      .ok (acc.reverse ++ cs, rest) := by
  induction cs generalizing acc with
  | nil => rw [List.flatMap_nil, List.nil_append, stringBody.go.eq_3, List.append_nil]
  | cons c cs ih =>
    rw [List.flatMap_cons, List.append_assoc, List.length_cons,
      show f + (cs.length + 1) + 1 = f + cs.length + 1 + 1 by omega, go_escapeChar, ih]
    simp

/-- The body of a string literal, escapes and all, reads back as its characters. -/
theorem stringBody_escaped (cs : List Char) (rest : Bytes) :
    stringBody (cs.flatMap escapeChar ++ 34 :: rest) = .ok (cs, rest) := by
  have hlen : cs.length + 1 ≤ (cs.flatMap escapeChar ++ 34 :: rest).length := by
    have := length_le_flatMap_escapeChar cs
    rw [List.length_append, List.length_cons]
    omega
  rw [stringBody, show (cs.flatMap escapeChar ++ 34 :: rest).length =
    ((cs.flatMap escapeChar ++ 34 :: rest).length - cs.length - 1) + cs.length + 1 by omega,
    go_escaped]
  rfl

/-! ## Numbers -/

/-- The bytes cannot continue a number: they do not start with a digit, a point or an
    exponent mark. -/
def EndsNumber (rest : Bytes) : Prop :=
  ∀ b ∈ rest.head?, IsDigit b = false ∧ b ≠ 46 ∧ b ≠ 101 ∧ b ≠ 69

theorem digits_append {ds rest : Bytes} (hds : ∀ b ∈ ds, IsDigit b = true)
    (hr : ∀ b ∈ rest.head?, IsDigit b = false) : digits (ds ++ rest) = (ds, rest) := by
  have hstop : ∀ b ∈ rest.head?, ¬ IsDigit b = true := fun b hb => by simp [hr b hb]
  simp only [digits, List.takeWhile_append_of_pos hds, List.dropWhile_append_of_pos hds]
  cases rest with
  | nil => simp
  | cons b rest =>
    have := hstop b rfl
    simp [this]

theorem isDigit_of_mem_ofNat {m : Nat} {b : UInt8} (h : b ∈ Bytes.ofNat m) : IsDigit b = true := by
  have := Bytes.digit_of_mem_ofNat h
  simp [IsDigit, UInt8.le_iff_toNat_le]; omega

theorem integerPart_ofNat (m : Nat) {rest : Bytes} (hr : EndsNumber rest) :
    integerPart (Bytes.ofNat m ++ rest) = .ok (Bytes.ofNat m, rest) := by
  rcases Nat.eq_zero_or_pos m with rfl | hm
  · rw [Bytes.ofNat_zero]; rfl
  · obtain ⟨d, ds, hd, h48⟩ := Bytes.ofNat_cons_of_pos hm
    unfold integerPart
    rw [hd, List.cons_append]
    split
    · rename_i heq; simp only [List.cons.injEq] at heq; exact absurd heq.1 h48
    · rw [← List.cons_append, ← hd,
        digits_append (fun b hb => isDigit_of_mem_ofNat hb) (fun b hb => (hr b hb).1), hd]
      rfl

theorem fractionPart_of_ends {rest : Bytes} (hr : EndsNumber rest) :
    fractionPart rest = .ok ([], rest) := by
  unfold fractionPart
  split
  · rename_i r; exact absurd rfl (hr 46 rfl).2.1
  · rfl

theorem exponentPart_of_ends {rest : Bytes} (hr : EndsNumber rest) :
    exponentPart rest = .ok ([], rest) := by
  unfold exponentPart
  split
  · rename_i e r
    have he := hr e rfl
    rw [if_neg (by simp [he.2.2.1, he.2.2.2])]
    rfl
  · rfl

theorem numberSign_ofNat (m : Nat) (rest : Bytes) :
    numberSign (Bytes.ofNat m ++ rest) = ([], Bytes.ofNat m ++ rest) := by
  obtain ⟨d, ds, hd⟩ := List.exists_cons_of_ne_nil (Bytes.ofNat_ne_nil m)
  have hdig := Bytes.digit_of_mem_ofNat (hd ▸ List.mem_cons_self)
  rw [hd, List.cons_append]
  unfold numberSign
  split
  · rename_i heq; simp only [List.cons.injEq] at heq; rw [heq.1] at hdig; simp at hdig
  · rfl

/-- The decimal text of an integer reads back as a number literal, up to a byte that cannot
    continue it. -/
theorem number_ofInt (i : Int) {rest : Bytes} (hr : EndsNumber rest) :
    number (Bytes.ofInt i ++ rest) = .ok (toString i, rest) := by
  cases i with
  | ofNat m =>
    rw [Int.ofNat_eq_natCast, Bytes.ofInt_natCast]
    simp only [number, numberSign_ofNat, integerPart_ofNat m hr, bind, Except.bind,
      fractionPart_of_ends hr, exponentPart_of_ends hr, pure, Except.pure, List.nil_append,
      List.append_nil]
    rw [Bytes.ofNat, Bytes.decode_ofString]
    rfl
  | negSucc m =>
    have hsign : numberSign (Bytes.ofInt (Int.negSucc m) ++ rest) = ([45], Bytes.ofNat (m + 1) ++ rest) := by
      rw [Bytes.ofInt_negSucc]; rfl
    simp only [number, hsign, integerPart_ofNat (m + 1) hr, bind, Except.bind,
      fractionPart_of_ends hr, exponentPart_of_ends hr, pure, Except.pure, List.append_nil]
    rw [List.singleton_append, ← Bytes.ofInt_negSucc, Bytes.ofInt, Bytes.decode_ofString]


/-! ## Values -/

/-- Every number in a value is written as the decimal text of an integer. -/
inductive IntegerNumbers : JsonValue → Prop
  | null : IntegerNumbers .null
  | bool (b : Bool) : IntegerNumbers (.bool b)
  | number (i : Int) : IntegerNumbers (.number (toString i))
  | string (s : String) : IntegerNumbers (.string s)
  | array {items : List JsonValue} (h : ∀ v ∈ items, IntegerNumbers v) :
      IntegerNumbers (.array items)
  | object {members : List (String × JsonValue)} (h : ∀ m ∈ members, IntegerNumbers m.2) :
      IntegerNumbers (.object members)

theorem null_bytes : Bytes.ofString "null" = [110, 117, 108, 108] := by decide +kernel
theorem true_bytes : Bytes.ofString "true" = [116, 114, 117, 101] := by decide +kernel
theorem false_bytes : Bytes.ofString "false" = [102, 97, 108, 115, 101] := by decide +kernel
theorem emptyArray_bytes : Bytes.ofString "[]" = [91, 93] := by decide +kernel
theorem emptyObject_bytes : Bytes.ofString "\x7b\x7d" = [123, 125] := by decide +kernel
theorem openArray_bytes : Bytes.ofString "[\n" = [91, 10] := by decide +kernel
theorem openObject_bytes : Bytes.ofString "\x7b\n" = [123, 10] := by decide +kernel
theorem closeArray_bytes : Bytes.ofString "]" = [93] := by decide +kernel
theorem closeObject_bytes : Bytes.ofString "\x7d" = [125] := by decide +kernel
theorem comma_bytes : Bytes.ofString ",\n" = [44, 10] := by decide +kernel
theorem colon_bytes : Bytes.ofString ": " = [58, 32] := by decide +kernel

theorem skipBlanks_cons_blank {b : UInt8} (hb : IsBlank b = true) (s : Bytes) :
    skipBlanks (b :: s) = skipBlanks s :=
  List.dropWhile_cons_of_pos hb

theorem skipBlanks_cons {b : UInt8} (hb : IsBlank b = false) (s : Bytes) :
    skipBlanks (b :: s) = b :: s :=
  List.dropWhile_cons_of_neg (by simp [hb])

theorem skipBlanks_indent (n : Nat) (s : Bytes) : skipBlanks (indentAt n ++ s) = skipBlanks s := by
  unfold indentAt
  generalize 2 * n = k
  induction k with
  | zero => rfl
  | succ k ih => rw [List.replicate_succ, List.cons_append, skipBlanks_cons_blank rfl, ih]

theorem isBlank_eq_false {b : UInt8} (h : 32 < b.toNat) : IsBlank b = false := by
  have hne (k : UInt8) (hk : k.toNat ≤ 32) : b ≠ k := fun e => by subst e; omega
  simp [IsBlank, hne 32 (by decide), hne 9 (by decide), hne 10 (by decide), hne 13 (by decide)]

theorem render_head {v : JsonValue} (hv : IntegerNumbers v) (d : Nat) :
    ∃ b t, render d v = b :: t ∧ 32 < b.toNat ∧ b ≠ 93 ∧ b ≠ 125 := by
  cases hv with
  | null => exact ⟨_, _, by rw [render.eq_1, null_bytes], by decide, by decide, by decide⟩
  | bool b =>
    cases b
    · exact ⟨_, _, by rw [render.eq_2, if_neg Bool.false_ne_true, false_bytes], by decide,
        by decide, by decide⟩
    · exact ⟨_, _, by rw [render.eq_2, if_pos rfl, true_bytes], by decide, by decide, by decide⟩
  | number i =>
    obtain ⟨b, t, hbt⟩ := List.exists_cons_of_ne_nil (Bytes.ofInt_ne_nil i)
    have hb := Bytes.mem_ofInt (hbt ▸ List.mem_cons_self)
    refine ⟨b, t, by rw [render.eq_3]; exact hbt, ?_, ?_, ?_⟩
    all_goals rcases hb with hb | rfl
    all_goals first | omega | decide | (intro e; subst e; simp at hb)
  | string s => exact ⟨34, _, by rw [render.eq_4]; rfl, by decide, by decide, by decide⟩
  | @array items h =>
    cases items with
    | nil => exact ⟨_, _, by rw [render.eq_5, emptyArray_bytes], by decide, by decide, by decide⟩
    | cons v vs =>
      exact ⟨_, _, by rw [render.eq_6, openArray_bytes]; rfl, by decide, by decide, by decide⟩
  | @object members h =>
    cases members with
    | nil => exact ⟨_, _, by rw [render.eq_7, emptyObject_bytes], by decide, by decide, by decide⟩
    | cons m ms =>
      obtain ⟨k, v⟩ := m
      exact ⟨_, _, by rw [render.eq_8, openObject_bytes]; rfl, by decide, by decide, by decide⟩

theorem skipBlanks_render {v : JsonValue} (hv : IntegerNumbers v) (d : Nat) (rest : Bytes) :
    skipBlanks (render d v ++ rest) = render d v ++ rest := by
  obtain ⟨b, t, hbt, hb, -, -⟩ := render_head hv d
  rw [hbt, List.cons_append, skipBlanks_cons (isBlank_eq_false hb)]

theorem word_append (w : String) (v : JsonValue) (rest : Bytes) :
    word w v (Bytes.ofString w ++ rest) = .ok (v, rest) := by
  simp [word]

/-! ### The reader's steps -/

section Steps

variable {s t rest : Bytes}

theorem value_object (h : skipBlanks s = 123 :: rest) (f : Nat) :
    value (f + 1) s = members f (skipBlanks rest) true [] := by
  rw [value.eq_2, h]
  rfl

theorem value_array (h : skipBlanks s = 91 :: rest) (f : Nat) :
    value (f + 1) s = items f (skipBlanks rest) true [] := by
  rw [value.eq_2, h]
  rfl

theorem value_string {cs : List Char} (h : skipBlanks s = 34 :: t)
    (hb : stringBody t = .ok (cs, rest)) (f : Nat) :
    value (f + 1) s = .ok (.string (String.ofList cs), rest) := by
  rw [value.eq_2, h]
  show (stringBody t >>= fun x => pure (JsonValue.string (String.ofList x.1), x.2)) = _
  rw [hb]
  rfl

theorem value_word {w : String} {v : JsonValue} (h : skipBlanks s = Bytes.ofString w ++ rest)
    (hw : (w = "null" ∧ v = .null) ∨ (w = "true" ∧ v = .bool true) ∨
      (w = "false" ∧ v = .bool false)) (f : Nat) :
    value (f + 1) s = .ok (v, rest) := by
  rw [value.eq_2, h]
  rcases hw with ⟨rfl, rfl⟩ | ⟨rfl, rfl⟩ | ⟨rfl, rfl⟩
  · rw [← word_append "null" .null rest, null_bytes]; rfl
  · rw [← word_append "true" (.bool true) rest, true_bytes]; rfl
  · rw [← word_append "false" (.bool false) rest, false_bytes]; rfl

theorem value_number {b : UInt8} {lit : String} (h : skipBlanks s = b :: t)
    (hb : b = 45 ∨ (48 ≤ b.toNat ∧ b.toNat ≤ 57)) (hn : number (b :: t) = .ok (lit, rest))
    (f : Nat) : value (f + 1) s = .ok (.number lit, rest) := by
  have hnum : b.toNat = 45 ∨ (48 ≤ b.toNat ∧ b.toNat ≤ 57) := by
    rcases hb with rfl | hb
    · exact .inl rfl
    · exact .inr hb
  -- a sign or a digit is none of the bytes that open the other kinds of value
  have hne (k : UInt8) (hk : k.toNat < 45 ∨ 57 < k.toNat) (r : Bytes) : b :: t ≠ k :: r :=
    fun e => by rw [(List.cons.inj e).1] at hnum; omega
  rw [value.eq_2, h]
  split
  · rename_i heq; exact absurd heq (List.cons_ne_nil _ _)
  · rename_i heq; exact absurd heq (hne 123 (by decide) _)
  · rename_i heq; exact absurd heq (hne 91 (by decide) _)
  · rename_i heq; exact absurd heq (hne 34 (by decide) _)
  · rename_i heq; exact absurd heq (hne 116 (by decide) _)
  · rename_i heq; exact absurd heq (hne 102 (by decide) _)
  · rename_i heq; exact absurd heq (hne 110 (by decide) _)
  · rename_i b' t' _ _ _ _ _ _ heq
    obtain ⟨rfl, rfl⟩ := List.cons.inj heq
    have hcond : (b == 45 || IsDigit b) = true := by
      rcases hb with rfl | hb
      · rfl
      · simp [IsDigit, UInt8.le_iff_toNat_le, hb.1, hb.2]
    rw [if_pos hcond, ← h, h, hn]
    rfl

/-- A member read, the object goes on after a comma or ends at a closing brace. -/
theorem members_step {cs : List Char} {r r' after : Bytes} {v : JsonValue} {f : Nat}
    (first : Bool) (acc : List (String × JsonValue))
    (hs : stringBody t = .ok (cs, r)) (hc : skipBlanks r = 58 :: r')
    (hv : value f r' = .ok (v, after)) :
    (∀ rest, skipBlanks after = 44 :: rest → members (f + 1) (34 :: t) first acc =
      members f (skipBlanks rest) false ((String.ofList cs, v) :: acc)) ∧
    (∀ rest, skipBlanks after = 125 :: rest → members (f + 1) (34 :: t) first acc =
      .ok (.object ((String.ofList cs, v) :: acc).reverse, rest)) := by
  rw [members.eq_3, hs]
  simp only [bind, Except.bind]
  split
  · rename_i r2 hr2
    rw [hc] at hr2
    obtain ⟨-, rfl⟩ := List.cons.inj hr2
    rw [hv]
    refine ⟨fun rest hn => ?_, fun rest hn => ?_⟩
    all_goals dsimp only; rw [hn]; rfl
  · rename_i hno
    exact absurd hc (hno _)

/-- An item read, the array goes on after a comma or ends at a closing bracket. -/
theorem items_step {after : Bytes} {v : JsonValue} {f : Nat} (first : Bool)
    (acc : List JsonValue) (hs : ∀ r, s ≠ 93 :: r) (hv : value f s = .ok (v, after)) :
    (∀ rest, skipBlanks after = 44 :: rest → items (f + 1) s first acc =
      items f (skipBlanks rest) false (v :: acc)) ∧
    (∀ rest, skipBlanks after = 93 :: rest → items (f + 1) s first acc =
      .ok (.array (v :: acc).reverse, rest)) := by
  rw [items.eq_3 _ _ _ _ hs, hv]
  simp only [bind, Except.bind]
  refine ⟨fun rest hn => ?_, fun rest hn => ?_⟩
  all_goals rw [hn]; rfl

end Steps

/-! ### Whole values -/

/-- What follows an object's member, as written at a depth: the next members and the closing
    brace. -/
def objectTail (d : Nat) (ms : List (String × JsonValue)) : Bytes :=
  render.members d ms ++ [10] ++ indentAt d ++ Bytes.ofString "\x7d"

/-- An object's text from one member on, as written at a depth. -/
def objectFrom (d : Nat) (k : String) (v : JsonValue) (ms : List (String × JsonValue)) : Bytes :=
  quoteString k ++ Bytes.ofString ": " ++ render (d + 1) v ++ objectTail d ms

/-- What follows an array's item, as written at a depth: the next items and the closing
    bracket. -/
def arrayTail (d : Nat) (vs : List JsonValue) : Bytes :=
  render.items d vs ++ [10] ++ indentAt d ++ Bytes.ofString "]"

/-- An array's text from one item on, as written at a depth. -/
def arrayFrom (d : Nat) (v : JsonValue) (vs : List JsonValue) : Bytes :=
  render (d + 1) v ++ arrayTail d vs

section Layout

variable (d : Nat) (k : String) (v : JsonValue) (ms : List (String × JsonValue))
  (vs : List JsonValue) (rest : Bytes)

theorem render_object_cons :
    render d (.object ((k, v) :: ms)) = 123 :: 10 :: (indentAt (d + 1) ++ objectFrom d k v ms) := by
  simp only [render.eq_8, objectFrom, objectTail, openObject_bytes, List.append_assoc,
    List.cons_append, List.nil_append]

theorem render_array_cons :
    render d (.array (v :: vs)) = 91 :: 10 :: (indentAt (d + 1) ++ arrayFrom d v vs) := by
  simp only [render.eq_6, arrayFrom, arrayTail, openArray_bytes, List.append_assoc,
    List.cons_append, List.nil_append]

theorem objectTail_nil : objectTail d [] = 10 :: (indentAt d ++ [125]) := by
  simp only [objectTail, render.members, closeObject_bytes, List.cons_append, List.nil_append]

theorem objectTail_cons :
    objectTail d ((k, v) :: ms) = 44 :: 10 :: (indentAt (d + 1) ++ objectFrom d k v ms) := by
  simp only [objectTail, objectFrom, render.members.eq_2, comma_bytes, List.append_assoc,
    List.cons_append, List.nil_append]

theorem arrayTail_nil : arrayTail d [] = 10 :: (indentAt d ++ [93]) := by
  simp only [arrayTail, render.items, closeArray_bytes, List.cons_append, List.nil_append]

theorem arrayTail_cons :
    arrayTail d (v :: vs) = 44 :: 10 :: (indentAt (d + 1) ++ arrayFrom d v vs) := by
  simp only [arrayTail, arrayFrom, render.items.eq_2, comma_bytes, List.append_assoc,
    List.cons_append, List.nil_append]

theorem objectFrom_eq :
    objectFrom d k v ms = 34 :: (k.toList.flatMap escapeChar ++ 34 :: 58 :: 32 ::
      (render (d + 1) v ++ objectTail d ms)) := by
  simp only [objectFrom, quoteString, colon_bytes, List.append_assoc, List.cons_append,
    List.nil_append]

theorem skipBlanks_objectFrom : skipBlanks (objectFrom d k v ms ++ rest) = objectFrom d k v ms ++ rest := by
  rw [objectFrom_eq, List.cons_append, skipBlanks_cons (by decide)]

theorem length_arrayTail_pos : 0 < (arrayTail d vs).length := by
  cases vs with
  | nil => rw [arrayTail_nil]; exact Nat.succ_pos _
  | cons v vs => rw [arrayTail_cons]; exact Nat.succ_pos _

theorem endsNumber_objectTail : EndsNumber (objectTail d ms ++ rest) := by
  cases ms with
  | nil => rw [objectTail_nil]; intro b hb; cases hb; decide
  | cons m ms => obtain ⟨k, v⟩ := m; rw [objectTail_cons]; intro b hb; cases hb; decide

theorem endsNumber_arrayTail : EndsNumber (arrayTail d vs ++ rest) := by
  cases vs with
  | nil => rw [arrayTail_nil]; intro b hb; cases hb; decide
  | cons v vs => rw [arrayTail_cons]; intro b hb; cases hb; decide

end Layout

/-- Reading with enough fuel gives back what was written: a value from its text at any depth, an
    object's members from one on, and an array's items from one on. Each call of the reader
    takes at least one byte of the text and one unit of fuel, so fuel above the text's length is
    enough. -/
theorem read_render (f : Nat) :
    (∀ (d : Nat) (v : JsonValue) (rest s : Bytes), IntegerNumbers v → (render d v).length < f →
      EndsNumber rest → skipBlanks s = render d v ++ rest → value f s = .ok (v, rest)) ∧
    (∀ (d : Nat) (k : String) (v : JsonValue) (ms : List (String × JsonValue)) (first : Bool)
      (acc : List (String × JsonValue)) (rest : Bytes), IntegerNumbers v →
      (∀ m ∈ ms, IntegerNumbers m.2) → (objectFrom d k v ms).length < f →
      members f (objectFrom d k v ms ++ rest) first acc =
        .ok (.object (acc.reverse ++ (k, v) :: ms), rest)) ∧
    (∀ (d : Nat) (v : JsonValue) (vs : List JsonValue) (first : Bool) (acc : List JsonValue)
      (rest : Bytes), IntegerNumbers v → (∀ w ∈ vs, IntegerNumbers w) →
      (arrayFrom d v vs).length < f →
      items f (arrayFrom d v vs ++ rest) first acc = .ok (.array (acc.reverse ++ v :: vs), rest)) := by
  induction f with
  | zero =>
    exact ⟨fun _ _ _ _ _ h => absurd h (Nat.not_lt_zero _),
      fun _ _ _ _ _ _ _ _ _ h => absurd h (Nat.not_lt_zero _),
      fun _ _ _ _ _ _ _ _ h => absurd h (Nat.not_lt_zero _)⟩
  | succ f ih =>
    obtain ⟨ihV, ihM, ihI⟩ := ih
    refine ⟨fun d v rest s hv hlen hr hs => ?_, fun d k v ms first acc rest hv hms hlen => ?_,
      fun d v vs first acc rest hv hvs hlen => ?_⟩
    · -- a value, by its kind
      cases hv with
      | null => exact value_word (by rw [hs, render.eq_1]) (.inl ⟨rfl, rfl⟩) f
      | bool b =>
        cases b
        · exact value_word (by rw [hs, render.eq_2]; rfl) (.inr (.inr ⟨rfl, rfl⟩)) f
        · exact value_word (by rw [hs, render.eq_2]; rfl) (.inr (.inl ⟨rfl, rfl⟩)) f
      | number i =>
        obtain ⟨b, t, hbt⟩ := List.exists_cons_of_ne_nil (Bytes.ofInt_ne_nil i)
        have hb : b = 45 ∨ (48 ≤ b.toNat ∧ b.toNat ≤ 57) :=
          (Bytes.mem_ofInt (hbt ▸ List.mem_cons_self)).symm
        refine value_number (t := t ++ rest)
          (by rw [hs, render.eq_3]; show Bytes.ofInt i ++ rest = _; rw [hbt, List.cons_append]) hb ?_ f
        rw [← List.cons_append, ← hbt]
        exact number_ofInt i hr
      | string str =>
        have h := value_string (t := str.toList.flatMap escapeChar ++ 34 :: rest)
          (by rw [hs, render.eq_4, quoteString, List.cons_append, List.append_assoc]; rfl)
          (stringBody_escaped str.toList rest) f
        rwa [String.ofList_toList] at h
      | @array items h =>
        cases items with
        | nil =>
          have hopen : skipBlanks s = 91 :: 93 :: rest := by
            rw [hs, render.eq_5, emptyArray_bytes]; rfl
          rw [value_array hopen f, skipBlanks_cons (by decide)]
          obtain ⟨f, rfl⟩ : ∃ f', f = f' + 1 := ⟨f - 1, by
            rw [render.eq_5, emptyArray_bytes] at hlen; simp at hlen; omega⟩
          rw [items.eq_2, if_pos rfl]
          rfl
        | cons w ws =>
          have hw := h w List.mem_cons_self
          have hopen : skipBlanks s = 91 :: 10 :: (indentAt (d + 1) ++ (arrayFrom d w ws ++ rest)) := by
            rw [hs, render_array_cons]; simp
          rw [value_array hopen f, skipBlanks_cons_blank rfl,
            skipBlanks_indent, arrayFrom, List.append_assoc, skipBlanks_render hw,
            ← List.append_assoc, ← arrayFrom]
          have := ihI d w ws true [] rest hw
            (fun x hx => h x (List.mem_cons_of_mem _ hx))
            (by rw [render_array_cons] at hlen; simp at hlen; omega)
          rwa [List.reverse_nil, List.nil_append] at this
      | @object members h =>
        cases members with
        | nil =>
          have hopen : skipBlanks s = 123 :: 125 :: rest := by
            rw [hs, render.eq_7, emptyObject_bytes]; rfl
          rw [value_object hopen f, skipBlanks_cons (by decide)]
          obtain ⟨f, rfl⟩ : ∃ f', f = f' + 1 := ⟨f - 1, by
            rw [render.eq_7, emptyObject_bytes] at hlen; simp at hlen; omega⟩
          rw [members.eq_2, if_pos rfl]
          rfl
        | cons m ms =>
          obtain ⟨k, w⟩ := m
          have hw := h (k, w) List.mem_cons_self
          have hopen :
              skipBlanks s = 123 :: 10 :: (indentAt (d + 1) ++ (objectFrom d k w ms ++ rest)) := by
            rw [hs, render_object_cons]; simp
          rw [value_object hopen f, skipBlanks_cons_blank rfl,
            skipBlanks_indent, skipBlanks_objectFrom]
          have := ihM d k w ms true [] rest hw
            (fun x hx => h x (List.mem_cons_of_mem _ hx))
            (by rw [render_object_cons] at hlen; simp at hlen; omega)
          rwa [List.reverse_nil, List.nil_append] at this
    · -- an object's members from one on: the name, the colon, the value, then the rest
      have hlen' : (render (d + 1) v).length < f := by
        rw [objectFrom_eq] at hlen; simp at hlen; omega
      have hval := ihV (d + 1) v (objectTail d ms ++ rest)
        (32 :: (render (d + 1) v ++ (objectTail d ms ++ rest))) hv hlen'
        (endsNumber_objectTail d ms rest)
        (by rw [skipBlanks_cons_blank rfl, skipBlanks_render hv])
      obtain ⟨hcomma, hclose⟩ := members_step first acc
        (stringBody_escaped k.toList (58 :: 32 :: (render (d + 1) v ++ (objectTail d ms ++ rest))))
        (skipBlanks_cons (by decide) _) hval
      rw [objectFrom_eq]
      simp only [List.cons_append, List.append_assoc]
      cases ms with
      | nil =>
        rw [hclose rest (by
          rw [objectTail_nil, List.cons_append, skipBlanks_cons_blank rfl, List.append_assoc,
            skipBlanks_indent, List.cons_append, List.nil_append, skipBlanks_cons (by decide)])]
        simp [String.ofList_toList]
      | cons m ms =>
        obtain ⟨k', v'⟩ := m
        rw [hcomma (10 :: (indentAt (d + 1) ++ (objectFrom d k' v' ms ++ rest))) (by
          rw [objectTail_cons, List.cons_append, skipBlanks_cons (by decide)]; simp),
          skipBlanks_cons_blank rfl, skipBlanks_indent, skipBlanks_objectFrom]
        have := ihM d k' v' ms false ((k, v) :: acc) rest
          (hms (k', v') List.mem_cons_self) (fun x hx => hms x (List.mem_cons_of_mem _ hx))
          (by rw [objectFrom_eq, objectTail_cons] at hlen; simp at hlen; omega)
        simpa [String.ofList_toList] using this
    · -- an array's items from one on: the item, then the rest
      have hlen' : (render (d + 1) v).length < f := by
        have := length_arrayTail_pos d vs
        rw [arrayFrom] at hlen; simp at hlen; omega
      have hval := ihV (d + 1) v (arrayTail d vs ++ rest) (arrayFrom d v vs ++ rest) hv hlen'
        (endsNumber_arrayTail d vs rest) (by rw [arrayFrom, List.append_assoc, skipBlanks_render hv])
      have hopen : ∀ r, arrayFrom d v vs ++ rest ≠ 93 :: r := by
        obtain ⟨b, t, hbt, -, hb, -⟩ := render_head hv (d + 1)
        intro r e
        rw [arrayFrom, hbt] at e
        exact hb (List.cons.inj e).1
      obtain ⟨hcomma, hclose⟩ := items_step first acc hopen hval
      cases vs with
      | nil =>
        rw [hclose rest (by
          rw [arrayTail_nil, List.cons_append, skipBlanks_cons_blank rfl, List.append_assoc,
            skipBlanks_indent, List.cons_append, List.nil_append, skipBlanks_cons (by decide)])]
        simp
      | cons w ws =>
        rw [hcomma (10 :: (indentAt (d + 1) ++ (arrayFrom d w ws ++ rest))) (by
          rw [arrayTail_cons, List.cons_append, skipBlanks_cons (by decide)]; simp),
          skipBlanks_cons_blank rfl, skipBlanks_indent]
        have := ihI d w ws false (v :: acc) rest
          (hvs w List.mem_cons_self) (fun x hx => hvs x (List.mem_cons_of_mem _ hx))
          (by rw [arrayFrom, arrayTail_cons] at hlen; simp only [List.length_append, List.length_cons] at hlen; omega)
        have hskip : skipBlanks (arrayFrom d w ws ++ rest) = arrayFrom d w ws ++ rest := by
          rw [arrayFrom, List.append_assoc, skipBlanks_render (hvs w List.mem_cons_self)]
        rw [hskip]
        simpa using this

/-- A value written at any depth, with integers for its numbers, reads back as itself when the
    fuel is above the length of its text. -/
theorem value_render {v : JsonValue} (hv : IntegerNumbers v) (d : Nat) {rest : Bytes}
    (hr : EndsNumber rest) {f : Nat} (hf : (render d v).length < f) :
    value f (render d v ++ rest) = .ok (v, rest) :=
  (read_render f).1 d v rest _ hv hf hr (skipBlanks_render hv d rest)

/-- A document written with integers for its numbers, with a line end after it, parses to the
    value written. -/
theorem parse_render {v : JsonValue} (hv : IntegerNumbers v) :
    parse (render 0 v ++ [10]) = .ok v := by
  unfold parse
  rw [value_render hv 0 (by intro b hb; cases hb; decide) (by simp; omega)]
  rfl

end Unalias.Json
