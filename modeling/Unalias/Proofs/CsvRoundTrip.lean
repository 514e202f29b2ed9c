import Mathlib
import Unalias.Csv

/-! # Reading back comma-separated records

Records whose fields hold no line feed, written one per line and joined by line feeds, read
back as themselves (`read_writeLines`). A field written bare holds no comma, quote, carriage
return or line feed, so it runs to the next comma or to the end of its line. A quoted field is
read chunk by chunk, each chunk running to the next quote: a doubled quote goes on with the field
(`readQuoted_escaped`), and the closing quote is followed by a comma or by the end of the line
(`readQuoted_comma`, `readQuoted_end`).

The reader spends one unit of fuel on each chunk or field of a line and one on each record, so
fuel above the length of the text is enough.
-/

namespace Unalias.Csv

/-- The bytes of a field between its quotes: every quote doubled. -/
def escapeQuotes (field : Bytes) : Bytes :=
  field.flatMap fun b => if b == 34 then [34, 34] else [b]

/-- A record as written, without its line feed. -/
def writeLine (fields : List Bytes) : Bytes := List.intercalate [44] (fields.map writeField)

theorem writeRecord_eq (fields : List Bytes) : writeRecord fields = writeLine fields ++ [10] := rfl

/-! ## Fields as written -/

theorem writeField_quoted {field : Bytes} (h : NeedsQuotes field = true) :
    writeField field = 34 :: (escapeQuotes field ++ [34]) := by
  rw [writeField, if_pos h, escapeQuotes, List.cons_append]

theorem writeField_bare {field : Bytes} (h : NeedsQuotes field = false) :
    writeField field = field := by
  rw [writeField, if_neg (by rw [h]; exact Bool.false_ne_true)]

/-- A field written bare holds none of the bytes that end a field or a line. -/
theorem bare_bytes {field : Bytes} (h : NeedsQuotes field = false) {b : UInt8} (hb : b ∈ field) :
    b ≠ 10 ∧ b ≠ 13 ∧ b ≠ 34 ∧ b ≠ 44 := by
  unfold NeedsQuotes at h
  split at h
  · rename_i he
    rw [List.isEmpty_iff.1 he] at hb
    exact absurd hb List.not_mem_nil
  · simp only [Bool.or_eq_false_iff, List.any_eq_false] at h
    have hb' := h.1.2 b hb
    simp only [Bool.or_eq_true, beq_iff_eq, not_or] at hb'
    exact ⟨hb'.1.1.1, hb'.1.1.2, hb'.1.2, hb'.2⟩

theorem escapeQuotes_cons (b : UInt8) (c : Bytes) :
    escapeQuotes (b :: c) = (if b == 34 then [34, 34] else [b]) ++ escapeQuotes c := rfl

theorem escapeQuotes_of_not_mem : ∀ {c : Bytes}, 34 ∉ c → escapeQuotes c = c
  | [], _ => rfl
  | b :: c, hc => by
    rw [List.mem_cons, not_or] at hc
    have hb : (b == 34) = false := beq_false_of_ne fun h => hc.1 h.symm
    rw [escapeQuotes_cons, hb, if_neg Bool.false_ne_true, escapeQuotes_of_not_mem hc.2]
    rfl

theorem mem_escapeQuotes {field : Bytes} {b : UInt8} (h : b ∈ escapeQuotes field) :
    b ∈ field ∨ b = 34 := by
  obtain ⟨a, ha, hb⟩ := List.mem_flatMap.1 h
  split at hb
  · simp at hb
    exact .inr hb
  · rw [List.mem_singleton.1 hb]
    exact .inl ha

/-- A field splits at its first quote, if it has one. -/
theorem split_first_quote (field : Bytes) :
    34 ∉ field ∨ ∃ c g, 34 ∉ c ∧ field = c ++ 34 :: g := by
  by_cases h : 34 ∈ field
  · right
    obtain ⟨c, g, hc, hsplit, -⟩ := List.exists_erase_eq h
    exact ⟨c, g, hc, hsplit⟩
  · exact .inl h

theorem escapeQuotes_quote {c : Bytes} (hc : 34 ∉ c) (g : Bytes) :
    escapeQuotes (c ++ 34 :: g) = c ++ 34 :: 34 :: escapeQuotes g := by
  rw [escapeQuotes, List.flatMap_append, ← escapeQuotes, escapeQuotes_of_not_mem hc,
    List.flatMap_cons, ← escapeQuotes]
  rfl

/-! ## Reading a quoted field -/

theorem takeWhile_ne_append {b : UInt8} {c : Bytes} (hc : b ∉ c) (rest : Bytes) :
    (c ++ b :: rest).takeWhile (· != b) = c := by
  rw [List.takeWhile_append_of_pos fun x hx => by simpa using ne_of_mem_of_not_mem hx hc]
  simp

section Quoted

variable {c : Bytes} (hc : 34 ∉ c) (fuel : Nat) (p : Place) (rest : Bytes) (fields : List Bytes)
  (cur : Bytes)
include hc

/-- A doubled quote after a chunk goes on with the field. -/
theorem readQuoted_quote (after : Bytes) : ∃ p',
    readFields.readQuoted (fuel + 1) p (c ++ 34 :: 34 :: after) rest fields cur =
      readFields.readQuoted fuel p' after rest fields (34 :: (c.reverse ++ cur)) := by
  rw [readFields.readQuoted.eq_2, takeWhile_ne_append hc, if_pos (by simp)]
  dsimp only
  rw [show (c ++ 34 :: 34 :: after).drop (c.length + 1) = 34 :: after by simp]
  exact ⟨_, rfl⟩

/-- A closing quote followed by a comma ends the field, and the next field is read. -/
theorem readQuoted_comma (after : Bytes) : ∃ p',
    readFields.readQuoted (fuel + 1) p (c ++ 34 :: 44 :: after) rest fields cur =
      readFields fuel p' after rest ((c.reverse ++ cur).reverse :: fields) := by
  rw [readFields.readQuoted.eq_2, takeWhile_ne_append hc, if_pos (by simp)]
  dsimp only
  rw [show (c ++ 34 :: 44 :: after).drop (c.length + 1) = 44 :: after by simp]
  exact ⟨_, rfl⟩

/-- A closing quote at the end of the line ends the field and the record. -/
theorem readQuoted_end {tail : Bytes} (htail : tail = [] ∨ tail = [10]) :
    readFields.readQuoted (fuel + 1) p (c ++ 34 :: tail) rest fields cur =
      .ok (((c.reverse ++ cur).reverse :: fields).reverse, rest, p.lines) := by
  rw [readFields.readQuoted.eq_2, takeWhile_ne_append hc, if_pos (by simp)]
  dsimp only
  rw [show (c ++ 34 :: tail).drop (c.length + 1) = tail by simp]
  rcases htail with rfl | rfl <;> rfl

end Quoted

/-- Reading the escaped bytes of a field, chunk by chunk, comes to the last chunk before the
    closing quote, with everything before it read into the field. -/
theorem readQuoted_escaped (after rest : Bytes) (fields : List Bytes) (n : Nat) :
    ∀ (f cur : Bytes) (p : Place) (fuel : Nat), f.length ≤ n →
      (escapeQuotes f ++ 34 :: after).length < fuel →
      ∃ c cur' p' fuel', 34 ∉ c ∧ c.reverse ++ cur' = f.reverse ++ cur ∧
        (c ++ 34 :: after).length < fuel' ∧
        readFields.readQuoted fuel p (escapeQuotes f ++ 34 :: after) rest fields cur =
          readFields.readQuoted fuel' p' (c ++ 34 :: after) rest fields cur' := by
  -- a field without quotes is its own last chunk
  have last : ∀ (f cur : Bytes) (p : Place) (fuel : Nat), 34 ∉ f →
      (escapeQuotes f ++ 34 :: after).length < fuel →
      ∃ c cur' p' fuel', 34 ∉ c ∧ c.reverse ++ cur' = f.reverse ++ cur ∧
        (c ++ 34 :: after).length < fuel' ∧
        readFields.readQuoted fuel p (escapeQuotes f ++ 34 :: after) rest fields cur =
          readFields.readQuoted fuel' p' (c ++ 34 :: after) rest fields cur' :=
    fun f cur p fuel hf hfuel => ⟨f, cur, p, fuel, hf, rfl,
      by rwa [escapeQuotes_of_not_mem hf] at hfuel, by rw [escapeQuotes_of_not_mem hf]⟩
  induction n with
  | zero =>
    intro f cur p fuel hn hfuel
    rw [List.length_eq_zero_iff.1 (Nat.le_zero.1 hn)] at hfuel ⊢
    exact last [] cur p fuel List.not_mem_nil hfuel
  | succ n ih =>
    intro f cur p fuel hn hfuel
    rcases split_first_quote f with hf | ⟨c, g, hc, rfl⟩
    · exact last f cur p fuel hf hfuel
    rw [escapeQuotes_quote hc] at hfuel ⊢
    obtain ⟨fuel, rfl⟩ : ∃ k, fuel = k + 1 := ⟨fuel - 1, by simp at hfuel; omega⟩
    obtain ⟨p', hstep⟩ := readQuoted_quote hc fuel p rest fields cur (escapeQuotes g ++ 34 :: after)
    simp only [List.append_assoc, List.cons_append] at hfuel ⊢
    rw [hstep]
    obtain ⟨c', cur', p'', fuel', hc', hrev, hlen, heq⟩ := ih g (34 :: (c.reverse ++ cur)) p' fuel
      (by simp at hn; omega) (by simp at hfuel ⊢; omega)
    exact ⟨c', cur', p'', fuel', hc', by rw [hrev]; simp, hlen, heq⟩

/-! ## Reading a record's line -/

theorem writeLine_singleton (f : Bytes) : writeLine [f] = writeField f := by
  simp [writeLine]

theorem writeLine_cons_cons (f g : Bytes) (gs : List Bytes) :
    writeLine (f :: g :: gs) = writeField f ++ 44 :: writeLine (g :: gs) := by
  simp [writeLine, List.intercalate_cons_cons]

/-- A bare field is not taken for the opening quote of a quoted one. -/
theorem bare_not_quote {f after : Bytes} (hf : NeedsQuotes f = false) (hafter : ∀ q, after ≠ 34 :: q)
    (q : Bytes) : f ++ after ≠ 34 :: q := by
  cases f with
  | nil => exact hafter q
  | cons b f =>
    intro h
    exact (bare_bytes hf List.mem_cons_self).2.2.1 (List.cons.inj h).1

/-- The fields of a written line, followed by nothing or by a line feed, read back as the
    fields. -/
theorem readFields_writeLine {tail : Bytes} (htail : tail = [] ∨ tail = [10]) (rest : Bytes) :
    ∀ (fields acc : List Bytes) (p : Place) (fuel : Nat), fields ≠ [] →
      (∀ f ∈ fields, 10 ∉ f) → (writeLine fields ++ tail).length < fuel →
      ∃ n, readFields fuel p (writeLine fields ++ tail) rest acc = .ok (acc.reverse ++ fields, rest, n)
  | [], _, _, _, h, _, _ => absurd rfl h
  | [f], acc, p, fuel, _, hlf, hfuel => by
    rw [writeLine_singleton] at hfuel ⊢
    cases hq : NeedsQuotes f with
    | true =>
      rw [writeField_quoted hq] at hfuel ⊢
      obtain ⟨k, rfl⟩ : ∃ k, fuel = k + 1 := ⟨fuel - 1, by simp at hfuel; omega⟩
      rw [List.cons_append, readFields.eq_2, List.append_assoc, List.singleton_append]
      obtain ⟨c, cur, p', fuel', hc, hrev, hlen, heq⟩ := readQuoted_escaped tail rest acc f.length f []
        _ k (Nat.le_refl _) (by simp at hfuel ⊢; omega)
      obtain ⟨j, rfl⟩ : ∃ j, fuel' = j + 1 := ⟨fuel' - 1, by simp at hlen; omega⟩
      rw [heq, readQuoted_end hc j p' rest acc cur htail, hrev]
      exact ⟨p'.lines, by simp⟩
    | false =>
      rw [writeField_bare hq] at hfuel ⊢
      obtain ⟨k, rfl⟩ : ∃ k, fuel = k + 1 := ⟨fuel - 1, by simp at hfuel; omega⟩
      have htail_bytes : ∀ b ∈ tail, b = 10 := by
        rcases htail with rfl | rfl <;> simp
      have hcomma : (f ++ tail).takeWhile (· != 44) = f ++ tail :=
        List.takeWhile_eq_self_iff.2 fun b hb => by
          rcases List.mem_append.1 hb with hb | hb
          · simpa using (bare_bytes hq hb).2.2.2
          · rw [htail_bytes b hb]; rfl
      have hquote : (f ++ tail).takeWhile (· != 34) = f ++ tail :=
        List.takeWhile_eq_self_iff.2 fun b hb => by
          rcases List.mem_append.1 hb with hb | hb
          · simpa using (bare_bytes hq hb).2.2.1
          · rw [htail_bytes b hb]; rfl
      have hdrop : dropNewline (f ++ tail) = f := by
        rcases htail with rfl | rfl
        · rw [List.append_nil, dropNewline, if_neg]
          intro h
          exact (bare_bytes hq (List.mem_of_getLast? (by simpa using h))).1 rfl
        · rw [dropNewline, if_pos (by simp), List.dropLast_concat]
      rw [readFields.eq_3 _ _ _ _ _ (fun q h => bare_not_quote hq (by
          rcases htail with rfl | rfl <;> simp) q h), hcomma, if_neg (Nat.lt_irrefl _)]
      dsimp only
      rw [hquote, hdrop, if_neg (by simp)]
      exact ⟨p.lines, by simp⟩
  | f :: g :: gs, acc, p, fuel, _, hlf, hfuel => by
    have hrest : (writeLine (g :: gs) ++ tail).length < fuel - 1 := by
      rw [writeLine_cons_cons] at hfuel
      simp only [List.append_assoc, List.cons_append, List.length_append, List.length_cons]
        at hfuel ⊢
      omega
    rw [writeLine_cons_cons] at hfuel ⊢
    cases hq : NeedsQuotes f with
    | true =>
      rw [writeField_quoted hq] at hfuel ⊢
      obtain ⟨k, rfl⟩ : ∃ k, fuel = k + 1 := ⟨fuel - 1, by simp at hfuel; omega⟩
      simp only [List.cons_append, List.append_assoc, List.nil_append] at hfuel ⊢
      rw [readFields.eq_2]
      obtain ⟨c, cur, p', fuel', hc, hrev, hlen, heq⟩ := readQuoted_escaped
        (44 :: (writeLine (g :: gs) ++ tail)) rest acc f.length f [] _ k (Nat.le_refl _) (by simp at hfuel ⊢; omega)
      obtain ⟨j, rfl⟩ : ∃ j, fuel' = j + 1 := ⟨fuel' - 1, by simp at hlen; omega⟩
      obtain ⟨p'', hcomma⟩ := readQuoted_comma hc j p' rest acc cur (writeLine (g :: gs) ++ tail)
      rw [heq, hcomma, hrev, List.append_nil, List.reverse_reverse]
      obtain ⟨n, hn⟩ := readFields_writeLine htail rest (g :: gs) (f :: acc) p'' j
        (List.cons_ne_nil _ _) (fun x hx => hlf x (List.mem_cons_of_mem _ hx))
        (by simp at hlen ⊢; omega)
      exact ⟨n, by rw [hn]; simp⟩
    | false =>
      rw [writeField_bare hq] at hfuel ⊢
      obtain ⟨k, rfl⟩ : ∃ k, fuel = k + 1 := ⟨fuel - 1, by simp at hfuel; omega⟩
      have hcomma : (f ++ 44 :: (writeLine (g :: gs) ++ tail)).takeWhile (· != 44) = f :=
        takeWhile_ne_append (fun h => (bare_bytes hq h).2.2.2 rfl) _
      have hquote : f.takeWhile (· != 34) = f :=
        List.takeWhile_eq_self_iff.2 fun b hb => by simpa using (bare_bytes hq hb).2.2.1
      simp only [List.append_assoc, List.cons_append]
      rw [readFields.eq_3 _ _ _ _ _ (fun q h => bare_not_quote hq
          (fun q' h' => absurd (List.cons.inj h').1 (by decide)) q h),
        hcomma, if_pos (by simp), hquote, if_neg (Nat.lt_irrefl _),
        show (f ++ 44 :: (writeLine (g :: gs) ++ tail)).drop (f.length + 1) =
          writeLine (g :: gs) ++ tail by simp]
      obtain ⟨n, hn⟩ := readFields_writeLine htail rest (g :: gs) (f :: acc) _ k
        (List.cons_ne_nil _ _) (fun x hx => hlf x (List.mem_cons_of_mem _ hx)) hrest
      exact ⟨n, by rw [hn]; simp⟩

/-! ## Reading the records of a text -/

/-- Records written one per line, the lines joined by line feeds. -/
def writeLines (records : List (List Bytes)) : Bytes :=
  List.intercalate [10] (records.map writeLine)

/-- A record that reads back from its own line: two fields at least, so that its line is not
    empty, and no line feed in any field. -/
def OneLine (fields : List Bytes) : Prop := 1 < fields.length ∧ ∀ f ∈ fields, 10 ∉ f

theorem mem_writeField {f : Bytes} {b : UInt8} (h : b ∈ writeField f) : b ∈ f ∨ b = 34 := by
  cases hq : NeedsQuotes f with
  | true =>
    rw [writeField_quoted hq] at h
    simp only [List.mem_cons, List.mem_append, List.not_mem_nil, or_false] at h
    rcases h with h | h | h
    · exact .inr h
    · exact mem_escapeQuotes h
    · exact .inr h
  | false =>
    rw [writeField_bare hq] at h
    exact .inl h

theorem writeField_getLast? (f : Bytes) : (writeField f).getLast? ≠ some 13 := by
  cases hq : NeedsQuotes f with
  | true =>
    rw [writeField_quoted hq, ← List.cons_append, List.getLast?_concat]
    decide
  | false =>
    rw [writeField_bare hq]
    intro h
    exact (bare_bytes hq (List.mem_of_getLast? h)).2.1 rfl

theorem not_mem_writeLine : ∀ {fields : List Bytes}, (∀ f ∈ fields, 10 ∉ f) → 10 ∉ writeLine fields
  | [], _ => by simp [writeLine]
  | [f], h => by
    rw [writeLine_singleton]
    intro hm
    rcases mem_writeField hm with hm | hm
    · exact h f List.mem_cons_self hm
    · exact absurd hm (by decide)
  | f :: g :: gs, h => by
    rw [writeLine_cons_cons]
    intro hm
    rcases List.mem_append.1 hm with hm | hm
    · rcases mem_writeField hm with hm | hm
      · exact h f List.mem_cons_self hm
      · exact absurd hm (by decide)
    · rcases List.mem_cons.1 hm with hm | hm
      · exact absurd hm (by decide)
      · exact not_mem_writeLine (fun x hx => h x (List.mem_cons_of_mem _ hx)) hm

theorem writeLine_getLast? : ∀ (fields : List Bytes), (writeLine fields).getLast? ≠ some 13
  | [] => by simp [writeLine]
  | [f] => by rw [writeLine_singleton]; exact writeField_getLast? f
  | f :: g :: gs => by
    rw [writeLine_cons_cons, List.getLast?_append, List.getLast?_cons]
    have ih := writeLine_getLast? (g :: gs)
    cases h : (writeLine (g :: gs)).getLast? with
    | none => simp
    | some x =>
      rw [h] at ih
      simpa using ih

theorem writeLine_ne_nil {fields : List Bytes} (h : 1 < fields.length) : writeLine fields ≠ [] := by
  match fields, h with
  | f :: g :: gs, _ => rw [writeLine_cons_cons]; simp

theorem nextLine_cons {line rest : Bytes} (h10 : 10 ∉ line) (h13 : line.getLast? ≠ some 13) :
    nextLine (line ++ 10 :: rest) = (line ++ [10], rest) := by
  unfold nextLine
  rw [takeWhile_ne_append h10, if_pos (by simp), if_neg (by simpa using h13)]
  simp

theorem nextLine_last {line : Bytes} (h10 : 10 ∉ line) (h13 : line.getLast? ≠ some 13) :
    nextLine line = (line, []) := by
  have hall : line.takeWhile (· != 10) = line :=
    List.takeWhile_eq_self_iff.2 fun b hb => by simpa using ne_of_mem_of_not_mem hb h10
  unfold nextLine
  rw [hall, if_neg (Nat.lt_irrefl _), if_neg (by simpa using h13)]

/-- A record's line, the last of the text or followed by a line feed, reads as the record, and
    the reading goes on after the line feed. -/
theorem readRecord_writeLine {r : List Bytes} (hr : OneLine r) (lines : Nat) {after more : Bytes}
    (hafter : (after = [] ∧ more = []) ∨ after = 10 :: more) :
    ∃ n, readRecord ((writeLine r ++ after).length + 1) lines (writeLine r ++ after) =
      .ok (some (r, more, n)) := by
  obtain ⟨hlen, hlf⟩ := hr
  have hne := writeLine_ne_nil hlen
  have h10 := not_mem_writeLine hlf
  -- the line as the reader cuts it: with its line feed unless it is the last
  obtain ⟨tail, htail, hnext⟩ : ∃ tail, (tail = [] ∨ tail = [10]) ∧
      nextLine (writeLine r ++ after) = (writeLine r ++ tail, more) := by
    rcases hafter with ⟨rfl, rfl⟩ | rfl
    · exact ⟨[], .inl rfl, by rw [List.append_nil, nextLine_last h10 (writeLine_getLast? r)]⟩
    · exact ⟨[10], .inr rfl, nextLine_cons h10 (writeLine_getLast? r)⟩
  have hblank : ((writeLine r ++ tail).isEmpty || writeLine r ++ tail == [10]) = false := by
    have hnil : writeLine r ++ tail ≠ [] := by simp [hne]
    have hlf' : writeLine r ++ tail ≠ [10] := by
      intro h
      obtain ⟨b, bs, hb⟩ := List.exists_cons_of_ne_nil hne
      rw [hb, List.cons_append] at h
      have hb10 : b = 10 := (List.cons.inj h).1
      exact h10 (hb ▸ hb10 ▸ List.mem_cons_self)
    simp [hnil, hlf']
  rw [readRecord.eq_2, if_neg (by simp [hne]), hnext]
  dsimp only
  rw [hblank, if_neg Bool.false_ne_true]
  obtain ⟨n, hn⟩ := readFields_writeLine htail more r []
    { start := lines + 1, lines := lines + 1, line := lines + 1, column := 1 }
    (2 * (writeLine r ++ after).length + 2) (fun h => by simp [h] at hlen) hlf
    (by rcases hafter with ⟨rfl, rfl⟩ | rfl <;> rcases htail with rfl | rfl <;> simp <;> omega)
  rw [hn]
  exact ⟨n, rfl⟩

theorem writeLines_cons_cons (r r' : List Bytes) (rs : List (List Bytes)) :
    writeLines (r :: r' :: rs) = writeLine r ++ 10 :: writeLines (r' :: rs) := by
  simp [writeLines, List.intercalate_cons_cons]

/-- The records of a text of record lines are read one line after another. -/
theorem readRecords_writeLines : ∀ (records : List (List Bytes)) (lines fuel : Nat),
    (∀ r ∈ records, OneLine r) → records.length < fuel →
      readRecords fuel lines (writeLines records) = .ok records
  | [], _, fuel, _, hfuel => by
    obtain ⟨k, rfl⟩ : ∃ k, fuel = k + 1 := ⟨fuel - 1, by simp at hfuel; omega⟩
    rfl
  | [r], lines, fuel, h, hfuel => by
    obtain ⟨k, rfl⟩ : ∃ k, fuel = k + 1 := ⟨fuel - 1, by simp at hfuel; omega⟩
    obtain ⟨n, hn⟩ := readRecord_writeLine (h r List.mem_cons_self) lines (.inl ⟨rfl, rfl⟩)
    have hline : writeLines [r] = writeLine r ++ [] := by simp [writeLines]
    rw [hline, readRecords.eq_2, hn]
    simp only [bind, Except.bind]
    rw [show ([] : Bytes) = writeLines [] from rfl,
      readRecords_writeLines [] n k (fun _ h => absurd h List.not_mem_nil) (by simp at hfuel; omega)]
    rfl
  | r :: r' :: rs, lines, fuel, h, hfuel => by
    obtain ⟨k, rfl⟩ : ∃ k, fuel = k + 1 := ⟨fuel - 1, by simp at hfuel; omega⟩
    obtain ⟨n, hn⟩ := readRecord_writeLine (h r List.mem_cons_self) lines
      (.inr (rfl : (10 :: writeLines (r' :: rs) : Bytes) = 10 :: writeLines (r' :: rs)))
    rw [writeLines_cons_cons, readRecords.eq_2, hn]
    simp only [bind, Except.bind]
    rw [readRecords_writeLines (r' :: rs) n k (fun x hx => h x (List.mem_cons_of_mem _ hx))
      (by simp at hfuel ⊢; omega)]
    rfl

theorem length_le_writeLines : ∀ {records : List (List Bytes)}, (∀ r ∈ records, OneLine r) →
    records.length ≤ (writeLines records).length
  | [], _ => Nat.zero_le _
  | [r], h => by
    have hne := writeLine_ne_nil (h r List.mem_cons_self).1
    have : 0 < (writeLine r).length := List.length_pos_iff.2 hne
    simp [writeLines]
    omega
  | r :: r' :: rs, h => by
    have ih := length_le_writeLines fun x hx => h x (List.mem_cons_of_mem r hx)
    rw [writeLines_cons_cons]
    simp only [List.length_append, List.length_cons] at ih ⊢
    omega

/-- Records of two fields or more, with no line feed in any field, written one per line and
    joined by line feeds, read back as themselves. -/
theorem read_writeLines {records : List (List Bytes)} (h : ∀ r ∈ records, OneLine r) :
    read (writeLines records) = .ok records :=
  readRecords_writeLines records 0 _ h (Nat.lt_succ_of_le (length_le_writeLines h))
end Unalias.Csv
