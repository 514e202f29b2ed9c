import Mathlib
import Unalias.Outcome

/-! # Lines and columns

A position in a file is reported as a line and a column, both counted from 1 and the column in
bytes: the line is one more than the line feeds before the position, and the column one more
than the bytes since the last of them (`lineColumn`).

The rewrite finds these numbers with a cursor that walks the file once. The cursor keeps the
invariant that it has walked the content up to its offset (`LineCursor.Walked`); passing one byte
keeps it (`LineCursor.Walked.pass`), so a walk up to any offset at or past the cursor's keeps it
too, and the cursor then reports that offset's line and column (`LineCursor.locate_walked`).
Asked for offsets in increasing order from the start, it therefore answers each with its line
and its column counted from where its line starts (`LineCursor.locateAll_start`).
-/

namespace Unalias

/-- The line and column of an offset: one more than the line feeds before it, and one more than
    the bytes between the last of them and the offset. -/
def lineColumn (content : Bytes) (offset : Nat) : Nat × Nat :=
  ((content.take offset).count 10 + 1,
    ((content.take offset).reverse.takeWhile (· ≠ 10)).length + 1)

example : lineColumn (Bytes.ofString "ab\ncd") 4 = (2, 2) := by decide +kernel

/-- Where the line of an offset starts: one past the last line feed before the offset, or `0`
    when there is none. -/
def lineStart (content : Bytes) : Nat → Nat
  | 0 => 0
  | n + 1 => if content[n]? = some 10 then n + 1 else lineStart content n

/-- The bytes since the last line feed are those from the start of the line. -/
theorem lineStart_add_takeWhile {content : Bytes} :
    ∀ {offset : Nat}, offset ≤ content.length →
      lineStart content offset +
        ((content.take offset).reverse.takeWhile (· ≠ 10)).length = offset
  | 0, _ => by simp [lineStart]
  | n + 1, hn => by
      have hat : content[n]? = some content[n] := List.getElem?_eq_getElem (by omega)
      have htake : content.take (n + 1) = content.take n ++ [content[n]] := by
        rw [List.take_add_one, hat]
        rfl
      rw [lineStart, htake, List.reverse_append, List.reverse_singleton, List.singleton_append, hat]
      by_cases h10 : content[n] = 10
      · simp [h10]
      · have ih := lineStart_add_takeWhile (by omega : n ≤ content.length)
        rw [if_neg (by simpa using h10), List.takeWhile_cons_of_pos (by simpa using h10),
          List.length_cons]
        omega

/-- The column of an offset counts the bytes from the start of its line, the offset's own
    included. -/
theorem lineColumn_snd {content : Bytes} {offset : Nat} (h : offset ≤ content.length) :
    (lineColumn content offset).2 = offset - lineStart content offset + 1 := by
  have := lineStart_add_takeWhile h
  simp only [lineColumn]
  omega

namespace LineCursor

/-- The cursor has walked the content up to its offset: its line counts the line feeds passed,
    and its line starts right after the last of them. -/
structure Walked (content : Bytes) (c : LineCursor) : Prop where
  offset_le : c.offset ≤ content.length
  line_eq : c.line = (content.take c.offset).count 10 + 1
  lineStart_add :
    c.lineStart + ((content.take c.offset).reverse.takeWhile (· ≠ 10)).length = c.offset

theorem walked_start (content : Bytes) : ({} : LineCursor).Walked content :=
  ⟨Nat.zero_le _, by simp, by simp⟩

/-- The cursor after it passes byte `b`: one further, on the next line after a line feed. -/
theorem advance_cons {c : LineCursor} {target : Nat} {b : UInt8} {rest : Bytes}
    (hlt : c.offset < target) :
    c.advance target (b :: rest) =
      (if b = 10 then (⟨c.offset + 1, c.line + 1, c.offset + 1⟩ : LineCursor)
        else ⟨c.offset + 1, c.line, c.lineStart⟩).advance target rest := by
  rw [advance, if_pos hlt]
  split <;> rfl

/-- Passing the byte at the offset keeps the cursor walked. -/
theorem Walked.pass {content : Bytes} {c : LineCursor} (hc : c.Walked content) {b : UInt8}
    {rest : Bytes} (hb : content.drop c.offset = b :: rest) :
    (if b = 10 then (⟨c.offset + 1, c.line + 1, c.offset + 1⟩ : LineCursor)
      else ⟨c.offset + 1, c.line, c.lineStart⟩).Walked content := by
  have hat : content[c.offset]? = some b := by
    rw [← Nat.add_zero c.offset, ← List.getElem?_drop, hb]
    rfl
  have hlen : c.offset < content.length := by
    have := congrArg List.length hb
    simp only [List.length_drop, List.length_cons] at this
    omega
  -- the content walked now ends with `b`
  have htake : content.take (c.offset + 1) = content.take c.offset ++ [b] := by
    rw [List.take_add_one, hat]
    rfl
  have ⟨_, hline, hstart⟩ := hc
  by_cases h10 : b = 10
  · subst h10
    rw [if_pos rfl]
    exact ⟨hlen, by simp [htake, hline], by simp [htake]⟩
  · rw [if_neg h10]
    refine ⟨hlen, by simp [htake, hline, h10], ?_⟩
    show c.lineStart + _ = c.offset + 1
    rw [htake, List.reverse_append, List.reverse_singleton, List.singleton_append,
      List.takeWhile_cons_of_pos (by simpa using h10), List.length_cons]
    omega

/-- A walk up to a target between the cursor's offset and the end of the content stops on the
    target, and keeps the cursor walked. -/
theorem advance_walked {content : Bytes} {target : Nat} (htarget : target ≤ content.length) :
    ∀ (bytes : Bytes) {c : LineCursor}, c.Walked content → content.drop c.offset = bytes →
      c.offset ≤ target → (c.advance target bytes).Walked content ∧
        (c.advance target bytes).offset = target
  | [], c, hc, hdrop, hle => by
      have : content.length ≤ c.offset := List.drop_eq_nil_iff.mp hdrop
      exact ⟨hc, by simp only [advance]; omega⟩
  | b :: rest, c, hc, hdrop, hle => by
      by_cases hlt : c.offset < target
      · rw [advance_cons hlt]
        apply advance_walked htarget rest (hc.pass hdrop)
        · split <;>
          · show content.drop (c.offset + 1) = rest
            rw [← List.drop_drop, hdrop, List.drop_one, List.tail_cons]
        · split <;> exact hlt
      · rw [advance, if_neg hlt]
        exact ⟨hc, by omega⟩

/-- A walked cursor asked for an offset at or past its own, inside the content, reports that
    offset's line and column and stays walked, now at that offset. -/
theorem locate_walked {content : Bytes} {c : LineCursor} (hc : c.Walked content) {target : Nat}
    (hle : c.offset ≤ target) (hlen : target ≤ content.length) :
    (c.locate content target).1 = lineColumn content target ∧
      (c.locate content target).2.Walked content ∧ (c.locate content target).2.offset = target := by
  obtain ⟨hwalked, hoffset⟩ := advance_walked hlen _ hc rfl hle
  refine ⟨?_, hwalked, hoffset⟩
  have ⟨_, hline, hstart⟩ := hwalked
  rw [hoffset] at hline hstart
  simp only [locate, lineColumn, hline, Prod.mk.injEq, true_and]
  omega

/-- The answers of successive calls at the offsets, each call going on from the cursor the one
    before it left. -/
def locateAll (content : Bytes) : LineCursor → List Nat → List (Nat × Nat)
  | _, [] => []
  | c, o :: os => (c.locate content o).1 :: locateAll content (c.locate content o).2 os

/-- A walked cursor asked for offsets in increasing order, none before it and none past the
    end of the content, answers each with its line and column. -/
theorem locateAll_walked {content : Bytes} :
    ∀ {offsets : List Nat} {c : LineCursor}, c.Walked content → (∀ o ∈ offsets, c.offset ≤ o) →
      offsets.Pairwise (· ≤ ·) → (∀ o ∈ offsets, o ≤ content.length) →
      locateAll content c offsets = offsets.map (lineColumn content)
  | [], _, _, _, _, _ => rfl
  | o :: os, c, hc, hle, hsorted, hlen => by
      obtain ⟨hpos, hwalked, hoffset⟩ :=
        locate_walked hc (hle o List.mem_cons_self) (hlen o List.mem_cons_self)
      rw [List.pairwise_cons] at hsorted
      -- the cursor now stands at `o`, at or before every later offset
      have hrest := locateAll_walked hwalked (fun o' ho' => by rw [hoffset]; exact hsorted.1 o' ho')
        hsorted.2 fun o' ho' => hlen o' (List.mem_cons_of_mem _ ho')
      rw [locateAll, hpos, hrest, List.map_cons]

/-- A fresh cursor asked for offsets in increasing order, none past the end of the content,
    answers each offset with one more than the line feeds before it, and with one more than the
    bytes between the start of its line and the offset. -/
theorem locateAll_start (content : Bytes) {offsets : List Nat}
    (hsorted : offsets.Pairwise (· ≤ ·)) (hlen : ∀ o ∈ offsets, o ≤ content.length) :
    locateAll content {} offsets =
      offsets.map fun o => ((content.take o).count 10 + 1, o - Unalias.lineStart content o + 1) := by
  rw [locateAll_walked (walked_start content) (fun o _ => Nat.zero_le o) hsorted hlen]
  refine List.map_congr_left fun o ho => ?_
  rw [← lineColumn_snd (hlen o ho)]
  rfl

/-- Offsets at the start of the content, on empty lines, repeated, and at its end. -/
theorem locateAll_start_blank_lines :
    [0, 3, 3, 4, 6].Pairwise (· ≤ ·) ∧ (∀ o ∈ [0, 3, 3, 4, 6], o ≤ [97, 98, 10, 10, 99, 100].length) ∧
      locateAll [97, 98, 10, 10, 99, 100] {} [0, 3, 3, 4, 6] =
        [(1, 1), (2, 1), (2, 1), (3, 1), (3, 3)] :=
  ⟨by decide, by decide, (locateAll_start _ (by decide) (by decide)).trans (by decide)⟩

end LineCursor

end Unalias
