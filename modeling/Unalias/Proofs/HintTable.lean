import Mathlib.Data.List.Nodup
import Unalias.Proofs.Remapping
import Unalias.Proofs.Separated
import Unalias.Replay

/-! # Hint tables and the shift search

Recording a hint drops the hint recorded at its offset before it (`Hints.set`). So a table
recorded from a list of hints holds each offset once (`Hints.nodup_foldl_set`) and finds at each
offset the hint recorded last there (`Hints.lookup_foldl_set`): it holds exactly those hints
(`Hints.mem_foldl_set`).

A shift puts every hint on a specifier when each hint's offset, moved by it, is the start of a
scanned specifier holding the hint's old text (`Hints.matchAt_iff`). The scanner's specifiers
start at different places (`scan_starts_lt`), so the specifiers the shift search tries, those
holding the old text of the hint at the least offset, give different shifts; the search answers
a shift exactly when it is the only one that puts every hint on a specifier
(`Hints.findShift_eq_some_iff`), and none exactly when no shift or two different ones do
(`Hints.findShift_complete`). Only that the specifiers start at different places matters, not
their order.

The program computes offsets and shifts in 64-bit words with sign, which wrap. The offsets a log
records fit in them, and a replay takes only those that are not negative; a file's positions fit
too. So no sum the search forms wraps onto a position: in words, a shift puts every hint on a
specifier exactly when it does in integers (`Hints.matchAt64_toWords`), and the search answers
the shift it answers in integers (`Hints.findShift64_toWords`).
-/

namespace Unalias

section Lookup

variable {α β : Type} [BEq α] [LawfulBEq α]

/-- In an association list that holds each key once, the lookup finds exactly its entries. -/
theorem lookup_eq_some_iff_mem {l : List (α × β)} {k : α} {v : β}
    (hnd : (l.map (·.1)).Nodup) : l.lookup k = some v ↔ (k, v) ∈ l := by
  induction l with
  | nil => simp
  | cons p l ih =>
      obtain ⟨a, b⟩ := p
      simp only [List.map_cons, List.nodup_cons] at hnd
      rw [List.lookup_cons, List.mem_cons]
      by_cases hk : k = a
      · subst hk
        simp only [beq_self_eq_true, Option.some.injEq, Prod.mk.injEq, true_and]
        -- the key is held once, so no later entry has it
        exact ⟨fun h => .inl h.symm, fun h => h.elim Eq.symm
          fun hmem => absurd (List.mem_map.mpr ⟨_, hmem, rfl⟩) hnd.1⟩
      · simp only [beq_false_of_ne hk, Prod.mk.injEq, hk, false_and, false_or]
        exact ih hnd.2

end Lookup

/-- The scanner's specifiers start at strictly increasing offsets. -/
theorem scan_starts_lt (content : Bytes) :
    (scan content).Pairwise fun o o' => o.start < o'.start := by
  have hplaced := scan_placed content
  refine (scan_separated content).imp_of_mem fun {o _} ho _ hlt => ?_
  have := (hplaced.sitsIn o ho).stop_eq
  omega

/-- The edits remapping makes stand at increasing offsets. -/
theorem referenceEdits_offsets_lt (content : Bytes) (mapping : List (Bytes × Bytes))
    (hints : Hints) :
    (referenceEdits content mapping hints).Pairwise fun e e' => e.offset < e'.offset :=
  (scan_starts_lt content).filterMap _ fun o o' hlt e he e' he' => by
    rw [(referenceEdit_at he).1, (referenceEdit_at he').1]
    exact_mod_cast hlt

/-- Specifiers that start at different places and all start where one of them does are that one
    alone. -/
theorem eq_singleton_of_starts {os : List Occurrence}
    (hos : os.Pairwise fun o o' => o.start ≠ o'.start) {o₀ : Occurrence} (h₀ : o₀ ∈ os)
    (hsame : ∀ o ∈ os, o.start = o₀.start) : os = [o₀] := by
  match os, hos with
  | [], _ => simp at h₀
  | [a], _ => rw [List.mem_singleton.mp h₀]
  | a :: b :: rest, hos =>
      have hab := List.rel_of_pairwise_cons hos List.mem_cons_self
      have ha := hsame a List.mem_cons_self
      have hb := hsame b (List.mem_cons_of_mem _ List.mem_cons_self)
      omega

namespace Hints

/-- Recording a hint replaces what an offset looks up only at the hint's own offset. -/
theorem lookup_set (hints : Hints) (h : Int × Edit) (k : Int) :
    (hints.set h).reverse.lookup k = if k = h.1 then some h.2 else hints.reverse.lookup k := by
  obtain ⟨a, e⟩ := h
  rw [set, List.reverse_append, List.reverse_singleton, List.singleton_append, List.lookup_cons]
  by_cases hk : k = a
  · simp [hk]
  · -- the hints dropped sit at the hint's offset, which `k` is not
    simp only [beq_false_of_ne hk, if_neg hk, ← find?_key_map_snd, ← List.filter_reverse,
      List.find?_filter]
    congr 2
    funext x
    by_cases hx : x.1 = k
    · simp [hx, hk]
    · simp [hx]

/-- A table recorded from hints looks up, at each offset, the hint recorded there last, or else
    what the table started with. -/
theorem lookup_foldl_set (L acc : Hints) (k : Int) :
    (L.foldl set acc).reverse.lookup k = (L.reverse.lookup k).or (acc.reverse.lookup k) := by
  induction L generalizing acc with
  | nil => simp
  | cons y L ih =>
      obtain ⟨a, e⟩ := y
      rw [List.foldl_cons, ih, lookup_set, List.reverse_cons, List.lookup_append, Option.or_assoc]
      congr 1
      by_cases hk : k = a
      · simp [hk]
      · simp [List.lookup_cons, beq_false_of_ne hk, hk]

theorem nodup_set {hints : Hints} (hnd : (hints.map (·.1)).Nodup) (h : Int × Edit) :
    ((hints.set h).map (·.1)).Nodup := by
  rw [set, List.map_append, List.nodup_append]
  refine ⟨(List.filter_sublist.map _).nodup hnd, List.nodup_singleton _, ?_⟩
  -- every offset kept differs from the one recorded
  intro a ha b hb
  obtain ⟨x, hx, rfl⟩ := List.mem_map.mp ha
  rw [List.map_singleton, List.mem_singleton] at hb
  subst hb
  simpa using (List.mem_filter.mp hx).2

theorem nodup_foldl_set (L : Hints) {acc : Hints} (hnd : (acc.map (·.1)).Nodup) :
    ((L.foldl set acc).map (·.1)).Nodup := by
  induction L generalizing acc with
  | nil => exact hnd
  | cons y L ih => exact ih (nodup_set hnd y)

/-- The table recorded from a list of hints holds, at each offset recorded, the hint recorded
    there last, and nothing else. -/
theorem mem_foldl_set (L : Hints) (x : Int × Edit) :
    x ∈ L.foldl set [] ↔ L.reverse.lookup x.1 = some x.2 := by
  have hnd : (((L.foldl set []).reverse).map (·.1)).Nodup := by
    rw [List.map_reverse, List.nodup_reverse]
    exact nodup_foldl_set L (by simp)
  rw [← List.mem_reverse, ← lookup_eq_some_iff_mem hnd, lookup_foldl_set]
  simp

theorem reverse_shift (hints : Hints) (d : Int) :
    (hints.shift d).reverse = shift hints.reverse d :=
  List.map_reverse.symm

/-- Moving the hints by `d` moves what each offset looks up by `d`. -/
theorem lookup_shift (hints : Hints) (d x : Int) :
    (hints.shift d).lookup x = (hints.lookup (x - d)).map fun e => { e with offset := x } := by
  induction hints with
  | nil => rfl
  | cons h hints ih =>
      obtain ⟨k, e⟩ := h
      simp only [shift, List.map_cons, List.lookup_cons] at ih ⊢
      by_cases hk : x = k + d
      · simp [hk]
      · have hk' : x - d ≠ k := by omega
        simp only [beq_false_of_ne hk, beq_false_of_ne hk', ih]

/-- A shift puts every hint on a specifier whose value is the hint's old text. -/
theorem matchAt_iff (occ : List Occurrence) (hints : Hints) (d : Int) :
    MatchAt occ hints d = true ↔
      ∀ h ∈ hints, ∃ o ∈ occ, (o.start : Int) = h.1 + d ∧ o.value = h.2.old := by
  simp [MatchAt]

/-- The least offset of the hints is one of theirs. -/
theorem foldl_min_mem (hs : Hints) :
    ∀ m : Int, hs.foldl (fun m x => min m x.1) m = m ∨
      ∃ x ∈ hs, hs.foldl (fun m x => min m x.1) m = x.1 := by
  induction hs with
  | nil => exact fun m => .inl rfl
  | cons y hs ih =>
      intro m
      rw [List.foldl_cons]
      rcases ih (min m y.1) with heq | ⟨x, hx, heq⟩
      · by_cases hle : m ≤ y.1
        · exact .inl (heq.trans (Int.min_eq_left hle))
        · exact .inr ⟨y, List.mem_cons_self, heq.trans (Int.min_eq_right (by omega))⟩
      · exact .inr ⟨x, List.mem_cons_of_mem _ hx, heq⟩

/-- Over specifiers that start at different places, the shift search answers a shift exactly when
    it is the only one that puts every hint on a specifier holding its old text. -/
theorem findShift_eq_some_iff {occ : List Occurrence}
    (hocc : occ.Pairwise fun o o' => o.start ≠ o'.start) {hints : Hints} (hne : hints ≠ [])
    (d : Int) :
    findShift occ hints = some d ↔
      MatchAt occ hints d = true ∧ ∀ d', MatchAt occ hints d' = true → d' = d := by
  obtain ⟨h, hs, rfl⟩ := List.exists_cons_of_ne_nil hne
  unfold findShift
  dsimp only
  generalize hfirst : hs.foldl (fun m x => min m x.1) h.1 = first
  -- the search tries the specifiers holding the old text of the first hint at the least offset
  obtain ⟨hf, hfind⟩ : ∃ hf, (h :: hs).find? (·.1 == first) = some hf := by
    refine Option.isSome_iff_exists.mp (List.find?_isSome.mpr ?_)
    rcases foldl_min_mem hs h.1 with heq | ⟨x, hx, heq⟩
    · exact ⟨h, List.mem_cons_self, by simp [← hfirst, heq]⟩
    · exact ⟨x, List.mem_cons_of_mem _ hx, by simp [← hfirst, heq]⟩
  have hfmem := List.mem_of_find?_eq_some hfind
  have hfkey : hf.1 = first := by simpa using List.find?_some hfind
  rw [hfind, Option.map_some, Option.getD_some]
  -- a shift that puts every hint on a specifier puts that hint on a candidate
  have hsits : ∀ d', MatchAt occ (h :: hs) d' = true →
      ∃ o ∈ occ, (o.start : Int) = first + d' ∧ o.value = hf.2.old := by
    intro d' hd'
    obtain ⟨o, ho, hstart, hvalue⟩ := (matchAt_iff _ _ _).mp hd' hf hfmem
    exact ⟨o, ho, by rw [hstart, hfkey], hvalue⟩
  have hcand : ∀ {o}, o ∈ occ.filter (fun o => o.value == hf.2.old &&
      MatchAt occ (h :: hs) ((o.start : Int) - first)) ↔
        o ∈ occ ∧ o.value = hf.2.old ∧
          MatchAt occ (h :: hs) ((o.start : Int) - first) = true := by
    simp
  split
  · rename_i o hfits
    obtain ⟨-, -, hmatch⟩ := hcand.mp (hfits ▸ List.mem_singleton_self o)
    constructor
    · rintro hd
      rw [Option.some.injEq] at hd
      subst hd
      refine ⟨hmatch, fun d' hd' => ?_⟩
      -- the candidate the other shift puts the hint on is the only one
      obtain ⟨o', ho', hstart, hvalue⟩ := hsits d' hd'
      have hshifted : MatchAt occ (h :: hs) ((o'.start : Int) - first) = true := by
        rw [hstart, show first + d' - first = d' by omega]
        exact hd'
      have hmem : o' ∈ [o] := hfits ▸ hcand.mpr ⟨ho', hvalue, hshifted⟩
      rw [List.mem_singleton.mp hmem] at hstart
      omega
    · rintro ⟨-, honly⟩
      rw [honly _ hmatch]
  · rename_i hnot
    constructor
    · intro hd
      cases hd
    rintro ⟨hmatch, honly⟩
    -- the shift puts the hint on a candidate, and every candidate starts where that one does
    obtain ⟨o₀, ho₀, hstart₀, hvalue₀⟩ := hsits d hmatch
    refine absurd (eq_singleton_of_starts (hocc.sublist List.filter_sublist)
      (hcand.mpr ⟨ho₀, hvalue₀, ?_⟩) fun o ho => ?_) (hnot o₀)
    · rw [hstart₀, show first + d - first = d by omega]
      exact hmatch
    · have := honly _ (hcand.mp ho).2.2
      omega

/-- The shift search is complete: over specifiers that start at different places it answers a
    shift exactly when no other shift puts every hint on a specifier holding its old text, and it
    answers none exactly when no shift does or two different ones do. -/
theorem findShift_complete {occ : List Occurrence}
    (hocc : occ.Pairwise fun o o' => o.start ≠ o'.start) {hints : Hints} (hne : hints ≠ []) :
    (∀ d, findShift occ hints = some d ↔
      MatchAt occ hints d = true ∧ ∀ d', MatchAt occ hints d' = true → d' = d) ∧
    (findShift occ hints = none ↔
      (∀ d, MatchAt occ hints d = false) ∨
        ∃ d₁ d₂, d₁ ≠ d₂ ∧ MatchAt occ hints d₁ = true ∧ MatchAt occ hints d₂ = true) := by
  have hsome := findShift_eq_some_iff hocc hne
  refine ⟨hsome, ⟨fun hnone => ?_, ?_⟩⟩
  · by_cases hany : ∃ d, MatchAt occ hints d = true
    · -- a shift fits, so another one must, or the search would have answered it
      obtain ⟨d, hd⟩ := hany
      refine .inr (Classical.byContradiction fun htwo => ?_)
      have honly : ∀ d', MatchAt occ hints d' = true → d' = d := fun d' hd' =>
        Classical.byContradiction fun hne' => htwo ⟨d', d, hne', hd', hd⟩
      rw [(hsome d).mpr ⟨hd, honly⟩] at hnone
      cases hnone
    · exact .inl fun d => Bool.eq_false_iff.mpr fun hd => hany ⟨d, hd⟩
  · intro hcases
    cases hfind : findShift occ hints with
    | none => rfl
    | some d =>
        -- an answer is the only shift that fits, which neither case leaves
        obtain ⟨hd, honly⟩ := (hsome d).mp hfind
        rcases hcases with hno | ⟨d₁, d₂, hne₁₂, h₁, h₂⟩
        · rw [hno d] at hd
          cases hd
        · exact absurd ((honly d₁ h₁).trans (honly d₂ h₂).symm) hne₁₂

/-- Specifiers out of order of start, two of them holding `@/a`. -/
def unsortedSpecifiers : List Occurrence :=
  [⟨12, 15, [64, 47, 97], .declaration⟩, ⟨2, 5, [64, 47, 98], .call⟩,
    ⟨22, 25, [64, 47, 97], .declaration⟩]

/-- Hints for `@/b` at offset 0 and `@/a` at offset 10. -/
def twoHints : Hints :=
  [(0, ⟨0, [64, 47, 98], [46, 47, 98]⟩), (10, ⟨10, [64, 47, 97], [46, 47, 97]⟩)]

/-- The hint at offset 0 sits on the only specifier holding its old text, and the shift that
    puts it there, 2, is the only one that puts the other hint on its own. -/
theorem findShift_complete_unsorted :
    unsortedSpecifiers.Pairwise (fun o o' => o.start ≠ o'.start) ∧ twoHints ≠ [] ∧
      findShift unsortedSpecifiers twoHints = some 2 ∧
      ∀ d, MatchAt unsortedSpecifiers twoHints d = true → d = 2 := by
  have hfind := (findShift_complete (by decide : unsortedSpecifiers.Pairwise _)
    (by decide : twoHints ≠ [])).1 2
  have hat : findShift unsortedSpecifiers twoHints = some 2 := by decide
  exact ⟨by decide, by decide, hat, (hfind.mp hat).2⟩

/-- An integer a 64-bit word with sign holds. -/
def InWord (x : Int) : Prop := -2 ^ 63 ≤ x ∧ x < 2 ^ 63

/-- `MatchAt` with the offsets and the shift in 64-bit words. -/
def MatchAt64 (occurrences : List Occurrence) (hints : List (Int64 × Edit)) (delta : Int64) :
    Bool :=
  hints.all fun h => occurrences.any fun o =>
    Int64.ofNat o.start == h.1 + delta && o.value == h.2.old

/-- `findShift` with the offsets and the shifts in 64-bit words. -/
def findShift64 (occurrences : List Occurrence) : List (Int64 × Edit) → Option Int64
  | [] => none
  | h :: hs =>
    let first := hs.foldl (fun m x => min m x.1) h.1
    let old := (((h :: hs).find? (·.1 == first)).map (·.2.old)).getD []
    let fits := occurrences.filter fun o =>
      o.value == old && MatchAt64 occurrences (h :: hs) (Int64.ofNat o.start - first)
    match fits with
    | [o] => some (Int64.ofNat o.start - first)
    | _ => none

/-- The hints with their offsets in 64-bit words. -/
def toWords (hints : Hints) : List (Int64 × Edit) := hints.map fun h => (Int64.ofInt h.1, h.2)

theorem toWords_cons (h : Int × Edit) (hs : Hints) :
    toWords (h :: hs) = (Int64.ofInt h.1, h.2) :: toWords hs := rfl

theorem toInt_ofInt_of_inWord {x : Int} (h : InWord x) : (Int64.ofInt x).toInt = x := by
  rw [Int64.toInt_ofInt, show Int64.size = 2 ^ 64 from rfl]
  unfold InWord at h
  simp only [Int.bmod]
  omega

theorem ofInt_eq_iff {s x : Int} (hs : InWord s) (hs0 : 0 ≤ s) (hx : -2 ^ 63 ≤ x)
    (hx' : x < 2 ^ 64) : Int64.ofInt s = Int64.ofInt x ↔ s = x := by
  rw [← Int64.toInt_inj, toInt_ofInt_of_inWord hs, Int64.toInt_ofInt,
    show Int64.size = 2 ^ 64 from rfl]
  unfold InWord at hs
  simp only [Int.bmod]
  split <;> omega

theorem min_ofInt {a b : Int} (ha : InWord a) (hb : InWord b) :
    min (Int64.ofInt a) (Int64.ofInt b) = Int64.ofInt (min a b) := by
  have hle : Int64.ofInt a ≤ Int64.ofInt b ↔ a ≤ b := by
    rw [Int64.le_iff_toInt_le, toInt_ofInt_of_inWord ha, toInt_ofInt_of_inWord hb]
  show (if Int64.ofInt a ≤ Int64.ofInt b then _ else _) = _
  by_cases hab : a ≤ b
  · rw [if_pos (hle.mpr hab), min_eq_left hab]
  · rw [if_neg (mt hle.mp hab), min_eq_right (by omega)]

theorem matchAt64_iff (occ : List Occurrence) (ws : List (Int64 × Edit)) (delta : Int64) :
    MatchAt64 occ ws delta = true ↔
      ∀ w ∈ ws, ∃ o ∈ occ, Int64.ofNat o.start = w.1 + delta ∧ o.value = w.2.old := by
  simp [MatchAt64]

section Words

variable {occ : List Occurrence} {hints : Hints}

/-- Over specifiers and hints at offsets of 63 bits, a shift in words puts every hint on a
    specifier exactly when it does in integers. -/
theorem matchAt64_toWords (hocc : ∀ o ∈ occ, o.start < 2 ^ 63)
    (hh : ∀ h ∈ hints, 0 ≤ h.1 ∧ h.1 < 2 ^ 63) {d : Int} (hd : InWord d) :
    MatchAt64 occ hints.toWords (Int64.ofInt d) = MatchAt occ hints d := by
  have hstart : ∀ o ∈ occ, ∀ h ∈ hints,
      (Int64.ofNat o.start = Int64.ofInt h.1 + Int64.ofInt d ↔ (o.start : Int) = h.1 + d) := by
    intro o ho h hmem
    have := hocc o ho
    have := hh h hmem
    unfold InWord at hd
    rw [← Int64.ofInt_eq_ofNat, ← Int64.ofInt_add]
    exact ofInt_eq_iff ⟨by omega, by omega⟩ (by omega) (by omega) (by omega)
  rw [Bool.eq_iff_iff, matchAt64_iff, matchAt_iff, toWords, List.forall_mem_map]
  constructor
  · intro H h hmem
    obtain ⟨o, ho, hs, hv⟩ := H h hmem
    exact ⟨o, ho, (hstart o ho h hmem).mp hs, hv⟩
  · intro H h hmem
    obtain ⟨o, ho, hs, hv⟩ := H h hmem
    exact ⟨o, ho, (hstart o ho h hmem).mpr hs, hv⟩

theorem foldl_min_toWords (hh : ∀ h ∈ hints, 0 ≤ h.1 ∧ h.1 < 2 ^ 63) :
    ∀ m : Int, 0 ≤ m → m < 2 ^ 63 →
      hints.toWords.foldl (fun m x => min m x.1) (Int64.ofInt m) =
        Int64.ofInt (hints.foldl (fun m x => min m x.1) m) := by
  induction hints with
  | nil => intro m _ _; rfl
  | cons y hs ih =>
      intro m hm hm'
      have hy := hh y List.mem_cons_self
      rw [toWords_cons, List.foldl_cons, List.foldl_cons,
        min_ofInt ⟨by omega, hm'⟩ ⟨by omega, hy.2⟩]
      exact ih (fun h hmem => hh h (List.mem_cons_of_mem _ hmem)) _ (by omega) (by omega)

/-- Over specifiers that start within 63 bits and hints at offsets of 63 bits, the shift search
    in 64-bit words answers the shift the search in integers does. -/
theorem findShift64_toWords (hocc : ∀ o ∈ occ, o.start < 2 ^ 63)
    (hh : ∀ h ∈ hints, 0 ≤ h.1 ∧ h.1 < 2 ^ 63) :
    findShift64 occ hints.toWords = (findShift occ hints).map Int64.ofInt := by
  cases hints with
  | nil => rfl
  | cons h hs =>
      have hy := hh h List.mem_cons_self
      set first := hs.foldl (fun m x => min m x.1) h.1 with hfirst
      have hmin := foldl_min_toWords (fun x hx => hh x (List.mem_cons_of_mem _ hx)) h.1 hy.1 hy.2
      -- the least offset is one of the hints', so it is within 63 bits too
      have hword : 0 ≤ first ∧ first < 2 ^ 63 := by
        rcases foldl_min_mem hs h.1 with heq | ⟨x, hx, heq⟩
        · rw [hfirst, heq]; exact hy
        · rw [hfirst, heq]; exact hh x (List.mem_cons_of_mem _ hx)
      have hold : ((toWords (h :: hs)).find? (·.1 == Int64.ofInt first)).map (·.2.old) =
          ((h :: hs).find? (·.1 == first)).map (·.2.old) := by
        rw [toWords, List.find?_map, Option.map_map]
        congr 1
        apply List.find?_congr
        intro x hx
        rw [Function.comp_apply, Bool.eq_iff_iff, beq_iff_eq, beq_iff_eq]
        have := hh x hx
        exact ofInt_eq_iff ⟨by omega, by omega⟩ (by omega) (by omega) (by omega)
      rw [← hfirst] at hmin
      rw [toWords_cons] at hold ⊢
      simp only [findShift64, findShift]
      rw [hmin, hold, ← hfirst]
      have hstep : ∀ o ∈ occ, MatchAt64 occ (toWords (h :: hs))
          (Int64.ofNat o.start - Int64.ofInt first) = MatchAt occ (h :: hs) (o.start - first) := by
        intro o ho
        have := hocc o ho
        rw [← Int64.ofInt_eq_ofNat, ← Int64.ofInt_sub]
        exact matchAt64_toWords hocc hh ⟨by omega, by omega⟩
      set old := (((h :: hs).find? (·.1 == first)).map (·.2.old)).getD []
      have hfilter : occ.filter (fun o => o.value == old &&
            MatchAt64 occ (toWords (h :: hs)) (Int64.ofNat o.start - Int64.ofInt first)) =
          occ.filter (fun o => o.value == old && MatchAt occ (h :: hs) (o.start - first)) :=
        List.filter_congr fun o ho => by rw [hstep o ho]
      rw [← toWords_cons, hfilter]
      generalize occ.filter (fun o => o.value == old && MatchAt occ (h :: hs) (o.start - first)) =
        fits
      rcases fits with _ | ⟨o, _ | ⟨o', rest⟩⟩
      · rfl
      · rw [Option.map_some, Int64.ofInt_sub, Int64.ofInt_eq_ofNat]
      · rfl
end Words

end Hints

end Unalias
