import Unalias.Proofs.ProbeOrder
import Unalias.Proofs.RootedPath

/-! # Building the alias table

Cleaning a path gives one of three forms (`Path.Cleaned`): `.`, the root followed by names, or
some `..` followed by names. Over a relative path the stack cleaning keeps holds names on top of
`..` pieces (`Path.Climbing`): a name is pushed, and `..` pops the name on top, or joins the `..`
below when no name is left. Each form is left as it is by cleaning (`Path.clean_of_cleaned`), so
cleaning twice is cleaning once (`Path.clean_clean`).

The alias table keeps, in declaration order, one entry for each declared alias whose pattern is
more than a trailing `*`: the pattern less that `*` as its stem, and its candidates, each less
its own trailing `*`, put under the base directory unless absolute and cleaned
(`AliasTable.build_eq`). So every stem holds a byte and every candidate is a cleaned path, never
empty and absolute under an absolute base directory (`AliasTable.candidateDir_cleaned`); and a
specifier goes to the entry of the first declared alias whose stem starts it
(`AliasTable.match?_build`).
-/

namespace Unalias

namespace Path

theorem parent_ne_nil : parent ≠ [] := by decide

theorem slash_not_mem_parent : slash ∉ parent := by decide

/-- The stack cleaning keeps over a relative path, last piece first: names on top of `..`
    pieces. -/
def Climbing (kept : List Bytes) : Prop :=
  ∃ (k : Nat) (ns : List Bytes), (∀ n ∈ ns, Name n) ∧ kept = ns.reverse ++ List.replicate k parent

/-- Over `..` pieces alone, one more `..` is pushed, as it is on an empty stack. -/
theorem keep_parent_parents (k : Nat) :
    keep false (List.replicate k parent) parent = parent :: List.replicate k parent := by
  have hskip : ¬(parent = [] ∨ parent = [dot]) := by decide
  cases k with
  | zero => simp [keep, hskip]
  | succ k => simp [keep, hskip, List.replicate_succ]

/-- One more piece of a relative path leaves names on top of `..` pieces. -/
theorem keep_climbing {kept : List Bytes} (hk : Climbing kept) {piece : Bytes}
    (hp : slash ∉ piece) : Climbing (keep false kept piece) := by
  obtain ⟨k, ns, hns, rfl⟩ := hk
  by_cases hskip : piece = [] ∨ piece = [dot]
  · rcases hskip with rfl | rfl
    · exact ⟨k, ns, hns, keep_empty _⟩
    · exact ⟨k, ns, hns, keep_dot _⟩
  by_cases hparent : piece = parent
  · subst hparent
    -- `..` pops the name on top; with none left it joins the `..` pieces below
    rcases List.eq_nil_or_concat ns with rfl | ⟨ns', n, rfl⟩
    · refine ⟨k + 1, [], by simp, ?_⟩
      rw [List.reverse_nil, List.nil_append, List.nil_append, keep_parent_parents,
        List.replicate_succ]
    · have hn : Name n := hns n (by simp)
      rw [List.concat_eq_append, List.reverse_concat, List.cons_append, keep_parent hn]
      exact ⟨k, ns', fun m hm => hns m (by simp [hm]), rfl⟩
  · have hname : Name piece := ⟨fun h => hskip (.inl h), fun h => hskip (.inr h), hparent, hp⟩
    rw [keep_name hname]
    refine ⟨k, ns ++ [piece], fun m hm => ?_, by simp⟩
    rcases List.mem_append.mp hm with hm | hm
    · exact hns m hm
    · rw [List.mem_singleton.mp hm]
      exact hname

theorem foldl_keep_climbing : ∀ {ps : List Bytes} {kept : List Bytes}, (∀ p ∈ ps, slash ∉ p) →
    Climbing kept → Climbing (ps.foldl (keep false) kept)
  | [], _, _, hk => hk
  | p :: ps, _, hps, hk =>
      @foldl_keep_climbing ps _ (fun q hq => hps q (List.mem_cons_of_mem _ hq))
        (keep_climbing hk (hps p List.mem_cons_self))

/-- Cleaning `..` pieces and then names from an empty stack keeps them all. -/
theorem foldl_keep_relative (k : Nat) {ns : List Bytes} (hns : ∀ n ∈ ns, Name n) :
    (List.replicate k parent ++ ns).foldl (keep false) [] = ns.reverse ++ List.replicate k parent := by
  have hparents : (List.replicate k parent).foldl (keep false) [] = List.replicate k parent := by
    induction k with
    | zero => rfl
    | succ k ih =>
        rw [List.replicate_succ', List.foldl_append, ih, List.foldl_cons, List.foldl_nil,
          keep_parent_parents, ← List.replicate_succ, List.replicate_succ']
  rw [List.foldl_append, hparents, foldl_keep_push hns]

/-- The forms cleaning gives: `.`, the root followed by names, and some `..` followed by names,
    not none of either. -/
inductive Cleaned : Path → Prop
  /-- The path `.`. -/
  | here : Cleaned [dot]
  /-- An absolute path through names. -/
  | absolute {ns : List Bytes} : (∀ n ∈ ns, Name n) → Cleaned (rooted ns)
  /-- A relative path that climbs `k` times, then goes down through names. -/
  | relative {k : Nat} {ns : List Bytes} : (∀ n ∈ ns, Name n) →
      List.replicate k parent ++ ns ≠ [] → Cleaned (unpieces (List.replicate k parent ++ ns))

/-- Cleaning gives one of the cleaned forms. -/
theorem clean_cleaned (p : Path) : Cleaned (clean p) := by
  by_cases hnil : p = []
  · subst hnil
    exact .here
  cases habs : IsAbs p
  case true =>
    obtain ⟨ns, hns, hclean⟩ := clean_abs habs
    rw [hclean]
    exact .absolute hns
  case false =>
    -- the stack left over the pieces is some `..` with names on top
    obtain ⟨k, ns, hns, hstack⟩ := @foldl_keep_climbing (pieces p) []
      (fun _ hq => slash_not_mem_of_mem_pieces hq) ⟨0, [], by simp, rfl⟩
    have hbody : ((pieces p).foldl (keep false) []).reverse = List.replicate k parent ++ ns := by
      rw [hstack, List.reverse_append, List.reverse_replicate, List.reverse_reverse]
    simp only [clean, if_neg hnil, habs, Bool.false_eq_true, if_false, hbody]
    split
    · exact .here
    · rename_i hne
      exact .relative hns fun h => hne (by rw [h]; rfl)

/-- A cleaned form is left as it is by cleaning. -/
theorem clean_of_cleaned {q : Path} (hq : Cleaned q) : clean q = q := by
  cases hq with
  | here => decide
  | absolute hns => exact clean_rooted hns
  | @relative k ns hns hne =>
      have hslash : ∀ x ∈ List.replicate k parent ++ ns, slash ∉ x := by
        intro x hx
        rcases List.mem_append.mp hx with hx | hx
        · rw [List.eq_of_mem_replicate hx]
          exact slash_not_mem_parent
        · exact (hns x hx).slash_not_mem
      have hfull : ∀ x ∈ List.replicate k parent ++ ns, x ≠ [] := by
        intro x hx
        rcases List.mem_append.mp hx with hx | hx
        · rw [List.eq_of_mem_replicate hx]
          exact parent_ne_nil
        · exact (hns x hx).1
      have hpieces := pieces_unpieces hslash hne
      -- no piece is empty, so the path is not empty and does not start at the root
      have hqne : unpieces (List.replicate k parent ++ ns) ≠ [] := by
        intro h
        rw [h] at hpieces
        exact hfull [] (by rw [← hpieces]; simp [pieces]) rfl
      have hrel : IsAbs (unpieces (List.replicate k parent ++ ns)) = false := by
        cases habs : IsAbs (unpieces (List.replicate k parent ++ ns))
        · rfl
        · obtain ⟨x, hx⟩ := slash_cons_of_abs habs
          rw [hx, pieces_slash_cons] at hpieces
          exact absurd (hfull [] (by rw [← hpieces]; simp) rfl) id
      simp only [clean, if_neg hqne, hrel, Bool.false_eq_true, if_false, hpieces,
        foldl_keep_relative k hns, List.reverse_append, List.reverse_replicate,
        List.reverse_reverse]

/-- Cleaning twice is cleaning once. -/
theorem clean_clean (p : Path) : clean (clean p) = clean p :=
  clean_of_cleaned (clean_cleaned p)

example : clean (Bytes.ofString "../a/./b/..") = Bytes.ofString "../a" := by decide +kernel

end Path

namespace AliasTable

/-- A declared alias's pattern without its trailing `*`: the stem its entry has. -/
def stemOf (m : PathMapping) : Bytes := dropStar (Bytes.ofString m.pattern)

/-- The entry a declared alias gives: its stem, and its candidates as directories, in order. -/
def entryOf (baseDir : Path) (m : PathMapping) : AliasEntry :=
  ⟨stemOf m, (m.candidates.getD []).map (candidateDir baseDir)⟩

/-- The table holds the entries of the declared aliases whose stem is not empty, in order. -/
theorem build_eq (mappings : List PathMapping) (baseDir : Path) :
    build mappings baseDir = (mappings.filter fun m => stemOf m ≠ []).map (entryOf baseDir) := by
  induction mappings with
  | nil => rfl
  | cons m ms ih =>
      by_cases hstem : stemOf m = []
      · simp only [build, stemOf] at hstem ih ⊢
        simp [hstem, ih]
      · simp only [build, stemOf] at hstem ih ⊢
        simp [hstem, ih, entryOf, stemOf]

/-- A candidate directory is a cleaned path: never empty, left as it is by cleaning, and absolute
    when the base directory is. -/
theorem candidateDir_cleaned (baseDir : Path) (c : String) :
    candidateDir baseDir c ≠ [] ∧ Path.clean (candidateDir baseDir c) = candidateDir baseDir c ∧
      (Path.IsAbs baseDir = true → Path.IsAbs (candidateDir baseDir c) = true) := by
  refine ⟨Path.clean_ne_nil _, Path.clean_clean _, fun hbase => ?_⟩
  apply Path.clean_abs_abs
  split
  · assumption
  · exact Path.join_abs hbase _

/-- A specifier goes to the entry of the first declared alias whose stem holds a byte and
    starts it. -/
theorem match?_build (mappings : List PathMapping) (baseDir : Path) (s : Bytes) :
    (build mappings baseDir).match? s =
      (mappings.find? fun m => stemOf m ≠ [] ∧ stemOf m <+: s).map (entryOf baseDir) := by
  rw [match?, build_eq, List.find?_map, List.find?_filter]
  congr 2
  funext m
  simp [entryOf, List.isPrefixOf_iff_prefix]

/-- Building the alias table from the declared aliases: one entry for each alias whose pattern
    is more than a trailing `*`, in declaration order, with that pattern less the `*` as its stem
    and its candidates as cleaned directories under the base directory. So every stem holds a
    byte, and every candidate is non-empty, clean and, under an absolute base directory,
    absolute; and a specifier goes to the entry of the first such alias whose stem starts it. -/
theorem build_first_alias_wins (mappings : List PathMapping) (baseDir : Path) :
    build mappings baseDir = (mappings.filter fun m => stemOf m ≠ []).map (entryOf baseDir) ∧
      (∀ e ∈ build mappings baseDir, e.stem ≠ [] ∧ ∀ d ∈ e.candidates,
        d ≠ [] ∧ Path.clean d = d ∧ (Path.IsAbs baseDir = true → Path.IsAbs d = true)) ∧
      ∀ s : Bytes, (build mappings baseDir).match? s =
        (mappings.find? fun m => stemOf m ≠ [] ∧ stemOf m <+: s).map (entryOf baseDir) := by
  refine ⟨build_eq mappings baseDir, fun e he => ⟨build_stem_ne_nil mappings baseDir e he, ?_⟩,
    match?_build mappings baseDir⟩
  intro d hd
  -- every entry is a declared alias's, so its candidates are candidate directories
  rw [build_eq] at he
  obtain ⟨m, -, rfl⟩ := List.mem_map.mp he
  obtain ⟨c, -, rfl⟩ := List.mem_map.mp hd
  exact candidateDir_cleaned baseDir c

/-- Only one trailing `*` goes, from the pattern and from each candidate. -/
example : build [⟨"@x/**", some ["x/**"]⟩] (Bytes.ofString "/b") =
    [⟨Bytes.ofString "@x/*", [Bytes.ofString "/b/x/*"]⟩] := by decide +kernel

end AliasTable

end Unalias
