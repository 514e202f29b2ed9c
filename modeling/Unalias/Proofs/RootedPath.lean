import Mathlib
import Unalias.Path

/-! # Cleaned absolute paths

A cleaned absolute path is the root followed by names, each one not empty, not `.` or `..`, and
without a slash (`Path.rooted`, `Path.Name`). Cleaning keeps a stack of the names passed: a
name is pushed, `.` and empty pieces are skipped, and `..` pops the name on top, or stays at the
root when there is none (`Path.keep`). Over names alone the stack never holds `..`, so an
absolute path always cleans to a rooted list of names (`Path.clean_abs`), which cleaning leaves
as it is (`Path.clean_rooted`).

The relative path between two rooted paths climbs one `..` for each name of the base past the
names both share, then descends through the rest of the target (`Path.rel?_rooted`). Joined to
the base it pops exactly the names it climbed and pushes the rest, so it leads back to the
target (`Path.join_rel?_rooted`).
-/

namespace Unalias

namespace Path

/-- A name a cleaned path passes through: not empty, not `.` or `..`, and without a slash. -/
def Name (p : Bytes) : Prop := p ≠ [] ∧ p ≠ [dot] ∧ p ≠ parent ∧ slash ∉ p

instance : DecidablePred Name := fun _ => inferInstanceAs (Decidable (_ ∧ _ ∧ _ ∧ _))

/-- The absolute path through the given names. -/
def rooted (ns : List Bytes) : Path := slash :: unpieces ns

theorem Name.ne_parent {n : Bytes} (h : Name n) : n ≠ parent := h.2.2.1

theorem Name.slash_not_mem {n : Bytes} (h : Name n) : slash ∉ n := h.2.2.2

section Pieces

/-- Cutting at slashes is the library's split at the separator. -/
theorem pieces_eq_splitOn : ∀ p : Bytes, pieces p = p.splitOn slash
  | [] => rfl
  | b :: rest => by
      obtain ⟨q, qs, h⟩ := List.exists_cons_of_ne_nil (List.splitOn_ne_nil slash rest)
      rw [pieces, pieces_eq_splitOn rest, List.splitOn_cons_eq_if_modifyHead, h]
      by_cases hb : b = slash <;> simp [hb]

theorem pieces_ne_nil (p : Bytes) : pieces p ≠ [] := by
  rw [pieces_eq_splitOn]
  exact List.splitOn_ne_nil slash p

theorem pieces_slash_cons (x : Bytes) : pieces (slash :: x) = [] :: pieces x := by
  simpa [pieces_eq_splitOn] using List.splitOn_append_cons_self (a := slash) [] x

theorem pieces_append_slash (a b : Bytes) : pieces (a ++ slash :: b) = pieces a ++ pieces b := by
  simp only [pieces_eq_splitOn]
  exact List.splitOn_append_cons_self a b

theorem pieces_unpieces {ps : List Bytes} (h : ∀ p ∈ ps, slash ∉ p) (hne : ps ≠ []) :
    pieces (unpieces ps) = ps := by
  rw [pieces_eq_splitOn]
  exact List.splitOn_intercalate slash h hne

/-- No piece holds the separator it was cut at. -/
theorem slash_not_mem_of_mem_pieces : ∀ {p piece : Bytes}, piece ∈ pieces p → slash ∉ piece
  | [], piece, h => by
      rw [show pieces [] = [[]] from rfl, List.mem_singleton] at h
      simp [h]
  | b :: rest, piece, h => by
      obtain ⟨q, qs, hq⟩ := List.exists_cons_of_ne_nil (pieces_ne_nil rest)
      have ih : ∀ {x}, x ∈ q :: qs → slash ∉ x := fun hx =>
        slash_not_mem_of_mem_pieces (hq ▸ hx)
      simp only [pieces, hq] at h
      by_cases hb : b = slash
      · rw [if_pos hb] at h
        rcases List.mem_cons.mp h with rfl | h
        · simp
        · exact ih h
      · rw [if_neg hb] at h
        rcases List.mem_cons.mp h with rfl | h
        · exact List.not_mem_cons_of_ne_of_not_mem (Ne.symm hb) (ih List.mem_cons_self)
        · exact ih (List.mem_cons_of_mem _ h)

end Pieces

section Keep

/-! Cleaning runs `keep` over the pieces, the stack held last piece first; an absolute path runs
`keep true`. Empty pieces, `.` and names behave alike at the root or not. -/

variable {rooted : Bool}

theorem keep_empty (kept : List Bytes) : keep rooted kept [] = kept := by simp [keep]

theorem keep_dot (kept : List Bytes) : keep rooted kept [dot] = kept := by simp [keep]

theorem keep_name {n : Bytes} (h : Name n) (kept : List Bytes) : keep rooted kept n = n :: kept := by
  obtain ⟨hne, hdot, hparent, -⟩ := h
  simp [keep, hne, hdot, hparent]

/-- `..` pops the name on top of the stack. -/
theorem keep_parent {n : Bytes} (h : Name n) (kept : List Bytes) :
    keep rooted (n :: kept) parent = kept := by
  have hparent : ¬(parent = [] ∨ parent = [dot]) := by decide
  simp [keep, hparent, h.ne_parent]

/-- Over a stack of names, one more piece leaves a stack of names. -/
theorem keep_names {kept : List Bytes} (hk : ∀ n ∈ kept, Name n) {piece : Bytes}
    (hp : slash ∉ piece) : ∀ n ∈ keep true kept piece, Name n := by
  unfold keep
  split
  · exact hk
  · rename_i hskip
    split
    · rename_i hparent
      split
      · rename_i top rest
        -- a name on top is never `..`, so it is popped
        rw [if_neg (hk top List.mem_cons_self).ne_parent]
        exact fun n hn => hk n (List.mem_cons_of_mem _ hn)
      · simp
    · rename_i hparent
      simp only [not_or] at hskip
      intro n hn
      rcases List.mem_cons.mp hn with rfl | hn
      · exact ⟨hskip.1, hskip.2, hparent, hp⟩
      · exact hk n hn

theorem foldl_keep_names {kept : List Bytes} (hk : ∀ n ∈ kept, Name n) :
    ∀ {ps : List Bytes}, (∀ p ∈ ps, slash ∉ p) → ∀ n ∈ ps.foldl (keep true) kept, Name n := by
  intro ps hps
  induction ps generalizing kept with
  | nil => exact hk
  | cons p ps ih =>
      exact ih (keep_names hk (hps p List.mem_cons_self))
        fun q hq => hps q (List.mem_cons_of_mem _ hq)

/-- Names are pushed one after another. -/
theorem foldl_keep_push {ns : List Bytes} (h : ∀ n ∈ ns, Name n) (kept : List Bytes) :
    ns.foldl (keep rooted) kept = ns.reverse ++ kept := by
  induction ns generalizing kept with
  | nil => rfl
  | cons n ns ih =>
      rw [List.foldl_cons, keep_name (h n List.mem_cons_self),
        ih (fun m hm => h m (List.mem_cons_of_mem _ hm))]
      simp

/-- As many `..` as names pushed pop them all. -/
theorem foldl_keep_climb {ns : List Bytes} (h : ∀ n ∈ ns, Name n) (kept : List Bytes) :
    (List.replicate ns.length parent).foldl (keep true) (ns.reverse ++ kept) = kept := by
  induction ns generalizing kept with
  | nil => rfl
  | cons n ns ih =>
      have hns : ∀ m ∈ ns, Name m := fun m hm => h m (List.mem_cons_of_mem _ hm)
      rw [List.length_cons, List.replicate_succ', List.foldl_append, List.reverse_cons,
        List.append_assoc, List.singleton_append, ih hns]
      exact @keep_parent true _ (h n List.mem_cons_self) kept

/-- Cutting joined pieces apart and cleaning them is cleaning the pieces, even when there are
    none: the empty path is one empty piece, which cleaning skips. -/
theorem foldl_keep_unpieces {ps : List Bytes} (h : ∀ p ∈ ps, slash ∉ p) (kept : List Bytes) :
    (pieces (unpieces ps)).foldl (keep true) kept = ps.foldl (keep true) kept := by
  cases ps with
  | nil => exact @keep_empty true kept
  | cons p ps => rw [pieces_unpieces h (List.cons_ne_nil p ps)]

end Keep

section Clean

/-- An absolute path cleans to the root followed by the stack its pieces leave. -/
theorem clean_slash (x : Bytes) :
    clean (slash :: x) = rooted ((pieces x).foldl (keep true) []).reverse := by
  have habs : IsAbs (slash :: x) = true := by simp [IsAbs]
  simp only [clean, List.cons_ne_nil, if_false, habs, if_true, pieces_slash_cons, List.foldl_cons,
    keep_empty]
  rfl

theorem slash_cons_of_abs {p : Path} (h : IsAbs p = true) : ∃ x, p = slash :: x := by
  cases p with
  | nil => simp [IsAbs] at h
  | cons b x => exact ⟨x, by simpa [IsAbs] using h⟩

/-- An absolute path cleans to the root followed by names. -/
theorem clean_abs {p : Path} (h : IsAbs p = true) :
    ∃ ns, (∀ n ∈ ns, Name n) ∧ clean p = rooted ns := by
  obtain ⟨x, rfl⟩ := slash_cons_of_abs h
  refine ⟨_, fun n hn => ?_, clean_slash x⟩
  exact foldl_keep_names (by simp) (fun _ hp => slash_not_mem_of_mem_pieces hp) n
    (List.mem_reverse.mp hn)

/-- A rooted path of names is clean. -/
theorem clean_rooted {ns : List Bytes} (h : ∀ n ∈ ns, Name n) : clean (rooted ns) = rooted ns := by
  rw [rooted, clean_slash, foldl_keep_unpieces (fun n hn => (h n hn).slash_not_mem),
    foldl_keep_push h, List.append_nil, List.reverse_reverse]
  rfl

theorem rooted_abs (ns : List Bytes) : IsAbs (rooted ns) = true := by simp [rooted, IsAbs]

theorem rooted_ne_nil (ns : List Bytes) : rooted ns ≠ [] := List.cons_ne_nil _ _

theorem clean_abs_abs {p : Path} (h : IsAbs p = true) : IsAbs (clean p) = true := by
  obtain ⟨ns, -, hclean⟩ := clean_abs h
  rw [hclean]
  exact rooted_abs ns

/-- A path joined to an absolute directory is the root followed by names. -/
theorem join_eq_rooted {a : Path} (h : IsAbs a = true) (b : Path) :
    ∃ ns, (∀ n ∈ ns, Name n) ∧ join a b = rooted ns := by
  obtain ⟨x, rfl⟩ := slash_cons_of_abs h
  rw [join, if_neg (List.cons_ne_nil _ _)]
  exact clean_abs (by simp [IsAbs])

theorem join_abs {a : Path} (h : IsAbs a = true) (b : Path) : IsAbs (join a b) = true := by
  obtain ⟨ns, -, hjoin⟩ := join_eq_rooted h b
  rw [hjoin]
  exact rooted_abs ns

/-- The names a rooted path passes through are its names. -/
theorem names_rooted {ns : List Bytes} (h : ∀ n ∈ ns, Name n) : names (rooted ns) = ns := by
  have hslash : ∀ n ∈ ns, slash ∉ n := fun n hn => (h n hn).slash_not_mem
  cases ns with
  | nil => simp [names, rooted, IsAbs, unpieces]
  | cons n rest =>
      have hpieces := pieces_unpieces hslash (List.cons_ne_nil n rest)
      -- the body is not empty and not `.`: each would be one piece that is no name
      have hbody : ¬(unpieces (n :: rest) = [] ∨ unpieces (n :: rest) = [dot]) := by
        rintro (hnil | hdot)
        · rw [hnil] at hpieces
          exact (h n List.mem_cons_self).1 (List.head_eq_of_cons_eq hpieces.symm)
        · rw [hdot] at hpieces
          exact (h n List.mem_cons_self).2.1 (List.head_eq_of_cons_eq hpieces.symm)
      have habs : IsAbs (slash :: unpieces (n :: rest)) = true := rooted_abs (n :: rest)
      simp only [names, rooted, habs, if_true, List.drop_one, List.tail_cons, if_neg hbody]
      exact hpieces

end Clean

section Parts

/-! The names of a cleaned path, of a directory and of a join are names of the paths they are
made of. -/

theorem mem_keep {rooted : Bool} {kept : List Bytes} {piece x : Bytes}
    (h : x ∈ keep rooted kept piece) : x ∈ kept ∨ x = piece := by
  unfold keep at h
  split at h
  · exact .inl h
  split at h
  · split at h
    · split at h
      · rcases List.mem_cons.mp h with h | h
        · exact .inr h
        · exact .inl h
      · exact .inl (List.mem_cons_of_mem _ h)
    · split at h
      · cases h
      · exact .inr (List.mem_singleton.mp h)
  · rcases List.mem_cons.mp h with h | h
    · exact .inr h
    · exact .inl h

theorem mem_foldl_keep {rooted : Bool} {x : Bytes} :
    ∀ (ps kept : List Bytes), x ∈ ps.foldl (keep rooted) kept → x ∈ kept ∨ x ∈ ps
  | [], _, h => .inl h
  | piece :: ps, kept, h => by
      rcases mem_foldl_keep ps _ h with h | h
      · rcases mem_keep h with h | rfl
        · exact .inl h
        · exact .inr List.mem_cons_self
      · exact .inr (List.mem_cons_of_mem _ h)

/-- Every name of a cleaned path is a piece of the path. -/
theorem mem_pieces_clean {p x : Path} (hx : x ∈ pieces (clean p)) (hname : Name x) :
    x ∈ pieces p := by
  have hdot : ∀ {y : Bytes}, y ∈ pieces [dot] → ¬ Name y := by
    intro y hy
    rw [show pieces [dot] = [[dot]] from rfl, List.mem_singleton] at hy
    exact fun h => h.2.1 hy
  -- what cleaning keeps are pieces of the path
  have hkept : ∀ {y : Bytes}, y ∈ ((pieces p).foldl (keep (IsAbs p)) []).reverse → y ∈ pieces p :=
    fun hy => (mem_foldl_keep _ _ (List.mem_reverse.mp hy)).resolve_left List.not_mem_nil
  have hbody : ∀ {y : Bytes}, y ∈ pieces (unpieces ((pieces p).foldl (keep (IsAbs p)) []).reverse) →
      Name y → y ∈ pieces p := by
    intro y hy hy'
    by_cases hnil : ((pieces p).foldl (keep (IsAbs p)) []).reverse = []
    · rw [hnil] at hy
      exact absurd (List.mem_singleton.mp hy) hy'.1
    · rw [pieces_unpieces (fun q hq => slash_not_mem_of_mem_pieces (hkept hq)) hnil] at hy
      exact hkept hy
  unfold clean at hx
  split at hx
  · exact absurd hname (hdot hx)
  · dsimp only at hx
    split at hx
    · rw [pieces_slash_cons] at hx
      rcases List.mem_cons.mp hx with rfl | hx
      · exact absurd rfl hname.1
      · exact hbody hx hname
    · split at hx
      · exact absurd hname (hdot hx)
      · exact hbody hx hname

theorem pieces_of_slash_not_mem {n : Bytes} (h : slash ∉ n) : pieces n = [n] := by
  simpa [unpieces] using @pieces_unpieces [n] (by simpa using h) (List.cons_ne_nil _ _)

/-- A path whose last piece is a name cleans to a path with that name last, after names of the
    path. -/
theorem pieces_clean_of_last {r : Path} {P : List Bytes} {n : Bytes} (hn : Name n)
    (h : pieces r = P ++ [n]) : ∃ qs, pieces (clean r) = qs ++ [n] ∧ ∀ x ∈ qs, Name x → x ∈ P := by
  have hr : r ≠ [] := by
    rintro rfl
    have h' : P ++ [n] = [[]] := h.symm
    rcases List.append_eq_singleton_iff.mp h' with ⟨-, hn'⟩ | ⟨-, hn'⟩
    · exact hn.1 (List.singleton_inj.mp hn')
    · exact absurd hn' (List.cons_ne_nil _ _)
  have hslash : ∀ q ∈ pieces r, slash ∉ q := fun q hq => slash_not_mem_of_mem_pieces hq
  set K := P.foldl (keep (IsAbs r)) []
  have hK : ∀ x ∈ K, x ∈ P := fun x hx => (mem_foldl_keep P [] hx).resolve_left List.not_mem_nil
  have hfold : (pieces r).foldl (keep (IsAbs r)) [] = n :: K := by
    rw [h, List.foldl_append, List.foldl_cons, List.foldl_nil, keep_name hn]
  have hnames : ∀ q ∈ K.reverse ++ [n], slash ∉ q := by
    intro q hq
    rcases List.mem_append.mp hq with hq | hq
    · exact hslash q (h ▸ List.mem_append_left _ (hK q (List.mem_reverse.mp hq)))
    · rw [List.mem_singleton.mp hq]
      exact hn.slash_not_mem
  have hbody : pieces (unpieces (K.reverse ++ [n])) = K.reverse ++ [n] :=
    pieces_unpieces hnames (by simp)
  have hqs : ∀ x ∈ K.reverse, Name x → x ∈ P := fun x hx _ => hK x (List.mem_reverse.mp hx)
  unfold clean
  rw [if_neg hr]
  dsimp only
  rw [hfold, List.reverse_cons]
  split
  · refine ⟨[] :: K.reverse, by rw [pieces_slash_cons, hbody, List.cons_append], ?_⟩
    intro x hx hname
    rcases List.mem_cons.mp hx with rfl | hx
    · exact absurd rfl hname.1
    · exact hqs x hx hname
  · split
    · rename_i hnil
      have := congrArg pieces hnil
      rw [hbody] at this
      have hlast := congrArg List.getLast? this
      simp only [List.getLast?_append, List.getLast?_singleton, Option.some_or] at hlast
      exact (hn.1 (Option.some.inj hlast)).elim
    · exact ⟨K.reverse, hbody, hqs⟩

/-- A name joined to a directory comes last, after names of the directory. -/
theorem pieces_join_name {d n : Path} (hn : Name n) :
    ∃ qs, pieces (join d n) = qs ++ [n] ∧ ∀ x ∈ qs, Name x → x ∈ pieces d := by
  unfold join
  split
  · rw [if_neg hn.1]
    obtain ⟨qs, hqs, hmem⟩ := pieces_clean_of_last (P := []) hn
      (by rw [pieces_of_slash_not_mem hn.slash_not_mem, List.nil_append])
    exact ⟨qs, hqs, fun x hx hx' => absurd (hmem x hx hx') List.not_mem_nil⟩
  · exact pieces_clean_of_last hn
      (by rw [pieces_append_slash, pieces_of_slash_not_mem hn.slash_not_mem])

/-- A path is the part up to its last slash, then the rest. -/
theorem dir_split (p : Path) : p = (p.reverse.dropWhile (· ≠ slash)).reverse ++
    (p.reverse.takeWhile (· ≠ slash)).reverse := by
  rw [← List.reverse_append, List.takeWhile_append_dropWhile, List.reverse_reverse]

/-- Every name of a path's directory is a piece of the path. -/
theorem mem_pieces_dir {p x : Path} (hx : x ∈ pieces (dir p)) (hname : Name x) :
    x ∈ pieces p := by
  have hq := mem_pieces_clean hx hname
  rw [dir_split p]
  cases hd : p.reverse.dropWhile (· ≠ slash) with
  | nil =>
      rw [hd] at hq
      exact absurd (List.mem_singleton.mp hq) hname.1
  | cons d rest =>
      have hdslash : d = slash := by
        have := List.head_dropWhile_not (fun b => decide (b ≠ slash)) (l := p.reverse)
          (by rw [hd]; exact List.cons_ne_nil _ _)
        simp only [hd, List.head_cons] at this
        simpa using this
      rw [hd, hdslash, List.reverse_cons] at hq
      rw [hdslash, List.reverse_cons]
      rw [show pieces (rest.reverse ++ [slash]) = pieces rest.reverse ++ pieces [] from
        pieces_append_slash _ []] at hq
      rw [List.append_assoc, List.singleton_append, pieces_append_slash]
      rcases List.mem_append.mp hq with hq | hq
      · exact List.mem_append_left _ hq
      · exact absurd (List.mem_singleton.mp hq) hname.1

end Parts

section Relative

/-- What the walk between two lists of names leaves: the pieces past the ones both start with. -/
theorem dropCommon_spec : ∀ xs ys : List Bytes,
    ∃ common, xs = common ++ (dropCommon xs ys).1 ∧ ys = common ++ (dropCommon xs ys).2
  | x :: xs, y :: ys => by
      rw [dropCommon]
      split
      · rename_i hxy
        obtain ⟨common, hx, hy⟩ := dropCommon_spec xs ys
        exact ⟨x :: common, by rw [List.cons_append, ← hx], by rw [List.cons_append, ← hy, hxy]⟩
      · exact ⟨[], rfl, rfl⟩
  | [], _ => ⟨[], rfl, rfl⟩
  | _ :: _, [] => ⟨[], rfl, rfl⟩

/-- The relative path between rooted paths: `.` between equal ones, and otherwise one `..` for
    each name of the base past the shared ones, then the rest of the target. -/
theorem rel?_rooted {bn tn : List Bytes} (hb : ∀ n ∈ bn, Name n) (ht : ∀ n ∈ tn, Name n) :
    (tn = bn ∧ rel? (rooted bn) (rooted tn) = some [dot]) ∨
      ∃ common bs ts, bn = common ++ bs ∧ tn = common ++ ts ∧
        rel? (rooted bn) (rooted tn) = some (unpieces (List.replicate bs.length parent ++ ts)) := by
  by_cases heq : tn = bn
  · subst heq
    left
    simp [rel?]
  · right
    have hne : rooted tn ≠ rooted bn := fun h => heq (by
      rw [← names_rooted ht, h, names_rooted hb])
    obtain ⟨common, hbs, hts⟩ := dropCommon_spec bn tn
    rcases hd : dropCommon bn tn with ⟨bs, ts⟩
    rw [hd] at hbs hts
    refine ⟨common, bs, ts, hbs, hts, ?_⟩
    simp only [rel?, clean_rooted hb, clean_rooted ht, if_neg hne, rooted_abs, bne_self_eq_false,
      Bool.false_eq_true, if_false, names_rooted hb, names_rooted ht, hd]
    cases bs with
    | nil => rfl
    | cons first rest =>
        -- every name of the base past the shared ones is a name, so none is `..`
        have hfirst : Name first := hb first (by rw [hbs]; simp)
        simp only [if_neg hfirst.ne_parent]

/-- Joined to a rooted path, a path cleans to the stack its pieces leave over the names. -/
theorem join_rooted {bn : List Bytes} (hb : ∀ n ∈ bn, Name n) (r : Path) :
    join (rooted bn) r = rooted ((pieces r).foldl (keep true) bn.reverse).reverse := by
  rw [join, if_neg (rooted_ne_nil bn), rooted, List.cons_append, clean_slash, pieces_append_slash,
    List.foldl_append, foldl_keep_unpieces (fun n hn => (hb n hn).slash_not_mem),
    foldl_keep_push hb, List.append_nil]

/-- The relative path between rooted paths, joined to the base, leads back to the target. -/
theorem join_rel?_rooted {bn tn : List Bytes} (hb : ∀ n ∈ bn, Name n) (ht : ∀ n ∈ tn, Name n)
    {rel : Path} (hrel : rel? (rooted bn) (rooted tn) = some rel) :
    join (rooted bn) rel = rooted tn := by
  rcases rel?_rooted hb ht with ⟨rfl, hdot⟩ | ⟨common, bs, ts, rfl, rfl, hclimb⟩
  · rw [hdot, Option.some_inj] at hrel
    have hpieces : pieces [dot] = [[dot]] := by decide
    rw [← hrel, join_rooted hb, hpieces, List.foldl_cons, List.foldl_nil, keep_dot,
      List.reverse_reverse]
  · rw [hclimb, Option.some_inj] at hrel
    have hbs : ∀ n ∈ bs, Name n := fun n hn => hb n (List.mem_append_right _ hn)
    have hts : ∀ n ∈ ts, Name n := fun n hn => ht n (List.mem_append_right _ hn)
    have hslash : ∀ p ∈ List.replicate bs.length parent ++ ts, slash ∉ p := by
      intro p hp
      rcases List.mem_append.mp hp with hp | hp
      · rw [List.eq_of_mem_replicate hp]
        decide
      · exact (hts p hp).slash_not_mem
    -- the `..` pop the names past the shared ones, then the rest of the target is pushed
    rw [← hrel, join_rooted hb, foldl_keep_unpieces hslash, List.foldl_append, List.reverse_append,
      foldl_keep_climb hbs, foldl_keep_push hts, ← List.reverse_append]
    simp

end Relative

end Path

end Unalias
