import Unalias.Proofs.HintTable
import Unalias.Proofs.Walk

/-! # Directory trees

A file system value is a directory tree when it holds its entries, files, directories and links,
under rooted paths of names, each once, every entry inside a directory it holds, and every path
one the system takes (`FileSystem.Tree`). In a tree the directories are closed under taking the
directories above them (`FileSystem.Tree.directory_above`), so no link stands on the way to an
entry: a walk of an entry's own path succeeds and ends on it unless it follows the entry itself
as a link (`FileSystem.Tree.walkWith_rooted`), and listing a directory gives exactly the entries
one name below it, in strictly increasing order of name (`FileSystem.Tree.listDir_of_resolve`).
-/

namespace Unalias

namespace Path

section Rooted

variable {ks : List Bytes}

theorem unpieces_snoc : ∀ {ks : List Bytes}, ks ≠ [] → ∀ n : Bytes,
    unpieces (ks ++ [n]) = unpieces ks ++ slash :: n
  | [k], _, n => by simp [unpieces]
  | k :: k' :: rest, _, n => by
      have ih := unpieces_snoc (List.cons_ne_nil k' rest) n
      simp only [unpieces, List.cons_append, List.intercalate_cons_cons] at ih ⊢
      rw [ih]
      simp

/-- A rooted path with one more name is the path, then a slash and the name. -/
theorem rooted_snoc (ks : List Bytes) (n : Bytes) :
    rooted (ks ++ [n]) = (if ks = [] then [] else rooted ks) ++ slash :: n := by
  by_cases hks : ks = []
  · subst hks
    simp [rooted, unpieces]
  · rw [if_neg hks, rooted, unpieces_snoc hks]
    rfl

/-- Names joined below a rooted path extend its names. -/
theorem join_rooted_names (hks : ∀ n ∈ ks, Name n) {ms : List Bytes} (hms : ∀ n ∈ ms, Name n)
    (hne : ms ≠ []) : join (rooted ks) (unpieces ms) = rooted (ks ++ ms) := by
  rw [join_rooted hks, pieces_unpieces (fun n hn => (hms n hn).slash_not_mem) hne,
    foldl_keep_push hms]
  simp only [List.reverse_append, List.reverse_reverse]

theorem join_rooted_name (hks : ∀ n ∈ ks, Name n) {n : Bytes} (hn : Name n) :
    join (rooted ks) n = rooted (ks ++ [n]) := by
  have h := join_rooted_names hks (by simpa using hn) (List.cons_ne_nil n [])
  rwa [show unpieces [n] = n from List.intercalate_singleton] at h

/-- The directory above a rooted path drops its last name. -/
theorem dir_rooted_snoc (hks : ∀ n ∈ ks, Name n) {n : Bytes} (hn : slash ∉ n) :
    dir (rooted (ks ++ [n])) = rooted ks := by
  have hdrop : (n.reverse ++ slash :: (if ks = [] then [] else rooted ks).reverse).dropWhile
      (· ≠ slash) = slash :: (if ks = [] then [] else rooted ks).reverse := by
    rw [List.dropWhile_append_of_pos fun a ha => by
      simpa using fun h : a = slash => hn (h ▸ List.mem_reverse.mp ha)]
    simp
  rw [dir, rooted_snoc]
  simp only [List.reverse_append, List.reverse_cons, List.append_assoc, List.singleton_append]
  rw [hdrop, List.reverse_cons, List.reverse_reverse]
  split
  · rename_i hnil
    subst hnil
    decide
  · -- the slash left at the end is an empty last piece, which cleaning skips
    rw [rooted, List.cons_append, clean_slash, pieces_append_slash, List.foldl_append,
      foldl_keep_unpieces (fun n hn => (hks n hn).slash_not_mem), foldl_keep_push hks]
    simp [pieces, keep_empty, rooted]

theorem dir_rooted (hks : ∀ n ∈ ks, Name n) : dir (rooted ks) = rooted ks.dropLast := by
  rcases List.eq_nil_or_concat ks with rfl | ⟨ks', n, rfl⟩
  · decide
  · rw [List.concat_eq_append] at hks ⊢
    rw [List.dropLast_concat]
    exact dir_rooted_snoc (fun m hm => hks m (List.mem_append_left _ hm))
      (hks n (List.mem_append_right _ (List.mem_singleton_self n))).slash_not_mem

/-- The last piece of a rooted path is its last name. -/
theorem base_rooted_snoc (ks : List Bytes) {n : Bytes} (hn : Name n) :
    base (rooted (ks ++ [n])) = n := by
  obtain ⟨hne, -, -, hslash⟩ := hn
  obtain ⟨b, bs, hrev⟩ := List.exists_cons_of_ne_nil (List.reverse_ne_nil_iff.mpr hne)
  have hb : b ≠ slash := fun h => hslash (List.mem_reverse.mp (hrev ▸ h ▸ List.mem_cons_self))
  have hbs : ∀ x ∈ bs, x ≠ slash := fun x hx h =>
    hslash (List.mem_reverse.mp (hrev ▸ h ▸ List.mem_cons_of_mem b hx))
  -- the reversed path starts with the reversed name, which ends at the slash before it
  have hpath : (rooted (ks ++ [n])).reverse =
      b :: (bs ++ slash :: (if ks = [] then [] else rooted ks).reverse) := by
    rw [rooted_snoc]
    simp only [List.reverse_append, List.reverse_cons, List.append_assoc, List.singleton_append]
    rw [hrev, List.cons_append]
  have htake : (bs ++ slash :: (if ks = [] then [] else rooted ks).reverse).takeWhile
      (· ≠ slash) = bs := by
    rw [List.takeWhile_append_of_pos fun a ha => by simpa using hbs a ha]
    simp
  rw [base, if_neg (rooted_ne_nil _), hpath, List.dropWhile_cons_of_neg (by simpa using hb),
    if_neg (List.cons_ne_nil _ _), List.takeWhile_cons_of_pos (by simpa using hb), htake, ← hrev,
    List.reverse_reverse]

theorem rooted_inj {ms : List Bytes} (hks : ∀ n ∈ ks, Name n) (hms : ∀ n ∈ ms, Name n) :
    rooted ks = rooted ms ↔ ks = ms :=
  ⟨fun h => by rw [← names_rooted hks, h, names_rooted hms], congrArg rooted⟩

/-- An entry lies inside a rooted directory when its names are the directory's and one more. -/
theorem isInside_rooted {ns : List Bytes} (hks : ∀ n ∈ ks, Name n) (hns : ∀ n ∈ ns, Name n) :
    FileSystem.IsInside (rooted ks) (rooted ns) = true ↔ ∃ m, ns = ks ++ [m] := by
  have hdrop : ∀ n ∈ ns.dropLast, Name n := fun n hn => hns n (List.dropLast_subset ns hn)
  simp only [FileSystem.IsInside, Bool.and_eq_true, bne_iff_ne, ne_eq, beq_iff_eq,
    dir_rooted hns, rooted_inj hns hks, rooted_inj hdrop hks]
  constructor
  · rintro ⟨hne, rfl⟩
    rcases List.eq_nil_or_concat ns with rfl | ⟨ns', m, rfl⟩
    · exact absurd rfl hne
    · exact ⟨m, by rw [List.concat_eq_append, List.dropLast_concat]⟩
  · rintro ⟨m, rfl⟩
    exact ⟨by simp, List.dropLast_concat⟩

end Rooted

/-- A path with names is cut at its slashes into the root's empty piece and its names. -/
theorem pieces_rooted {ks : List Bytes} (hks : ∀ n ∈ ks, Name n) (hne : ks ≠ []) :
    pieces (rooted ks) = [] :: ks := by
  rw [rooted, pieces_slash_cons, pieces_unpieces (fun n hn => (hks n hn).slash_not_mem) hne]

end Path

/-- Byte order is the lexicographic order of byte lists. -/
theorem Bytes.lt_iff : ∀ {a b : Bytes}, Bytes.lt a b = true ↔ a < b
  | [], [] => by simp [Bytes.lt]
  | [], _ :: _ => by simp [Bytes.lt, List.nil_lt_cons]
  | _ :: _, [] => by simp [Bytes.lt]
  | x :: xs, y :: ys => by
      rw [List.cons_lt_cons_iff, ← Bytes.lt_iff]
      simp [Bytes.lt]

namespace FileSystem

/-- A name the system takes for an entry: a name no longer than `nameMax` bytes, without a zero
    byte. -/
def EntryName (n : Bytes) : Prop := Path.Name n ∧ n.length ≤ nameMax ∧ 0 ∉ n

instance : DecidablePred EntryName := fun _ => inferInstanceAs (Decidable (_ ∧ _ ∧ _))

/-- What a tree finds is the root's directory or one of its entries. -/
theorem mem_of_node? {fs : FileSystem} {q : Path} {n : Node} (h : fs.node? q = some n) :
    q = [Path.slash] ∨ (q, n) ∈ fs.nodes := by
  unfold node? at h
  split at h
  · exact .inl ‹_›
  · obtain ⟨e, he, rfl⟩ := Option.map_eq_some_iff.mp h
    have hkey : e.1 = q := by simpa using List.find?_some he
    exact .inr (hkey ▸ List.mem_of_find?_eq_some he)

/-- A directory tree: the working directory is one of its directories; every entry is held once,
    under the root followed by at least one name the system takes, on a path shorter than
    `pathMax`; and every entry lies in a directory of the tree. -/
structure Tree (fs : FileSystem) : Prop where
  cwd_directory : fs.node? fs.cwd = some .directory
  rooted : ∀ e ∈ fs.nodes, e.1 = Path.rooted (Path.names e.1) ∧ Path.names e.1 ≠ [] ∧
    ∀ n ∈ Path.names e.1, EntryName n
  short : ∀ e ∈ fs.nodes, e.1.length < pathMax
  nodup : (fs.nodes.map (·.1)).Nodup
  inside : ∀ e ∈ fs.nodes, fs.node? (Path.dir e.1) = some .directory

namespace Tree

variable {fs : FileSystem}

theorem names_of_entryNames {ns : List Bytes} (h : ∀ n ∈ ns, EntryName n) : ∀ n ∈ ns, Path.Name n :=
  fun n hn => (h n hn).1

theorem rooted_ne_root {ns : List Bytes} (hns : ∀ n ∈ ns, Path.Name n) (hne : ns ≠ []) :
    Path.rooted ns ≠ [Path.slash] := fun h => by
  have := (@Path.rooted_inj ns [] hns (by simp)).mp (by rw [h]; rfl)
  exact hne this

/-- Every entry of a tree sits under names the system takes. -/
theorem entry (ht : fs.Tree) {q : Path} {n : Node} (h : (q, n) ∈ fs.nodes) :
    ∃ ns, q = Path.rooted ns ∧ ns ≠ [] ∧ ∀ m ∈ ns, EntryName m :=
  ⟨Path.names q, (ht.rooted _ h).1, (ht.rooted _ h).2⟩

/-- Below the root, a tree finds at a path exactly the entry it holds there. -/
theorem node?_eq_some (ht : fs.Tree) {ns : List Bytes} (hns : ∀ m ∈ ns, Path.Name m) (hne : ns ≠ [])
    {n : Node} : fs.node? (Path.rooted ns) = some n ↔ (Path.rooted ns, n) ∈ fs.nodes := by
  rw [node?, if_neg (rooted_ne_root hns hne), find?_key_map_snd]
  exact lookup_eq_some_iff_mem ht.nodup

/-- The directory holding an entry of a tree is a directory of the tree. -/
theorem directory_of_parent (ht : fs.Tree) {ks : List Bytes} {m : Bytes}
    (hnames : ∀ n ∈ ks ++ [m], Path.Name n) {n : Node}
    (hn : fs.node? (Path.rooted (ks ++ [m])) = some n) : fs.node? (Path.rooted ks) = some .directory := by
  have hparent := ht.inside _ ((node?_eq_some ht hnames (by simp)).mp hn)
  rwa [Path.dir_rooted_snoc (fun n hn => hnames n (List.mem_append_left _ hn))
    (hnames m (by simp)).slash_not_mem] at hparent

/-- Everything above an entry of a tree is a directory of the tree. -/
theorem directory_above (ht : fs.Tree) :
    ∀ {ks ms : List Bytes}, ms ≠ [] → (∀ m ∈ ks ++ ms, Path.Name m) →
      ∀ {n : Node}, fs.node? (Path.rooted (ks ++ ms)) = some n →
        fs.node? (Path.rooted ks) = some .directory
  | _, [], hne, _, _, _ => absurd rfl hne
  | ks, [m], _, hnames, _, hn => directory_of_parent ht hnames hn
  | ks, m :: m' :: rest, _, hnames, _, hn => by
      -- the entry lies below the directory one name further down, which lies in this one
      have hnames' : ∀ n ∈ (ks ++ [m]) ++ m' :: rest, Path.Name n := by simpa using hnames
      have hdown := directory_above ht (List.cons_ne_nil m' rest) hnames'
        (by simpa using hn)
      exact directory_of_parent ht (fun n hn => hnames' n (List.mem_append_left _ hn)) hdown

end Tree

section Down

variable {fs : FileSystem} {follow : Path → List Bytes → Except FsError Path} {last : Bool}

theorem walkStep_name {cur : Path} {n : Bytes} (hn : EntryName n) :
    walkStep cur n = .ok (Path.join cur n) := by
  obtain ⟨⟨hne, hdot, hparent, -⟩, hlen, -⟩ := hn
  simp only [walkStep, hne, hdot, or_self, if_false, hparent]
  rw [if_neg (by omega)]

/-- A walk down names from a directory, every place but the last a directory, ends below it;
    a link at the last place is kept when the walk does not follow one there. -/
theorem walkPieces_names :
    ∀ {ks ms : List Bytes}, (∀ m ∈ ks, Path.Name m) → (∀ m ∈ ms, EntryName m) →
      (∀ j, 0 < j → j < ms.length → fs.node? (Path.rooted (ks ++ ms.take j)) = some .directory) →
      (∀ t, fs.node? (Path.rooted (ks ++ ms)) = some (.symlink t) → last = false) →
      fs.walkPieces follow last (Path.rooted ks) ms = .ok (Path.rooted (ks ++ ms))
  | ks, [], _, _, _, _ => by simp [walkPieces]
  | ks, [m], hks, hms, _, hlink => by
      have hm := hms m (by simp)
      rw [walkPieces, walkStep_name hm, Path.join_rooted_name hks hm.1]
      simp only [bind, Except.bind]
      split
      · rename_i t hnode
        rw [hlink t hnode]
        rfl
      all_goals simp [walkPieces]
  | ks, m :: m' :: rest, hks, hms, hdirs, hlink => by
      have hm := hms m (by simp)
      have hnext : fs.node? (Path.rooted (ks ++ [m])) = some .directory := by
        simpa using hdirs 1 (by omega) (by simp)
      rw [walkPieces, walkStep_name hm, Path.join_rooted_name hks hm.1]
      simp only [bind, Except.bind, hnext]
      have hks' : ∀ n ∈ ks ++ [m], Path.Name n :=
        List.forall_mem_append.mpr ⟨hks, List.forall_mem_singleton.mpr hm.1⟩
      rw [walkPieces_names hks' (fun n hn => hms n (List.mem_cons_of_mem _ hn))
        (fun j hj hjl => by simpa using hdirs (j + 1) (by omega) (by simp at hjl ⊢; omega))
        (fun t ht => hlink t (by simpa using ht))]
      simp

/-- Whatever number of links is left, a walk takes the pieces one by one. -/
theorem walkLinks_eq_walkPieces (links : Nat) :
    ∃ follow, fs.walkLinks last links = fs.walkPieces follow last := by
  cases links <;> exact ⟨_, rfl⟩

end Down

namespace Tree

variable {fs : FileSystem}

theorem mem_unpieces {x : UInt8} : ∀ {ns : List Bytes}, x ∈ Path.unpieces ns →
    x = Path.slash ∨ ∃ n ∈ ns, x ∈ n
  | [], h => by simp [Path.unpieces] at h
  | [n], h => .inr ⟨n, List.mem_singleton_self n, by simpa [Path.unpieces] using h⟩
  | n :: n' :: rest, h => by
      simp only [Path.unpieces, List.intercalate_cons_cons, List.mem_append] at h
      rcases h with (h | h) | h
      · exact .inr ⟨n, List.mem_cons_self, h⟩
      · exact .inl (List.mem_singleton.mp h)
      · rcases mem_unpieces h with h | ⟨k, hk, hx⟩
        · exact .inl h
        · exact .inr ⟨k, List.mem_cons_of_mem _ hk, hx⟩

/-- In a tree, the walk of an entry's own path ends on it, unless the entry is a link the walk
    follows. -/
theorem walkWith_rooted (ht : fs.Tree) {last : Bool} {ks : List Bytes} (hks : ∀ m ∈ ks, EntryName m)
    {n : Node} (hn : fs.node? (Path.rooted ks) = some n) (hlink : ∀ t, n = .symlink t → last = false) :
    fs.walkWith last (Path.rooted ks) = .ok (Path.rooted ks) := by
  have hnames := names_of_entryNames hks
  have hzero : (Path.rooted ks).contains 0 = false := by
    rw [Bool.eq_false_iff]
    intro h
    rcases List.mem_cons.mp (List.contains_iff_mem.mp h) with h | h
    · exact absurd h (by decide)
    · rcases mem_unpieces h with h | ⟨k, hk, hx⟩
      · exact absurd h (by decide)
      · exact (hks k hk).2.2 hx
  have hroot : fs.node? [Path.slash] = some .directory := by simp [node?]
  obtain ⟨follow, hfollow⟩ := @walkLinks_eq_walkPieces fs last maxLinks
  by_cases hne : ks = []
  · subst hne
    have hpieces : Path.pieces (Path.rooted []) = [[], []] := by decide
    simp only [walkWith, hzero, Bool.false_eq_true, if_false, Path.rooted_ne_nil, start,
      Path.rooted_abs, if_true, hpieces, hfollow]
    rw [if_neg (by decide), walkPieces, walkStep_empty]
    simp only [bind, Except.bind, show Path.rooted [] = [Path.slash] from rfl, hroot, walkPieces,
      walkStep_empty]
  · have hlen : (Path.rooted ks).length < pathMax :=
      ht.short _ ((node?_eq_some ht hnames hne).mp hn)
    -- every place the walk passes on the way down is a directory above the entry
    have hdirs : ∀ j, 0 < j → j < ks.length →
        fs.node? (Path.rooted ([] ++ ks.take j)) = some .directory := fun j _ hj => by
      rw [List.nil_append]
      refine @directory_above fs ht (ks.take j) (ks.drop j) (by simpa using hj)
        (by simpa using hnames) n ?_
      rwa [List.take_append_drop]
    simp only [walkWith, hzero, Bool.false_eq_true, if_false, Path.rooted_ne_nil, start,
      Path.rooted_abs, if_true, Path.pieces_rooted hnames hne, hfollow]
    rw [if_neg (by omega), walkPieces, walkStep_empty]
    simp only [bind, Except.bind, hroot]
    exact @walkPieces_names fs follow last [] ks (by simp) hks hdirs
      (fun t ht => hlink t (Option.some.inj ((by simpa using hn : _ = some n).symm.trans ht)))

/-- Sorting entries by name, when no two share a name, puts them in strictly increasing order of
    name. -/
theorem sorted_by_name {β : Type} (l : List (Bytes × β)) (hl : (l.map (·.1)).Nodup) :
    ((l.mergeSort fun x y => !Bytes.lt y.1 x.1).map (·.1)).Pairwise (· < ·) := by
  have htrans : ∀ a b c : Bytes × β, (!Bytes.lt b.1 a.1) = true →
      (!Bytes.lt c.1 b.1) = true → (!Bytes.lt c.1 a.1) = true := by
    intro a b c hab hbc
    simp only [Bool.not_eq_true', Bool.eq_false_iff, ne_eq, Bytes.lt_iff] at hab hbc ⊢
    exact List.le_trans hab hbc
  have htotal : ∀ a b : Bytes × β, ((!Bytes.lt b.1 a.1) || !Bytes.lt a.1 b.1) = true := by
    intro a b
    simp only [Bool.or_eq_true, Bool.not_eq_true', Bool.eq_false_iff, ne_eq, Bytes.lt_iff]
    by_cases h : b.1 < a.1
    · exact .inr (List.lt_asymm h)
    · exact .inl h
  have hnodup := ((List.mergeSort_perm l fun x y => !Bytes.lt y.1 x.1).map (·.1)).nodup_iff.mpr hl
  rw [List.Nodup, List.pairwise_map] at hnodup
  rw [List.pairwise_map]
  -- sorted by name, with the names all different, is strictly increasing
  refine ((List.pairwise_mergeSort htrans htotal _).and hnodup).imp fun {x y} ⟨hle, hne⟩ => ?_
  simp only [Bool.not_eq_true', Bool.eq_false_iff, ne_eq, Bytes.lt_iff] at hle
  exact Classical.byContradiction fun hlt => hne (List.le_antisymm hle hlt)

/-- Entries one name below a directory of a tree are told apart by that name. -/
theorem nodup_names_inside (ht : fs.Tree) {ks : List Bytes} (hks : ∀ m ∈ ks, Path.Name m) :
    ((fs.nodes.filter fun e => IsInside (Path.rooted ks) e.1).map fun e => Path.base e.1).Nodup := by
  have hpaths : ((fs.nodes.filter fun e => IsInside (Path.rooted ks) e.1).map (·.1)).Nodup :=
    ht.nodup.sublist (List.filter_sublist.map _)
  -- an entry inside is the directory's path and its base name
  have hform : ∀ q ∈ (fs.nodes.filter fun e => IsInside (Path.rooted ks) e.1).map (·.1),
      q = Path.rooted (ks ++ [Path.base q]) ∧ Path.Name (Path.base q) := by
    intro q hq
    obtain ⟨⟨q', n⟩, hmem, rfl⟩ := List.mem_map.mp hq
    obtain ⟨hmem, hin⟩ := List.mem_filter.mp hmem
    obtain ⟨ns, rfl, -, hns⟩ := ht.entry hmem
    obtain ⟨m, rfl⟩ := (Path.isInside_rooted hks (names_of_entryNames hns)).mp hin
    have hm : Path.Name m := (hns m (by simp)).1
    rw [Path.base_rooted_snoc ks hm]
    exact ⟨rfl, hm⟩
  have := hpaths.map_on (f := Path.base) fun q hq q' hq' hbase => by
    rw [(hform q hq).1, (hform q' hq').1, hbase]
  rw [List.map_map] at this
  exact this

/-- Listing a directory of a tree, reached through links, gives the entries one name below it, each
    with its name, in strictly increasing order of name. -/
theorem listDir_of_resolve (ht : fs.Tree) {q : Path} {ks : List Bytes} (hks : ∀ m ∈ ks, Path.Name m)
    (hwalk : fs.resolve q = .ok (Path.rooted ks))
    (hdir : fs.node? (Path.rooted ks) = some .directory) :
    ∃ es, fs.listDir q = .ok es ∧
      (∀ e, e ∈ es ↔ ∃ m n, EntryName m ∧ (Path.rooted (ks ++ [m]), n) ∈ fs.nodes ∧
        e = (m, Path.rooted (ks ++ [m]), n)) ∧
      (es.map (·.1)).Pairwise (· < ·) := by
  unfold listDir
  simp only [hwalk, bind, Except.bind, hdir]
  refine ⟨_, rfl, fun e => ?_, ?_⟩
  · rw [(List.mergeSort_perm _ _).mem_iff]
    simp only [List.mem_map, List.mem_filter, Prod.exists]
    constructor
    · rintro ⟨q', n, ⟨hmem, hin⟩, rfl⟩
      obtain ⟨ns, rfl, -, hns⟩ := ht.entry hmem
      obtain ⟨m, rfl⟩ := (Path.isInside_rooted hks (names_of_entryNames hns)).mp hin
      have hm : EntryName m := hns m (by simp)
      exact ⟨m, n, hm, hmem, by rw [Path.base_rooted_snoc ks hm.1]⟩
    · rintro ⟨m, n, hm, hmem, rfl⟩
      have hnames : ∀ x ∈ ks ++ [m], Path.Name x :=
        List.forall_mem_append.mpr ⟨hks, List.forall_mem_singleton.mpr hm.1⟩
      exact ⟨Path.rooted (ks ++ [m]), n,
        ⟨hmem, (Path.isInside_rooted hks hnames).mpr ⟨m, rfl⟩⟩,
        by rw [Path.base_rooted_snoc ks hm.1]⟩
  · apply sorted_by_name
    simpa [List.map_map, Function.comp_def] using nodup_names_inside ht hks

/-- Whatever a tree finds is at the root or under names the system takes. -/
theorem rooted_of_node? (ht : fs.Tree) {q : Path} {n : Node} (h : fs.node? q = some n) :
    ∃ ks, q = Path.rooted ks ∧ ∀ m ∈ ks, EntryName m := by
  rcases mem_of_node? h with hroot | hmem
  · exact ⟨[], hroot, by simp⟩
  · obtain ⟨ks, hq, -, hks⟩ := ht.entry hmem
    exact ⟨ks, hq, hks⟩

end Tree

end FileSystem

end Unalias
