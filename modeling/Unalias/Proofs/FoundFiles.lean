import Mathlib.Data.List.Forall2
import Unalias.Discovery
import Unalias.Proofs.DirectoryTree
import Unalias.Proofs.FileOps
import Unalias.Proofs.Extends

/-! # The files found below the output directory

In a directory tree, and with include and exclude patterns that are valid, finding the compiled
files below the output directory succeeds and gives exactly the regular files below it that the
rules select, in the order of a walk that takes each directory's entries by name and enters a
subdirectory where it stands (`discoverFiles_preorder`). A file is selected when no directory
between the output directory and the file is left out (`FileRules.Prunes`), and its relative path
matches an include pattern and no exclude pattern (`FileRules.Selects`). Such a walk meets the
files in increasing order of their names from the output directory down, compared name by name
as byte strings: the files below a directory all come before those of a later sibling.

The walk lists a directory (`FileSystem.Tree.listDir_of_resolve`) and adds, entry by entry, a block
of files: the entry itself when it is a file the rules take, or what the walk finds below a
subdirectory it enters (`FileSystem.Tree.walkFiles_found`, by induction on the fuel, which stays
above the number of entries below the directory walked). The walk starts from the directory the
output directory leads to, links followed; below it no link is followed, since in a tree no link
stands on the way to an entry.

The pattern library is a parameter; what the statements ask of it is that every pattern the
rules try, the default include pattern among them, is one it never reports malformed
(`GlobMatcher.Valid`), which the library used by the program bears out for the default pattern
(`Glob.valid_defaultInclude`).
-/

namespace Unalias

/-- A pattern is valid for a library when matching it never meets a malformed part, whatever
    the path. -/
def GlobMatcher.Valid (glob : GlobMatcher) (pattern : String) : Prop :=
  ∀ name, ∃ b, glob pattern name = .ok b

namespace Glob

/-- A pattern whose first piece is `**` never fails: the rest is tried at every depth, and a
    failure there counts as no match. -/
theorem matchPieces_doubleStar (fuel : Nat) (rest : List Char) (pieces : List (List Char)) :
    ∃ b, matchPieces (fuel + 1) ('*' :: '*' :: '/' :: rest) pieces = .ok b := by
  have hfirst : firstPiece ('*' :: '*' :: '/' :: rest) = (['*', '*'], some rest) := rfl
  unfold matchPieces
  simp only [List.isEmpty_cons, Bool.false_and, Bool.false_eq_true, if_false, hfirst]
  exact ⟨_, rfl⟩

theorem valid_of_doubleStar {pattern : String} {rest : List Char}
    (h : pattern.toList = '*' :: '*' :: '/' :: rest) : GlobMatcher.Valid matches? pattern := by
  intro name
  unfold matches?
  rw [h]
  exact matchPieces_doubleStar _ _ _

theorem valid_defaultInclude : GlobMatcher.Valid matches? defaultInclude :=
  @valid_of_doubleStar _ (defaultInclude.toList.drop 3) (by decide)

end Glob

section Fold

variable {ε : Type}

/-- A fold that stops at the first pattern that matches finds whether one does. -/
theorem foldlM_first {step : Bool → String → Except ε Bool} {M : String → Prop}
    (hdone : ∀ p, step true p = .ok true) :
    ∀ {ps : List String}, (∀ p ∈ ps, ∃ b, step false p = .ok b ∧ (b = true ↔ M p)) →
      ∀ found, ∃ b, ps.foldlM step found = .ok b ∧ (b = true ↔ found = true ∨ ∃ p ∈ ps, M p)
  | [], _, found => ⟨found, rfl, by simp⟩
  | p :: ps, hps, found => by
      have hrest : ∀ q ∈ ps, ∃ b, step false q = .ok b ∧ (b = true ↔ M q) :=
        fun q hq => hps q (List.mem_cons_of_mem p hq)
      rw [List.foldlM_cons]
      cases found with
      | true =>
          rw [hdone, Except.ok_bind]
          obtain ⟨b, hb, hiff⟩ := foldlM_first hdone hrest true
          exact ⟨b, hb, by simpa using hiff⟩
      | false =>
          obtain ⟨b₀, hstep, hb₀⟩ := hps p List.mem_cons_self
          rw [hstep, Except.ok_bind]
          obtain ⟨b, hb, hiff⟩ := foldlM_first hdone hrest b₀
          refine ⟨b, hb, ?_⟩
          rw [hiff, hb₀]
          simp

variable {α β : Type} {step : List β → α → Except ε (List β)}

/-- A fold whose step adds a block for each item gives the blocks in order. -/
theorem foldlM_append_blocks {P : α → List β → Prop} :
    ∀ {xs : List α}, (∀ x ∈ xs, ∃ B, P x B ∧ ∀ c, step c x = .ok (c ++ B)) →
      ∀ init, ∃ Bs, List.Forall₂ P xs Bs ∧ xs.foldlM step init = .ok (init ++ Bs.flatten)
  | [], _, init => ⟨[], .nil, by rw [List.flatten_nil, List.append_nil]; rfl⟩
  | x :: xs, h, init => by
      obtain ⟨B, hB, hstep⟩ := h x List.mem_cons_self
      obtain ⟨Bs, hBs, hfold⟩ :=
        foldlM_append_blocks (fun y hy => h y (List.mem_cons_of_mem x hy)) (init ++ B)
      refine ⟨B :: Bs, .cons hB hBs, ?_⟩
      rw [List.foldlM_cons, hstep, Except.ok_bind, hfold, List.flatten_cons, List.append_assoc]

/-- Blocks that hold what their items stand for hold together what some item stands for. -/
theorem mem_flatten_of_forall₂ {P : α → List β → Prop} {S : α → β → Prop}
    (hP : ∀ x B, P x B → ∀ y, y ∈ B ↔ S x y) {xs : List α} {Bs : List (List β)}
    (h : List.Forall₂ P xs Bs) (y : β) : y ∈ Bs.flatten ↔ ∃ x ∈ xs, S x y := by
  induction h with
  | nil => simp
  | @cons x B xs Bs hB _ ih =>
      rw [List.flatten_cons, List.mem_append, ih, hP x B hB y]
      simp

/-- Blocks each in order, and keyed by their items in order, are in order together. -/
theorem pairwise_flatten_of_forall₂ {P : α → List β → Prop} {R : β → β → Prop}
    {Q : α → α → Prop} {K : α → β → Prop}
    (hP : ∀ x B, P x B → B.Pairwise R ∧ ∀ y ∈ B, K x y)
    (hQ : ∀ x x' y y', Q x x' → K x y → K x' y' → R y y') {xs : List α} {Bs : List (List β)}
    (h : List.Forall₂ P xs Bs) (hxs : xs.Pairwise Q) : Bs.flatten.Pairwise R := by
  induction h with
  | nil => exact List.Pairwise.nil
  | @cons x B xs Bs hB hBs ih =>
      obtain ⟨hxQ, hxs⟩ := List.pairwise_cons.mp hxs
      rw [List.flatten_cons, List.pairwise_append]
      refine ⟨(hP x B hB).1, ih hxs, fun y hy y' hy' => ?_⟩
      obtain ⟨B', hB', hy'⟩ := List.mem_flatten.mp hy'
      obtain ⟨x', hx', hPx'⟩ := forall₂_mem_right hBs hB'
      exact hQ x x' y y' (hxQ x' hx') ((hP x B hB).2 y hy) ((hP x' B' hPx').2 y' hy')

end Fold

theorem countP_lt_countP {α : Type} {p q : α → Bool} :
    ∀ {l : List α}, (∀ x ∈ l, p x → q x) → ∀ {a : α}, a ∈ l → q a → ¬p a →
      l.countP p < l.countP q
  | [], _, _, ha, _, _ => absurd ha List.not_mem_nil
  | x :: l, hpq, a, ha, hqa, hpa => by
      have hmono := List.countP_mono_left fun y hy => hpq y (List.mem_cons_of_mem x hy)
      rw [List.countP_cons, List.countP_cons]
      rcases List.mem_cons.mp ha with rfl | ha
      · simp only [hqa, hpa, if_true, Bool.false_eq_true, if_false]
        omega
      · have ih := countP_lt_countP (fun y hy => hpq y (List.mem_cons_of_mem x hy)) ha hqa hpa
        by_cases hpx : p x = true
        · simp only [hpx, hpq x List.mem_cons_self hpx, if_true]
          omega
        · simp only [hpx, Bool.false_eq_true, if_false]
          split <;> omega

namespace FileRules

variable (glob : GlobMatcher)

/-- Whether the walk leaves out a directory of this name: an excluded-directory pattern equals
    the name or matches it. -/
def Prunes (r : FileRules) (name : String) : Prop :=
  ∃ p ∈ r.excludedDirs, p = name ∨ glob p name = .ok true

/-- Whether the rules take a file at this relative path: an include pattern matches it, the
    default one when none is given, and no exclude pattern does. -/
def Selects (r : FileRules) (relPath : String) : Prop :=
  (∃ p ∈ (if r.includes = [] then [defaultInclude] else r.includes), glob p relPath = .ok true) ∧
  ∀ p ∈ r.excludes, glob p relPath ≠ .ok true

/-- A malformed excluded-directory pattern counts as one that does not match. -/
theorem skipsDir_iff (r : FileRules) (name : String) :
    r.SkipsDir glob name = true ↔ r.Prunes glob name := by
  unfold SkipsDir Prunes
  rw [List.any_eq_true]
  refine exists_congr fun p => and_congr_right fun _ => ?_
  rw [Bool.or_eq_true, beq_iff_eq]
  cases glob p name with
  | ok b => simp
  | error e => simp

variable {glob}

/-- Over valid patterns, the search for one that matches succeeds and finds whether one does. -/
theorem anyMatches_ok (word : String) {ps : List String} (hps : ∀ p ∈ ps, glob.Valid p)
    (relPath : String) :
    ∃ b, anyMatches glob word ps relPath = .ok b ∧
      (b = true ↔ ∃ p ∈ ps, glob p relPath = .ok true) := by
  obtain ⟨b, hb, hiff⟩ : ∃ b, anyMatches glob word ps relPath = .ok b ∧
      (b = true ↔ false = true ∨ ∃ p ∈ ps, glob p relPath = .ok true) :=
    foldlM_first (by intro p; rfl) (fun p hp => by
      obtain ⟨b, hb⟩ := hps p hp relPath
      refine ⟨b, ?_, by rw [hb, Except.ok.injEq]⟩
      simp only [Bool.false_eq_true, if_false, hb]
      rfl) false
  exact ⟨b, hb, by simpa using hiff⟩

/-- With valid patterns, the default include pattern among them, whether a file is taken is
    decided without error, and it is taken exactly when the rules select it. -/
theorem takes_ok (r : FileRules) (hdefault : glob.Valid defaultInclude)
    (hvalid : ∀ p ∈ r.includes ++ r.excludes, glob.Valid p) (relPath : String) :
    ∃ b, r.Takes glob relPath = .ok b ∧ (b = true ↔ r.Selects glob relPath) := by
  have hinc : ∀ p ∈ (if r.includes = [] then [defaultInclude] else r.includes), glob.Valid p := by
    split
    · simpa using hdefault
    · exact fun p hp => hvalid p (List.mem_append_left _ hp)
  obtain ⟨i, hi, hiffi⟩ := anyMatches_ok "include" hinc relPath
  obtain ⟨x, hx, hiffx⟩ :=
    anyMatches_ok "exclude" (fun p hp => hvalid p (List.mem_append_right _ hp)) relPath
  have hlist : (if r.includes.isEmpty then [defaultInclude] else r.includes) =
      if r.includes = [] then [defaultInclude] else r.includes := by
    simp only [List.isEmpty_iff]
  unfold Takes
  simp only [hlist, hi, Except.ok_bind]
  cases i with
  | false =>
      refine ⟨false, rfl, ?_⟩
      simp only [Bool.false_eq_true, false_iff] at hiffi ⊢
      exact fun h => hiffi h.1
  | true =>
      refine ⟨!x, by simp [hx], ?_⟩
      rw [Selects, ← hiffi]
      cases x <;> simp_all

end FileRules

namespace FileSystem

/-- How many entries of the tree lie strictly below the directory with names `ds`. -/
def below (fs : FileSystem) (ds : List Bytes) : Nat :=
  fs.nodes.countP fun e => ds.length < (Path.names e.1).length && ds.isPrefixOf (Path.names e.1)

/-- An entry one name below a directory lies below it, and so does everything below the entry:
    fewer entries lie below the entry. -/
theorem below_lt {fs : FileSystem} {ds : List Bytes} {m : Bytes}
    (hnames : ∀ n ∈ ds ++ [m], Path.Name n) {n : Node}
    (hm : (Path.rooted (ds ++ [m]), n) ∈ fs.nodes) : fs.below (ds ++ [m]) < fs.below ds := by
  have hentry : Path.names (Path.rooted (ds ++ [m])) = ds ++ [m] := Path.names_rooted hnames
  refine countP_lt_countP (fun e _ he => ?_) hm (by simp [hentry]) (by simp [hentry])
  simp only [Bool.and_eq_true, decide_eq_true_eq, List.isPrefixOf_iff_prefix] at he ⊢
  obtain ⟨hlen, hpre⟩ := he
  refine ⟨?_, (List.prefix_append ds [m]).trans hpre⟩
  simp only [List.length_append, List.length_singleton] at hlen
  omega

/-- What the walk of the directory at names `ds`, which lies at `rel` below the output directory
    `root`, finds at the names `ns` below it: a regular file of the tree, below no directory the
    walk leaves out, at a relative path the rules select; found with its path under `root`, its
    relative path and its size. -/
def Found (glob : GlobMatcher) (fs : FileSystem) (rules : FileRules) (root : Path)
    (ds rel ns : List Bytes) (x : FoundFile) : Prop :=
  ∃ f, ns ≠ [] ∧ (∀ n ∈ ns, Path.Name n) ∧ (Path.rooted (ds ++ ns), Node.file f) ∈ fs.nodes ∧
    (∀ d ∈ ns.dropLast, ¬rules.Prunes glob (Bytes.decode d)) ∧
    rules.Selects glob (Bytes.decode (Path.unpieces (rel ++ ns))) ∧
    x = ⟨Path.join root (Path.unpieces (rel ++ ns)), Path.unpieces (rel ++ ns), f.content.length⟩

/-- The files found below the directory `dir` that the output directory `root` leads to: exactly
    the regular files below `dir` whose way down passes no directory the walk leaves out and
    whose relative path the rules select, each with its path under `root` as given, its relative
    path and its size. A link below `dir` is no regular file, and nothing is reached through one.
    The files come in increasing order of their names from `dir` down, which is the order of a
    walk that takes each directory's entries by name and enters a subdirectory where it stands;
    so each comes once. -/
structure Discovered (glob : GlobMatcher) (fs : FileSystem) (rules : FileRules) (root dir : Path)
    (found : List FoundFile) : Prop where
  mem_iff : ∀ x, x ∈ found ↔ ∃ ns f, ns ≠ [] ∧ (∀ n ∈ ns, Path.Name n) ∧
    (Path.join dir (Path.unpieces ns), Node.file f) ∈ fs.nodes ∧
    (∀ d ∈ ns.dropLast, ¬rules.Prunes glob (Bytes.decode d)) ∧
    rules.Selects glob (Bytes.decode (Path.unpieces ns)) ∧
    x = ⟨Path.join root (Path.unpieces ns), Path.unpieces ns, f.content.length⟩
  preorder : found.Pairwise fun x y => Path.pieces x.relPath < Path.pieces y.relPath

namespace Tree

variable {glob : GlobMatcher} {fs : FileSystem} {rules : FileRules} {root : Path}

/-- A tree holds one entry at a path. -/
theorem node_unique (ht : fs.Tree) {q : Path} {n n' : Node} (h : (q, n) ∈ fs.nodes)
    (h' : (q, n') ∈ fs.nodes) : n = n' := by
  obtain ⟨ns, rfl, hne, hns⟩ := ht.entry h
  have hnames := names_of_entryNames hns
  exact Option.some.inj (((node?_eq_some ht hnames hne).mpr h).symm.trans
    ((node?_eq_some ht hnames hne).mpr h'))

/-- Nothing of a tree lies below one of its files or links. -/
theorem not_mem_below (ht : fs.Tree) {ks ms : List Bytes}
    (hnames : ∀ n ∈ ks ++ ms, Path.Name n) (hms : ms ≠ []) {k : Node}
    (hk : (Path.rooted ks, k) ∈ fs.nodes) (hkind : k ≠ .directory) {n : Node} :
    (Path.rooted (ks ++ ms), n) ∉ fs.nodes := by
  intro hn
  have hdir := directory_above ht hms hnames
    ((node?_eq_some ht hnames (by simp [hms])).mpr hn)
  obtain ⟨ns, hks, hne, hns⟩ := ht.entry hk
  obtain rfl : ks = ns := (Path.rooted_inj (fun m hm => hnames m (List.mem_append_left _ hm))
    (names_of_entryNames hns)).mp hks
  rw [(node?_eq_some ht (names_of_entryNames hns) hne).mpr hk] at hdir
  exact hkind (Option.some.inj hdir)

section Blocks

variable {ds rel : List Bytes} {m : Bytes}

/-- The relative path of a file found at names `ns` is cut into `rel` and `ns`. -/
theorem pieces_relPath (hrel : ∀ n ∈ rel, Path.Name n) {ns : List Bytes} {x : FoundFile}
    (h : Found glob fs rules root ds rel ns x) : Path.pieces x.relPath = rel ++ ns := by
  obtain ⟨f, hne, hns, -, -, -, rfl⟩ := h
  exact Path.pieces_unpieces
    (fun n hn => (List.forall_mem_append.mpr ⟨hrel, hns⟩ n hn).slash_not_mem) (by simp [hne])

/-- What is found below a directory lies below one of its entries. -/
theorem entry_of_found (ht : fs.Tree) (hds : ∀ n ∈ ds, Path.Name n) {ns : List Bytes}
    {x : FoundFile} (h : Found glob fs rules root ds rel (m :: ns) x) :
    ∃ n, EntryName m ∧ (Path.rooted (ds ++ [m]), n) ∈ fs.nodes := by
  obtain ⟨f, -, hns, hf, -⟩ := h
  have hm : ∀ n ∈ ds ++ [m], Path.Name n :=
    List.forall_mem_append.mpr ⟨hds, List.forall_mem_singleton.mpr (hns m List.mem_cons_self)⟩
  have hnames : ∀ n ∈ (ds ++ [m]) ++ ns, Path.Name n :=
    List.forall_mem_append.mpr ⟨hm, fun n hn => hns n (List.mem_cons_of_mem m hn)⟩
  -- the entry is the file itself, or a directory above it
  obtain ⟨n, hn⟩ : ∃ n, fs.node? (Path.rooted (ds ++ [m])) = some n := by
    cases ns with
    | nil => exact ⟨_, (node?_eq_some ht hm (by simp)).mpr hf⟩
    | cons k ns =>
        exact ⟨_, directory_above ht (List.cons_ne_nil k ns) hnames
          ((node?_eq_some ht hnames (by simp)).mpr (by simpa using hf))⟩
  obtain ⟨ks, hks, hentry⟩ := rooted_of_node? ht hn
  obtain rfl : ds ++ [m] = ks := (Path.rooted_inj hm (names_of_entryNames hentry)).mp hks
  exact ⟨n, hentry m (by simp), (node?_eq_some ht hm (by simp)).mp hn⟩

/-- Below a directory, a file one name down is found exactly when the rules select it. -/
theorem found_file_iff (ht : fs.Tree) (hds : ∀ n ∈ ds, Path.Name n) (hm : Path.Name m)
    {f : StoredFile} (hf : (Path.rooted (ds ++ [m]), Node.file f) ∈ fs.nodes) (x : FoundFile) :
    (∃ ns, Found glob fs rules root ds rel (m :: ns) x) ↔
      rules.Selects glob (Bytes.decode (Path.unpieces (rel ++ [m]))) ∧
        x = ⟨Path.join root (Path.unpieces (rel ++ [m])), Path.unpieces (rel ++ [m]),
          f.content.length⟩ := by
  constructor
  · rintro ⟨ns, f', -, hns, hf', -, hsel, rfl⟩
    -- nothing lies below the file, so the names end at it and the entry found is the file
    obtain rfl : ns = [] := by
      by_contra hne
      have hnames : ∀ n ∈ (ds ++ [m]) ++ ns, Path.Name n :=
        List.forall_mem_append.mpr ⟨List.forall_mem_append.mpr
          ⟨hds, List.forall_mem_singleton.mpr hm⟩, fun n hn => hns n (List.mem_cons_of_mem m hn)⟩
      exact not_mem_below ht hnames hne hf (fun h => nomatch h) (by simpa using hf')
    cases node_unique ht hf hf'
    exact ⟨hsel, rfl⟩
  · rintro ⟨hsel, rfl⟩
    exact ⟨[], f, List.cons_ne_nil _ _, by simpa using hm, hf, by simp, hsel, rfl⟩

/-- Below a directory the walk leaves out, nothing is found. -/
theorem not_found_pruned (ht : fs.Tree)
    (hdir : (Path.rooted (ds ++ [m]), Node.directory) ∈ fs.nodes)
    (hprune : rules.Prunes glob (Bytes.decode m)) (x : FoundFile) :
    ¬∃ ns, Found glob fs rules root ds rel (m :: ns) x := by
  rintro ⟨ns, f, -, -, hf, hkept, -⟩
  cases ns with
  | nil => cases node_unique ht hdir hf
  | cons k ns => exact hkept m (by simp) hprune

/-- Below a link, nothing is found: it is no file, and nothing lies below it. -/
theorem not_found_link (ht : fs.Tree) (hds : ∀ n ∈ ds, Path.Name n) {t : Path}
    (hlink : (Path.rooted (ds ++ [m]), Node.symlink t) ∈ fs.nodes) (x : FoundFile) :
    ¬∃ ns, Found glob fs rules root ds rel (m :: ns) x := by
  rintro ⟨ns, f, -, hns, hf, -⟩
  cases ns with
  | nil => cases node_unique ht hlink hf
  | cons k ns =>
      have hnames : ∀ n ∈ (ds ++ [m]) ++ k :: ns, Path.Name n :=
        List.forall_mem_append.mpr ⟨List.forall_mem_append.mpr
          ⟨hds, List.forall_mem_singleton.mpr (hns m List.mem_cons_self)⟩,
          fun n hn => hns n (List.mem_cons_of_mem m hn)⟩
      exact not_mem_below ht hnames (List.cons_ne_nil k ns) hlink (fun h => nomatch h)
        (by simpa using hf)

/-- Below a directory the walk enters, it finds what is found one name down. -/
theorem found_below_iff (ht : fs.Tree) (hm : Path.Name m)
    (hdir : (Path.rooted (ds ++ [m]), Node.directory) ∈ fs.nodes)
    (hkept : ¬rules.Prunes glob (Bytes.decode m)) (x : FoundFile) :
    (∃ ns, Found glob fs rules root (ds ++ [m]) (rel ++ [m]) ns x) ↔
      ∃ ns, Found glob fs rules root ds rel (m :: ns) x := by
  constructor
  · rintro ⟨ns, f, hne, hns, hf, hkept', hsel, rfl⟩
    refine ⟨ns, f, List.cons_ne_nil _ _, List.forall_mem_cons.mpr ⟨hm, hns⟩, by simpa using hf,
      fun d hd => ?_, by simpa using hsel, by simp⟩
    rw [List.dropLast_cons_of_ne_nil hne] at hd
    rcases List.mem_cons.mp hd with rfl | hd
    · exact hkept
    · exact hkept' d hd
  · rintro ⟨ns, f, -, hns, hf, hkept', hsel, rfl⟩
    -- the directory is no file, so the names go on below it
    have hne : ns ≠ [] := by
      rintro rfl
      cases node_unique ht hdir hf
    refine ⟨ns, f, hne, fun n hn => hns n (List.mem_cons_of_mem m hn), by simpa using hf,
      fun d hd => hkept' d ?_, by simpa using hsel, by simp⟩
    rw [List.dropLast_cons_of_ne_nil hne]
    exact List.mem_cons_of_mem m hd

/-- Blocks for the entries of a directory, listed by name, each holding in order what is found
    below its entry, hold together in order what is found below the directory. -/
theorem blocks_found (ht : fs.Tree) (hds : ∀ n ∈ ds, Path.Name n) (hrel : ∀ n ∈ rel, Path.Name n)
    {es : List (Bytes × Path × Node)}
    (hes : ∀ e, e ∈ es ↔ ∃ m n, EntryName m ∧ (Path.rooted (ds ++ [m]), n) ∈ fs.nodes ∧
      e = (m, Path.rooted (ds ++ [m]), n))
    (hsorted : (es.map (·.1)).Pairwise (· < ·)) {Bs : List (List FoundFile)}
    (hBs : List.Forall₂ (fun (e : Bytes × Path × Node) B =>
      (∀ x, x ∈ B ↔ ∃ ns, Found glob fs rules root ds rel (e.1 :: ns) x) ∧
        B.Pairwise fun x y => Path.pieces x.relPath < Path.pieces y.relPath) es Bs) :
    (∀ x, x ∈ Bs.flatten ↔ ∃ ns, Found glob fs rules root ds rel ns x) ∧
      Bs.flatten.Pairwise fun x y => Path.pieces x.relPath < Path.pieces y.relPath := by
  refine ⟨fun x => ?_, ?_⟩
  · -- every file found lies below one of the entries listed
    rw [mem_flatten_of_forall₂ (fun _ _ hP => hP.1) hBs x]
    constructor
    · rintro ⟨e, -, ns, h⟩
      exact ⟨_, h⟩
    · rintro ⟨ns, h⟩
      cases ns with
      | nil => exact absurd h.choose_spec.1 (fun h => h rfl)
      | cons m ns =>
          obtain ⟨n, hm, hmem⟩ := entry_of_found ht hds h
          exact ⟨_, (hes _).mpr ⟨m, n, hm, hmem, rfl⟩, ns, h⟩
  · -- blocks of earlier names come first
    refine pairwise_flatten_of_forall₂
      (K := fun (e : Bytes × Path × Node) x => ∃ u, Path.pieces x.relPath = rel ++ e.1 :: u)
      (fun e B hP => ⟨hP.2, fun y hy => ?_⟩) (fun e e' y y' hlt ⟨u, hu⟩ ⟨u', hu'⟩ => ?_) hBs
      (List.pairwise_map.mp hsorted)
    · obtain ⟨ns, h⟩ := (hP.1 y).mp hy
      exact ⟨ns, pieces_relPath hrel h⟩
    · rw [hu, hu']
      exact List.append_left_lt (List.cons_lt_cons_iff.mpr (.inl hlt))

end Blocks

/-- Walking a directory of a tree, reached by a walk, with fuel above the number of entries below
    it, succeeds with exactly the files found below it, in increasing order of their names. -/
theorem walkFiles_found (ht : fs.Tree) (hdefault : glob.Valid defaultInclude)
    (hvalid : ∀ p ∈ rules.includes ++ rules.excludes, glob.Valid p) :
    ∀ (fuel : Nat) {q : Path} {ds rel : List Bytes}, (∀ n ∈ ds, EntryName n) →
      (∀ n ∈ rel, Path.Name n) → fs.resolve q = .ok (Path.rooted ds) →
      fs.node? (Path.rooted ds) = some .directory → fs.below ds < fuel →
      ∃ L, walkFiles glob fs rules root fuel q rel = .ok L ∧
        (∀ x, x ∈ L ↔ ∃ ns, Found glob fs rules root ds rel ns x) ∧
        L.Pairwise fun x y => Path.pieces x.relPath < Path.pieces y.relPath
  | 0, _, _, _, _, _, _, _, hfuel => absurd hfuel (Nat.not_lt_zero _)
  | fuel + 1, q, ds, rel, hds, hrel, hwalk, hdir, hfuel => by
      have hdsN := names_of_entryNames hds
      obtain ⟨es, hlist, hes, hsorted⟩ := listDir_of_resolve ht hdsN hwalk hdir
      -- each entry adds the block of files found from it
      obtain ⟨Bs, hBs, hrun⟩ : ∃ Bs, List.Forall₂ (fun (e : Bytes × Path × Node) B =>
          (∀ x, x ∈ B ↔ ∃ ns, Found glob fs rules root ds rel (e.1 :: ns) x) ∧
            B.Pairwise fun x y => Path.pieces x.relPath < Path.pieces y.relPath) es Bs ∧
          walkFiles glob fs rules root (fuel + 1) q rel = .ok ([] ++ Bs.flatten) := by
        rw [walkFiles, hlist]
        refine foldlM_append_blocks (fun e he => ?_) []
        obtain ⟨m, n, hm, hmem, rfl⟩ := (hes e).mp he
        have hnames : ∀ k ∈ ds ++ [m], Path.Name k :=
          List.forall_mem_append.mpr ⟨hdsN, List.forall_mem_singleton.mpr hm.1⟩
        cases n with
        | directory =>
            by_cases hprune : rules.Prunes glob (Bytes.decode m)
            · refine ⟨[], ⟨fun x => ?_, List.Pairwise.nil⟩, fun c => ?_⟩
              · simp only [List.not_mem_nil, false_iff]
                exact not_found_pruned ht hmem hprune x
              · dsimp only
                rw [if_pos ((FileRules.skipsDir_iff glob rules _).mpr hprune), List.append_nil]
                rfl
            · have hentered : fs.node? (Path.rooted (ds ++ [m])) = some .directory :=
                (node?_eq_some ht hnames (by simp)).mpr hmem
              have hdsm : ∀ k ∈ ds ++ [m], EntryName k :=
                List.forall_mem_append.mpr ⟨hds, List.forall_mem_singleton.mpr hm⟩
              -- the subdirectory has fewer entries below it, so the fuel left suffices
              obtain ⟨L, hL, hmemL, hsortL⟩ := walkFiles_found ht hdefault hvalid fuel hdsm
                (List.forall_mem_append.mpr ⟨hrel, List.forall_mem_singleton.mpr hm.1⟩)
                (walkWith_rooted ht hdsm hentered (fun _ h => nomatch h)) hentered (by have := below_lt hnames hmem; omega)
              refine ⟨L, ⟨fun x => (hmemL x).trans (found_below_iff ht hm.1 hmem hprune x),
                hsortL⟩, fun c => ?_⟩
              have hskip : rules.SkipsDir glob (Bytes.decode m) = false :=
                Bool.eq_false_iff.mpr fun h => hprune ((FileRules.skipsDir_iff glob rules _).mp h)
              dsimp only
              rw [hskip, if_neg Bool.false_ne_true, hL]
              rfl
        | symlink t =>
            refine ⟨[], ⟨fun x => ?_, List.Pairwise.nil⟩, fun c => ?_⟩
            · simp only [List.not_mem_nil, false_iff]
              exact not_found_link ht hdsN hmem x
            · simp only [List.append_nil]
              rfl
        | file f =>
            obtain ⟨b, hb, hiff⟩ := rules.takes_ok hdefault hvalid (Bytes.decode (Path.unpieces (rel ++ [m])))
            refine ⟨if b then [⟨Path.join root (Path.unpieces (rel ++ [m])),
              Path.unpieces (rel ++ [m]), f.content.length⟩] else [], ⟨fun x => ?_, ?_⟩, fun c => ?_⟩
            · rw [found_file_iff ht hdsN hm.1 hmem x, ← hiff]
              cases b <;> simp
            · cases b <;> simp
            · dsimp only
              rw [hb, Except.ok_bind]
              cases b
              · rw [if_neg Bool.false_ne_true, if_neg Bool.false_ne_true, List.append_nil]
                rfl
              · rw [if_pos rfl, if_pos rfl]
                rfl
      obtain ⟨hmemL, hsortL⟩ := blocks_found ht hdsN hrel hes hsorted hBs
      exact ⟨Bs.flatten, by rwa [List.nil_append] at hrun, hmemL, hsortL⟩

end Tree

end FileSystem

/-- In a directory tree, with include and exclude patterns that are valid for the pattern
    library, which takes its default include pattern too, finding the compiled files below an
    output directory succeeds: it walks the directory the output directory leads to, links
    followed, and finds exactly the regular files below it that the rules select, in the order
    of a walk that takes each directory's entries by name. -/
theorem discoverFiles_preorder (glob : GlobMatcher) (fs : FileSystem) (rules : FileRules)
    (root : Path) (ht : fs.Tree) (hdefault : glob.Valid defaultInclude)
    (hvalid : ∀ p ∈ rules.includes ++ rules.excludes, glob.Valid p)
    (hroot : fs.stat root = .ok .directory) :
    ∃ dir found, fs.resolve root = .ok dir ∧ discoverFiles glob fs rules root = .ok found ∧
      fs.Discovered glob rules root dir found := by
  obtain ⟨hresolve, hdir⟩ := FileSystem.resolve_of_stat hroot
  obtain ⟨rs, hrs_eq, hrs⟩ := ht.rooted_of_node? hdir
  rw [hrs_eq] at hresolve hdir
  have hrsN := FileSystem.Tree.names_of_entryNames hrs
  obtain ⟨L, hL, hmem, hsorted⟩ := @FileSystem.Tree.walkFiles_found glob fs rules root ht hdefault
    hvalid (fs.nodes.length + 1) (Path.rooted rs) rs [] hrs (by simp)
    (ht.walkWith_rooted hrs hdir fun _ h => nomatch h) hdir
    (Nat.lt_succ_of_le List.countP_le_length)
  refine ⟨Path.rooted rs, L, hresolve, ?_, ⟨fun x => ?_, hsorted⟩⟩
  · rw [discoverFiles, hroot]
    simp only [hresolve]
    exact hL
  · -- below the directory, the names of a file lead to it from the directory's path
    have hjoin : ∀ ns, ns ≠ [] → (∀ n ∈ ns, Path.Name n) →
        Path.join (Path.rooted rs) (Path.unpieces ns) = Path.rooted (rs ++ ns) :=
      fun ns hne hns => Path.join_rooted_names hrsN hns hne
    rw [hmem x]
    constructor
    · rintro ⟨ns, f, hne, hns, hf, hkept, hsel, rfl⟩
      refine ⟨ns, f, hne, hns, by rwa [hjoin ns hne hns], hkept, by simpa using hsel, by simp⟩
    · rintro ⟨ns, f, hne, hns, hf, hkept, hsel, rfl⟩
      refine ⟨ns, ⟨f, hne, hns, by rwa [hjoin ns hne hns] at hf, hkept, by simpa using hsel,
        by simp⟩⟩

/-- A tree whose output directory `/out` is a link to `/real`, which holds the script `a.js`, a
    link `link.js` to it, and the directories `lib`, with the declaration file `b.d.ts` and the
    script `c.js`, and `nm`, with the script `d.js`. -/
def sampleTree : FileSystem where
  cwd := [47]
  nodes := [([47, 111, 117, 116], .symlink [114, 101, 97, 108]),
    ([47, 114, 101, 97, 108], .directory),
    ([47, 114, 101, 97, 108, 47, 97, 46, 106, 115], .file ⟨[], 420⟩),
    ([47, 114, 101, 97, 108, 47, 108, 105, 110, 107, 46, 106, 115], .symlink [97, 46, 106, 115]),
    ([47, 114, 101, 97, 108, 47, 108, 105, 98], .directory),
    ([47, 114, 101, 97, 108, 47, 108, 105, 98, 47, 98, 46, 100, 46, 116, 115], .file ⟨[1], 420⟩),
    ([47, 114, 101, 97, 108, 47, 108, 105, 98, 47, 99, 46, 106, 115], .file ⟨[2], 420⟩),
    ([47, 114, 101, 97, 108, 47, 110, 109], .directory),
    ([47, 114, 101, 97, 108, 47, 110, 109, 47, 100, 46, 106, 115], .file ⟨[], 420⟩)]

/-- Rules that leave out declaration files and the directory `nm`. -/
def sampleRules : FileRules := { excludes := ["**/*.d.ts"], excludedDirs := ["nm"] }

/-- The output directory `out`, given relative to the root, of the sample tree. -/
theorem discoverFiles_preorder_sample :
    sampleTree.Tree ∧ GlobMatcher.Valid Glob.matches? defaultInclude ∧
      (∀ p ∈ sampleRules.includes ++ sampleRules.excludes, GlobMatcher.Valid Glob.matches? p) ∧
      sampleTree.stat [111, 117, 116] = .ok .directory ∧
      ∃ dir found, sampleTree.resolve [111, 117, 116] = .ok dir ∧
        discoverFiles Glob.matches? sampleTree sampleRules [111, 117, 116] = .ok found ∧
        sampleTree.Discovered Glob.matches? sampleRules [111, 117, 116] dir found := by
  have ht : sampleTree.Tree := ⟨by decide, by decide, by decide, by decide, by decide⟩
  have hvalid : ∀ p ∈ sampleRules.includes ++ sampleRules.excludes,
      GlobMatcher.Valid Glob.matches? p := by
    intro p hp
    obtain rfl : p = "**/*.d.ts" := by simpa [sampleRules] using hp
    exact @Glob.valid_of_doubleStar _ ("**/*.d.ts".toList.drop 3) (by decide)
  have hroot : sampleTree.stat [111, 117, 116] = .ok .directory := by decide
  exact ⟨ht, Glob.valid_defaultInclude, hvalid, hroot,
    discoverFiles_preorder _ _ _ _ ht Glob.valid_defaultInclude hvalid hroot⟩

end Unalias
