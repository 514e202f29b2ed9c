import Mathlib
import Unalias.Proofs.DirectoryTree

/-! # What a walk sees

A walk looks at the entries it passes only for their kind: nothing, a directory, a regular file,
or a link and where it points. Take a set `G` of names. Two trees look alike away from `G`
(`FileSystem.Alike`) when at every place whose names keep clear of `G` they hold the same entry
or two regular files, and at every other place at most a regular file each. Then

* every walk leads to the same place in both, or fails in both (`FileSystem.walkWith_agree`);
* a walk whose pieces keep clear of `G`, but for the last one, is the same in both, failure and
  all, when the links of the trees point clear of `G` too (`FileSystem.walkWith_alike`);
* such a walk, with every piece clear of `G`, ends at a place clear of `G`
  (`FileSystem.walkWith_clear`), and a walk whose last piece is a name ends at a place of that
  name (`FileSystem.walkWith_last`).
-/

namespace Unalias

open Unalias.Path (rooted Name)

namespace FileSystem

section Step

/-- One piece of a walk from a rooted place stays, climbs, or goes down to the piece's name. -/
theorem walkStep_rooted {ks : List Bytes} (hks : ∀ k ∈ ks, Name k) {x : Bytes}
    (hx : Path.slash ∉ x) {next : Path} (h : walkStep (rooted ks) x = .ok next) :
    next = rooted ks ∨ next = rooted ks.dropLast ∨ (Name x ∧ next = rooted (ks ++ [x])) := by
  unfold walkStep at h
  split at h
  · exact .inl (Except.ok.inj h).symm
  split at h
  · exact .inr (.inl ((Except.ok.inj h).symm.trans (Path.dir_rooted hks)))
  split at h
  · cases h
  rename_i hskip hparent _
  simp only [not_or] at hskip
  have hname : Name x := ⟨hskip.1, hskip.2, hparent, hx⟩
  exact .inr (.inr ⟨hname, (Except.ok.inj h).symm.trans (Path.join_rooted_name hks hname)⟩)

end Step

/-- Two entries a walk cannot tell apart: the same entry, or two regular files. -/
def Looks (o o' : Option Node) : Prop :=
  o = o' ∨ (∃ f, o = some (.file f)) ∧ ∃ f', o' = some (.file f')

/-- At most a regular file. -/
def FileOrNone (o : Option Node) : Prop := o = none ∨ ∃ f, o = some (.file f)

theorem Looks.symm {o o' : Option Node} (h : Looks o o') : Looks o' o := by
  rcases h with h | ⟨hf, hf'⟩
  · exact .inl h.symm
  · exact .inr ⟨hf', hf⟩

theorem Looks.trans {o o' o'' : Option Node} (h : Looks o o') (h' : Looks o' o'') : Looks o o'' := by
  rcases h with rfl | ⟨hf, hf'⟩
  · exact h'
  · rcases h' with rfl | ⟨-, hf''⟩
    · exact .inr ⟨hf, hf'⟩
    · exact .inr ⟨hf, hf''⟩

variable (G : Bytes → Prop)

/-- Names that keep clear of `G`. -/
def ClearNames (ks : List Bytes) : Prop := ∀ k ∈ ks, Name k ∧ ¬ G k

/-- Two trees that look alike to a walk away from the names `G`: the same working directory, at a
    place through names clear of `G` entries a walk cannot tell apart, and at any other place
    below the root at most a regular file in each. -/
structure Alike (fs fs' : FileSystem) : Prop where
  cwd : fs.cwd = fs'.cwd
  clear : ∀ ks, ClearNames G ks → Looks (fs.node? (rooted ks)) (fs'.node? (rooted ks))
  named : ∀ ks, (∀ k ∈ ks, Name k) → (∃ k ∈ ks, G k) →
    FileOrNone (fs.node? (rooted ks)) ∧ FileOrNone (fs'.node? (rooted ks))

/-- The links of a tree point through names clear of `G`. -/
def LinksClear (fs : FileSystem) : Prop :=
  ∀ q t, fs.node? q = some (.symlink t) → ∀ x ∈ Path.pieces t, ¬ G x

variable {G}

theorem Alike.symm {fs fs' : FileSystem} (h : Alike G fs fs') : Alike G fs' fs where
  cwd := h.cwd.symm
  clear ks hks := (h.clear ks hks).symm
  named ks hks hG := (h.named ks hks hG).symm

theorem Alike.trans {fs fs' fs'' : FileSystem} (h : Alike G fs fs') (h' : Alike G fs' fs'') :
    Alike G fs fs'' where
  cwd := h.cwd.trans h'.cwd
  clear ks hks := (h.clear ks hks).trans (h'.clear ks hks)
  named ks hks hG := ⟨(h.named ks hks hG).1, (h'.named ks hks hG).2⟩

theorem ClearNames.snoc {ks : List Bytes} (hks : ClearNames G ks) {x : Bytes} (hx : Name x)
    (hG : ¬ G x) : ClearNames G (ks ++ [x]) := by
  intro k hk
  rcases List.mem_append.mp hk with hk | hk
  · exact hks k hk
  · rw [List.mem_singleton.mp hk]
    exact ⟨hx, hG⟩

theorem ClearNames.dropLast {ks : List Bytes} (hks : ClearNames G ks) : ClearNames G ks.dropLast :=
  fun k hk => hks k (List.dropLast_subset ks hk)

theorem ClearNames.names {ks : List Bytes} (hks : ClearNames G ks) : ∀ k ∈ ks, Name k :=
  fun k hk => (hks k hk).1

/-- One piece clear of `G` from a place clear of `G` leads to a place clear of `G`. -/
theorem walkStep_clear {ks : List Bytes} (hks : ClearNames G ks) {x : Bytes}
    (hx : Path.slash ∉ x) (hG : ¬ G x) {next : Path} (h : walkStep (rooted ks) x = .ok next) :
    ∃ ks', next = rooted ks' ∧ ClearNames G ks' := by
  rcases walkStep_rooted hks.names hx h with rfl | rfl | ⟨hname, rfl⟩
  · exact ⟨ks, rfl, hks⟩
  · exact ⟨ks.dropLast, rfl, hks.dropLast⟩
  · exact ⟨ks ++ [x], rfl, hks.snoc hname hG⟩

/-- One piece from a rooted place leads to a rooted place. -/
theorem walkStep_names {ks : List Bytes} (hks : ∀ k ∈ ks, Name k) {x : Bytes}
    (hx : Path.slash ∉ x) {next : Path} (h : walkStep (rooted ks) x = .ok next) :
    ∃ ks', next = rooted ks' ∧ ∀ k ∈ ks', Name k := by
  rcases walkStep_rooted hks hx h with rfl | rfl | ⟨hname, rfl⟩
  · exact ⟨ks, rfl, hks⟩
  · exact ⟨ks.dropLast, rfl, fun k hk => hks k (List.dropLast_subset ks hk)⟩
  · exact ⟨ks ++ [x], rfl, fun k hk => by
      rcases List.mem_append.mp hk with hk | hk
      · exact hks k hk
      · rw [List.mem_singleton.mp hk]; exact hname⟩

/-- Where a link sends a walk on from: the root for an absolute target, else the place of the
    link's directory. -/
theorem linkStart_rooted (t : Path) (ks : List Bytes) :
    (if Path.IsAbs t = true then [Path.slash] else rooted ks) = rooted [] ∨
      (if Path.IsAbs t = true then [Path.slash] else rooted ks) = rooted ks := by
  split
  · exact .inl rfl
  · exact .inr rfl

/-- One piece from a place clear of `G` leads to a place clear of `G`, or, when the piece is a name
    in `G`, to the place of that name. -/
theorem walkStep_cases {ks : List Bytes} (hks : ClearNames G ks) {x : Bytes}
    (hx : Path.slash ∉ x) {next : Path} (h : walkStep (rooted ks) x = .ok next) :
    ∃ ks', next = rooted ks' ∧ (∀ k ∈ ks', Name k) ∧
      (ClearNames G ks' ∨ (G x ∧ ks' = ks ++ [x])) := by
  rcases walkStep_rooted hks.names hx h with rfl | rfl | ⟨hname, rfl⟩
  · exact ⟨ks, rfl, hks.names, .inl hks⟩
  · exact ⟨ks.dropLast, rfl, hks.dropLast.names, .inl hks.dropLast⟩
  · by_cases hG : G x
    · refine ⟨ks ++ [x], rfl, fun k hk => ?_, .inr ⟨hG, rfl⟩⟩
      rcases List.mem_append.mp hk with hk | hk
      · exact hks.names k hk
      · rw [List.mem_singleton.mp hk]; exact hname
    · exact ⟨ks ++ [x], rfl, (hks.snoc hname hG).names, .inl (hks.snoc hname hG)⟩

theorem mem_dropLast_cons {x y : Bytes} {rest : List Bytes} (hrest : rest ≠ [])
    (hy : y ∈ x :: rest.dropLast) : y ∈ (x :: rest).dropLast := by
  rwa [List.dropLast_cons_of_ne_nil hrest]

/-- The pieces a link sends a walk on with: the target's, then the rest. -/
theorem mem_dropLast_target {t : Path} {rest : List Bytes} {y : Bytes}
    (hy : y ∈ (Path.pieces t ++ rest).dropLast) : y ∈ Path.pieces t ∨ y ∈ rest.dropLast := by
  rw [List.dropLast_append] at hy
  split at hy
  · exact .inl (List.dropLast_subset _ hy)
  · exact List.mem_append.mp hy

section Walks

variable {fs fs' : FileSystem} {follow follow' : Path → List Bytes → Except FsError Path}
  {last : Bool}

/-- The same walk in two trees alike away from `G`, for pieces clear of `G` but perhaps the last,
    given followers of links that agree on such walks. -/
theorem walkPieces_alike (h : Alike G fs fs') (hlinks : LinksClear G fs)
    (hfollow : ∀ ks ps, ClearNames G ks → (∀ x ∈ ps, Path.slash ∉ x) →
      (∀ x ∈ ps.dropLast, ¬ G x) → follow (rooted ks) ps = follow' (rooted ks) ps) :
    ∀ (ps ks : List Bytes), ClearNames G ks → (∀ x ∈ ps, Path.slash ∉ x) →
      (∀ x ∈ ps.dropLast, ¬ G x) →
      fs.walkPieces follow last (rooted ks) ps = fs'.walkPieces follow' last (rooted ks) ps
  | [], _, _, _, _ => rfl
  | x :: rest, ks, hks, hslash, hG => by
      rw [walkPieces, walkPieces]
      cases hstep : walkStep (rooted ks) x with
      | error e => rfl
      | ok next =>
        simp only [bind, Except.bind]
        have hrest : ∀ y ∈ rest, Path.slash ∉ y := fun y hy => hslash y (List.mem_cons_of_mem _ hy)
        obtain ⟨ks', rfl, hnames, hcases⟩ := walkStep_cases hks (hslash x List.mem_cons_self) hstep
        rcases hcases with hclear | ⟨hxG, rfl⟩
        · rcases h.clear ks' hclear with heq | ⟨⟨f, hf⟩, ⟨f', hf'⟩⟩
          · rw [← heq]
            cases hn : fs.node? (rooted ks') with
            | none => rfl
            | some n =>
              cases n with
              | file f => rfl
              | directory =>
                exact walkPieces_alike h hlinks hfollow rest ks' hclear hrest fun y hy => by
                  by_cases hne : rest = []
                  · simp [hne] at hy
                  · exact hG y (mem_dropLast_cons hne (List.mem_cons_of_mem _ hy))
              | symlink t =>
                simp only
                split
                · rfl
                split
                · rfl
                -- the walk goes on through the target from the root or from the current place
                have htarget := hlinks _ t hn
                have hon : ∀ ks0, ClearNames G ks0 →
                    follow (rooted ks0) (Path.pieces t ++ rest) =
                      follow' (rooted ks0) (Path.pieces t ++ rest) := fun ks0 hks0 =>
                  hfollow ks0 _ hks0
                    (fun y hy => (List.mem_append.mp hy).elim Path.slash_not_mem_of_mem_pieces
                      (hrest y))
                    fun y hy => (mem_dropLast_target hy).elim (htarget y) fun hy => by
                      by_cases hne : rest = []
                      · simp [hne] at hy
                      · exact hG y (mem_dropLast_cons hne (List.mem_cons_of_mem _ hy))
                rcases linkStart_rooted t ks with hs | hs <;> rw [hs]
                · exact hon [] (by simp [ClearNames])
                · exact hon ks hks
          · rw [hf, hf']
        · -- a name in `G` can only be the last piece, and there is at most a file
          have hnil : rest = [] := by
            by_contra hne
            exact hG x (by rw [List.dropLast_cons_of_ne_nil hne]; exact List.mem_cons_self) hxG
          subst hnil
          obtain ⟨hf, hf'⟩ := h.named (ks ++ [x]) hnames ⟨x, by simp, hxG⟩
          rcases hf with hf | ⟨f, hf⟩ <;> rcases hf' with hf' | ⟨f', hf'⟩ <;> simp [hf, hf']

/-- The same walk, any number of links left, in two trees alike away from `G`. -/
theorem walkLinks_alike (h : Alike G fs fs') (hlinks : LinksClear G fs) :
    ∀ (links : Nat) (ps ks : List Bytes), ClearNames G ks → (∀ x ∈ ps, Path.slash ∉ x) →
      (∀ x ∈ ps.dropLast, ¬ G x) →
      fs.walkLinks last links (rooted ks) ps = fs'.walkLinks last links (rooted ks) ps
  | 0 => walkPieces_alike h hlinks fun _ _ _ _ _ => rfl
  | links + 1 => walkPieces_alike h hlinks fun ks ps hks hs hG =>
      walkLinks_alike h hlinks links ps ks hks hs hG

/-- A path whose pieces keep clear of `G`, but perhaps the last, walks alike in two trees alike
    away from `G`, when the working directory and the links keep clear of `G`. -/
theorem walkWith_alike (h : Alike G fs fs') (hlinks : LinksClear G fs)
    (hcwd : ∃ ks, fs.cwd = rooted ks ∧ ClearNames G ks) {p : Path}
    (hp : ∀ x ∈ (Path.pieces p).dropLast, ¬ G x) : fs.walkWith last p = fs'.walkWith last p := by
  unfold walkWith
  split
  · rfl
  split
  · rfl
  split
  · rfl
  have hstart : fs.start p = fs'.start p := by simp only [start, h.cwd]
  obtain ⟨ks, hks, hclear⟩ : ∃ ks, fs.start p = rooted ks ∧ ClearNames G ks := by
    unfold start
    split
    · exact ⟨[], rfl, by simp [ClearNames]⟩
    · exact hcwd
  rw [← hstart, hks]
  exact walkLinks_alike h hlinks maxLinks _ ks hclear
    (fun x hx => Path.slash_not_mem_of_mem_pieces hx) hp

/-- Two results of walks that lead to the same places: either both lead to one place, or neither
    leads anywhere. -/
def SameOk (x y : Except FsError Path) : Prop := ∀ a, x = .ok a ↔ y = .ok a

/-- Any walk from a place clear of `G` leads to the same place in two trees alike away from `G`, or
    fails in both: a place under a name in `G` holds at most a file, where a walk ends. -/
theorem walkPieces_agree (h : Alike G fs fs')
    (hfollow : ∀ ks ps, ClearNames G ks → (∀ x ∈ ps, Path.slash ∉ x) →
      SameOk (follow (rooted ks) ps) (follow' (rooted ks) ps)) :
    ∀ (ps ks : List Bytes), ClearNames G ks → (∀ x ∈ ps, Path.slash ∉ x) →
      SameOk (fs.walkPieces follow last (rooted ks) ps) (fs'.walkPieces follow' last (rooted ks) ps)
  | [], _, _, _ => fun _ => Iff.rfl
  | x :: rest, ks, hks, hslash => by
      rw [walkPieces, walkPieces]
      cases hstep : walkStep (rooted ks) x with
      | error e => exact fun _ => Iff.rfl
      | ok next =>
        simp only [bind, Except.bind]
        have hrest : ∀ y ∈ rest, Path.slash ∉ y := fun y hy => hslash y (List.mem_cons_of_mem _ hy)
        obtain ⟨ks', rfl, hnames, hcases⟩ := walkStep_cases hks (hslash x List.mem_cons_self) hstep
        rcases hcases with hclear | ⟨hxG, rfl⟩
        · rcases h.clear ks' hclear with heq | ⟨⟨f, hf⟩, ⟨f', hf'⟩⟩
          · rw [← heq]
            cases hn : fs.node? (rooted ks') with
            | none => exact fun _ => Iff.rfl
            | some n =>
              cases n with
              | file f => exact fun _ => Iff.rfl
              | directory => exact walkPieces_agree h hfollow rest ks' hclear hrest
              | symlink t =>
                simp only
                split
                · exact fun _ => Iff.rfl
                split
                · exact fun _ => Iff.rfl
                have hps : ∀ y ∈ Path.pieces t ++ rest, Path.slash ∉ y := fun y hy =>
                  (List.mem_append.mp hy).elim Path.slash_not_mem_of_mem_pieces (hrest y)
                rcases linkStart_rooted t ks with hs | hs <;> rw [hs]
                · exact hfollow [] _ (by simp [ClearNames]) hps
                · exact hfollow ks _ hks hps
          · rw [hf, hf']
            exact fun _ => Iff.rfl
        · -- at most a file under a name in `G`: the walk ends there, or fails in both trees
          obtain ⟨hf, hf'⟩ := h.named (ks ++ [x]) hnames ⟨x, by simp, hxG⟩
          intro a
          rcases hf with hf | ⟨f, hf⟩ <;> rcases hf' with hf' | ⟨f', hf'⟩ <;>
            simp only [hf, hf'] <;> split <;> simp

theorem walkLinks_agree (h : Alike G fs fs') :
    ∀ (links : Nat) (ps ks : List Bytes), ClearNames G ks → (∀ x ∈ ps, Path.slash ∉ x) →
      SameOk (fs.walkLinks last links (rooted ks) ps) (fs'.walkLinks last links (rooted ks) ps)
  | 0 => walkPieces_agree h fun _ _ _ _ _ => Iff.rfl
  | links + 1 => walkPieces_agree h fun ks ps hks hs => walkLinks_agree h links ps ks hks hs

/-- Any path leads to the same place in two trees alike away from `G`, or nowhere in both, when
    the working directory keeps clear of `G`. -/
theorem walkWith_agree (h : Alike G fs fs') (hcwd : ∃ ks, fs.cwd = rooted ks ∧ ClearNames G ks)
    (p : Path) : SameOk (fs.walkWith last p) (fs'.walkWith last p) := by
  unfold walkWith
  split
  · exact fun _ => Iff.rfl
  split
  · exact fun _ => Iff.rfl
  split
  · exact fun _ => Iff.rfl
  have hstart : fs.start p = fs'.start p := by simp only [start, h.cwd]
  obtain ⟨ks, hks, hclear⟩ : ∃ ks, fs.start p = rooted ks ∧ ClearNames G ks := by
    unfold start
    split
    · exact ⟨[], rfl, by simp [ClearNames]⟩
    · exact hcwd
  rw [← hstart, hks]
  exact walkLinks_agree h maxLinks _ ks hclear fun x hx => Path.slash_not_mem_of_mem_pieces hx

/-- A walk through pieces clear of `G`, in a tree whose links point clear of `G`, ends at a place
    clear of `G`. -/
theorem walkPieces_clear (hlinks : LinksClear G fs)
    (hfollow : ∀ ks ps a, ClearNames G ks → (∀ x ∈ ps, Path.slash ∉ x ∧ ¬ G x) →
      follow (rooted ks) ps = .ok a → ∃ ks', a = rooted ks' ∧ ClearNames G ks') :
    ∀ (ps ks : List Bytes) (a : Path), ClearNames G ks → (∀ x ∈ ps, Path.slash ∉ x ∧ ¬ G x) →
      fs.walkPieces follow last (rooted ks) ps = .ok a → ∃ ks', a = rooted ks' ∧ ClearNames G ks'
  | [], ks, a, hks, _, hw => ⟨ks, (Except.ok.inj hw).symm, hks⟩
  | x :: rest, ks, a, hks, hps, hw => by
      rw [walkPieces] at hw
      cases hstep : walkStep (rooted ks) x with
      | error e => simp [hstep, bind, Except.bind] at hw
      | ok next =>
        simp only [hstep, bind, Except.bind] at hw
        have hx := hps x List.mem_cons_self
        have hrest : ∀ y ∈ rest, Path.slash ∉ y ∧ ¬ G y := fun y hy => hps y (List.mem_cons_of_mem _ hy)
        obtain ⟨ks', rfl, hclear⟩ := walkStep_clear hks hx.1 hx.2 hstep
        split at hw
        · rename_i t hn
          split at hw
          · exact ⟨ks', (Except.ok.inj hw).symm, hclear⟩
          split at hw
          · cases hw
          -- the walk goes on through the target, clear of `G` as every link's target is
          have hon : ∀ ks0, ClearNames G ks0 → follow (rooted ks0) (Path.pieces t ++ rest) = .ok a →
              ∃ ks', a = rooted ks' ∧ ClearNames G ks' := fun ks0 hks0 =>
            hfollow ks0 _ a hks0 fun y hy => (List.mem_append.mp hy).elim
              (fun hy => ⟨Path.slash_not_mem_of_mem_pieces hy, hlinks _ t hn y hy⟩) (hrest y)
          rcases linkStart_rooted t ks with hs | hs <;> rw [hs] at hw
          · exact hon [] (by simp [ClearNames]) hw
          · exact hon ks hks hw
        · exact walkPieces_clear hlinks hfollow rest ks' a hclear hrest hw
        · split at hw
          · exact ⟨ks', (Except.ok.inj hw).symm, hclear⟩
          · cases hw
        · split at hw
          · exact ⟨ks', (Except.ok.inj hw).symm, hclear⟩
          · cases hw

theorem walkLinks_clear (hlinks : LinksClear G fs) :
    ∀ (links : Nat) (ps ks : List Bytes) (a : Path), ClearNames G ks →
      (∀ x ∈ ps, Path.slash ∉ x ∧ ¬ G x) →
      fs.walkLinks last links (rooted ks) ps = .ok a → ∃ ks', a = rooted ks' ∧ ClearNames G ks'
  | 0 => walkPieces_clear hlinks fun _ _ _ _ _ hw => by cases hw
  | links + 1 => walkPieces_clear hlinks fun ks ps a hks hps hw =>
      walkLinks_clear hlinks links ps ks a hks hps hw

/-- A path whose pieces keep clear of `G` leads to a place clear of `G`, in a tree whose working
    directory and links keep clear of `G`. -/
theorem walkWith_clear (hlinks : LinksClear G fs)
    (hcwd : ∃ ks, fs.cwd = rooted ks ∧ ClearNames G ks) {p a : Path}
    (hp : ∀ x ∈ Path.pieces p, ¬ G x) (hw : fs.walkWith last p = .ok a) :
    ∃ ks, a = rooted ks ∧ ClearNames G ks := by
  unfold walkWith at hw
  split at hw
  · cases hw
  split at hw
  · cases hw
  split at hw
  · cases hw
  obtain ⟨ks, hks, hclear⟩ : ∃ ks, fs.start p = rooted ks ∧ ClearNames G ks := by
    unfold start
    split
    · exact ⟨[], rfl, by simp [ClearNames]⟩
    · exact hcwd
  rw [hks] at hw
  exact walkLinks_clear hlinks maxLinks _ ks a hclear
    (fun x hx => ⟨Path.slash_not_mem_of_mem_pieces hx, hp x hx⟩) hw

/-- A name is looked up below the current place, unless it is too long. -/
theorem walkStep_of_name {ks : List Bytes} (hks : ∀ k ∈ ks, Name k) {n : Bytes} (hn : Name n) :
    walkStep (rooted ks) n =
      if nameMax < n.length then .error .nameTooLong else .ok (rooted (ks ++ [n])) := by
  obtain ⟨hne, hdot, hparent, -⟩ := id hn
  simp only [walkStep, hne, hdot, or_self, if_false, hparent]
  split
  · rfl
  · rw [Path.join_rooted_name hks hn]

/-- A walk whose last piece is a name ends at a place of that name, unless a link it follows
    there sends it elsewhere. -/
theorem walkPieces_last {n : Bytes} (hn : Name n)
    (hnolink : last = true → ∀ ks, (∀ k ∈ ks, Name k) → ∀ t,
      fs.node? (rooted (ks ++ [n])) ≠ some (.symlink t))
    (hfollow : ∀ ks qs a, (∀ k ∈ ks, Name k) → (∀ x ∈ qs, Path.slash ∉ x) →
      follow (rooted ks) (qs ++ [n]) = .ok a → ∃ ks', (∀ k ∈ ks', Name k) ∧ a = rooted (ks' ++ [n])) :
    ∀ (qs ks : List Bytes) (a : Path), (∀ k ∈ ks, Name k) → (∀ x ∈ qs, Path.slash ∉ x) →
      fs.walkPieces follow last (rooted ks) (qs ++ [n]) = .ok a →
        ∃ ks', (∀ k ∈ ks', Name k) ∧ a = rooted (ks' ++ [n])
  | [], ks, a, hks, _, hw => by
      rw [List.nil_append, walkPieces, walkStep_of_name hks hn] at hw
      split at hw
      · cases hw
      simp only [bind, Except.bind] at hw
      have hnames : ∀ k ∈ ks, Name k := hks
      split at hw
      · rename_i t hlink
        cases hlast : last
        · simp [hlast] at hw
          exact ⟨ks, hnames, hw.symm⟩
        · exact absurd hlink (hnolink hlast ks hks t)
      · simp [walkPieces] at hw
        exact ⟨ks, hnames, hw.symm⟩
      · simp at hw
        exact ⟨ks, hnames, hw.symm⟩
      · simp at hw
        exact ⟨ks, hnames, hw.symm⟩
  | x :: qs, ks, a, hks, hslash, hw => by
      rw [List.cons_append, walkPieces] at hw
      cases hstep : walkStep (rooted ks) x with
      | error e => simp [hstep, bind, Except.bind] at hw
      | ok next =>
        simp only [hstep, bind, Except.bind] at hw
        have hqs : ∀ y ∈ qs, Path.slash ∉ y := fun y hy => hslash y (List.mem_cons_of_mem _ hy)
        obtain ⟨ks', rfl, hks'⟩ := walkStep_names hks (hslash x List.mem_cons_self) hstep
        have hrest : (qs ++ [n]).isEmpty = false := by simp
        split at hw
        · rename_i t _
          rw [hrest, Bool.false_and, if_neg Bool.false_ne_true] at hw
          split at hw
          · cases hw
          -- the walk goes on through the target, and still ends with the name
          have hps : ∀ y ∈ Path.pieces t ++ qs, Path.slash ∉ y := fun y hy =>
            (List.mem_append.mp hy).elim Path.slash_not_mem_of_mem_pieces (hqs y)
          rw [← List.append_assoc] at hw
          rcases linkStart_rooted t ks with hs | hs <;> rw [hs] at hw
          · exact hfollow [] _ a (by simp) hps hw
          · exact hfollow ks _ a hks hps hw
        · exact walkPieces_last hn hnolink hfollow qs ks' a hks' hqs hw
        · rw [hrest, if_neg Bool.false_ne_true] at hw
          cases hw
        · rw [hrest, if_neg Bool.false_ne_true] at hw
          cases hw

theorem walkLinks_last {n : Bytes} (hn : Name n)
    (hnolink : last = true → ∀ ks, (∀ k ∈ ks, Name k) → ∀ t,
      fs.node? (rooted (ks ++ [n])) ≠ some (.symlink t)) :
    ∀ (links : Nat) (qs ks : List Bytes) (a : Path), (∀ k ∈ ks, Name k) →
      (∀ x ∈ qs, Path.slash ∉ x) → fs.walkLinks last links (rooted ks) (qs ++ [n]) = .ok a →
        ∃ ks', (∀ k ∈ ks', Name k) ∧ a = rooted (ks' ++ [n])
  | 0 => walkPieces_last hn hnolink fun _ _ _ _ _ hw => by cases hw
  | links + 1 => walkPieces_last hn hnolink fun ks qs a hks hqs hw =>
      walkLinks_last hn hnolink links qs ks a hks hqs hw

/-- A path whose last piece is a name leads to a place of that name, when the working directory
    is rooted and no link of that name is followed at the end. -/
theorem walkWith_last {n : Bytes} (hn : Name n)
    (hnolink : last = true → ∀ ks, (∀ k ∈ ks, Name k) → ∀ t,
      fs.node? (rooted (ks ++ [n])) ≠ some (.symlink t))
    (hcwd : ∃ ks, fs.cwd = rooted ks ∧ ∀ k ∈ ks, Name k) {p a : Path} {qs : List Bytes}
    (hp : Path.pieces p = qs ++ [n]) (hw : fs.walkWith last p = .ok a) :
    ∃ ks, (∀ k ∈ ks, Name k) ∧ a = rooted (ks ++ [n]) := by
  unfold walkWith at hw
  split at hw
  · cases hw
  split at hw
  · cases hw
  split at hw
  · cases hw
  obtain ⟨ks, hks, hnames⟩ : ∃ ks, fs.start p = rooted ks ∧ ∀ k ∈ ks, Name k := by
    unfold start
    split
    · exact ⟨[], rfl, by simp⟩
    · exact hcwd
  rw [hks, hp] at hw
  exact walkLinks_last hn hnolink maxLinks qs ks a hnames
    (fun x hx => Path.slash_not_mem_of_mem_pieces (hp ▸ List.mem_append_left _ hx)) hw

/-- Following a link at the end or not makes no difference to a walk that does not end at one. -/
theorem walkPieces_follow_last
    (hfollow : ∀ cur ps, (∀ a, follow cur ps = .ok a → ∀ t, fs.node? a ≠ some (.symlink t)) →
      follow cur ps = follow' cur ps) :
    ∀ (ps : List Bytes) (cur : Path),
      (∀ a, fs.walkPieces follow false cur ps = .ok a → ∀ t, fs.node? a ≠ some (.symlink t)) →
      fs.walkPieces follow false cur ps = fs.walkPieces follow' true cur ps
  | [], _, _ => rfl
  | x :: rest, cur, hend => by
      rw [walkPieces] at hend ⊢
      rw [walkPieces]
      cases hstep : walkStep cur x with
      | error e => rfl
      | ok next =>
        simp only [hstep, bind, Except.bind] at hend ⊢
        split
        · rename_i t hn
          have hend' : ∀ a, (if rest.isEmpty && !false then Except.ok next
              else if t = [] then .error .notFound
              else follow (if Path.IsAbs t then [Path.slash] else cur) (Path.pieces t ++ rest)) =
                .ok a → ∀ t', fs.node? a ≠ some (.symlink t') := fun a h => hend a (by rw [hn]; exact h)
          by_cases hrest : rest = []
          · -- the walk would end on the link itself
            subst hrest
            exact absurd hn (hend' next (by simp) t)
          · have hne : rest.isEmpty = false := by simpa using hrest
            simp only [hne, Bool.false_and, if_false, Bool.false_eq_true] at hend' ⊢
            split
            · rfl
            · rename_i ht
              simp only [if_neg ht] at hend'
              exact hfollow _ _ hend'
        · exact walkPieces_follow_last hfollow rest next fun a ha => hend a (by
            rename_i hn
            simp only [hn]
            exact ha)
        · rfl
        · rfl

theorem walkLinks_follow_last :
    ∀ (links : Nat) (ps : List Bytes) (cur : Path),
      (∀ a, fs.walkLinks false links cur ps = .ok a → ∀ t, fs.node? a ≠ some (.symlink t)) →
      fs.walkLinks false links cur ps = fs.walkLinks true links cur ps
  | 0 => walkPieces_follow_last fun _ _ _ => rfl
  | links + 1 => walkPieces_follow_last fun cur ps h => walkLinks_follow_last links ps cur h

/-- A path whose entry is not a link leads to that entry whether links at the end are followed
    or not. -/
theorem walk_eq_resolve {p : Path}
    (hend : ∀ a, fs.walk p = .ok a → ∀ t, fs.node? a ≠ some (.symlink t)) :
    fs.walk p = fs.resolve p := by
  unfold walk resolve walkWith at *
  split
  · rfl
  split
  · rfl
  split
  · rfl
  rename_i h1 h2 h3
  simp only [h1, h2, h3, if_false] at hend
  exact walkLinks_follow_last maxLinks _ _ hend

end Walks

end FileSystem

end Unalias
