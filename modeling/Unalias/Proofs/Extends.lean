import Mathlib
import Unalias.Project.Load

/-! # The extends walk

Loading a project file walks the tree of the files it extends. This module says what the walk
computes and that it reports only real cycles.

A loaded configuration lists its files in the post-order of the extends tree (`PostOrder`): the
files below each reference in the order the references are written, then the file itself, so a
file reached along two branches is listed once for each. Its settings are those its files
declare, the last declaring file winning (`Declares`): `baseUrl` and `outDir` come from the last
file that gives a non-empty one, `paths` from the last file that gives one at all, an empty one
included (`ProjectConfig.load_merge`).

The walk always ends, being defined by well-founded recursion. A circular chain it reports is a
real one: it starts at the project file, each file on it extends the next, and its last file is
met earlier on it. When the walk succeeds, no path of extends edges from the project file meets a
file twice (`ProjectConfig.load_detects_cycles`).

Both rest on two readings of the fold over a file's references: when it succeeds, every
reference resolved and every parent loaded (`foldlM_steps_ok`); when it fails, one of them failed
(`foldlM_steps_error`).
-/

namespace Unalias

namespace Except

theorem bind_eq_ok {ε α β : Type} {x : Except ε α} {f : α → Except ε β} {b : β} :
    x >>= f = .ok b ↔ ∃ a, x = .ok a ∧ f a = .ok b := by
  cases x <;> simp [bind, Except.bind]

theorem bind_eq_error {ε α β : Type} {x : Except ε α} {f : α → Except ε β} {e : ε} :
    x >>= f = .error e ↔ x = .error e ∨ ∃ a, x = .ok a ∧ f a = .error e := by
  cases x <;> simp [bind, Except.bind]

theorem ok_bind {ε α β : Type} (a : α) (f : α → Except ε β) : (Except.ok a >>= f) = f a := rfl

theorem eq_ok_of_toOption {ε α : Type} {x : Except ε α} {a : α} (h : x.toOption = some a) :
    x = .ok a := by
  cases x <;> simp_all [Except.toOption]

end Except

theorem mapM_eq_ok_map {α β ε : Type} {f : α → Except ε β} {g : α → β} :
    ∀ {xs : List α}, (∀ x ∈ xs, f x = .ok (g x)) → xs.mapM f = .ok (xs.map g)
  | [], _ => rfl
  | x :: xs, h => by
    rw [List.mapM_cons, h x List.mem_cons_self,
      mapM_eq_ok_map fun y hy => h y (List.mem_cons_of_mem x hy)]
    rfl

/-! ## Folding over references -/

section Fold

variable {α γ δ β ε : Type} (R : α → Except ε γ) (G : γ → Except ε δ) (H : β → δ → β)

/-- A fold that resolves each item, loads what it resolved to and lays the result over the
    accumulator succeeds only when every item resolved and every load succeeded; its result is
    the loaded values laid over the start in order. -/
theorem foldlM_steps_ok : ∀ (xs : List α) (init r : β),
    xs.foldlM (fun c x => R x >>= fun q => G q >>= fun p => pure (H c p)) init = .ok r →
      ∃ qs ps, List.Forall₂ (fun x q => R x = .ok q) xs qs ∧
        List.Forall₂ (fun q p => G q = .ok p) qs ps ∧ r = ps.foldl H init
  | [], init, r, h => by
    simp only [List.foldlM_nil, pure, Except.pure, Except.ok.injEq] at h
    exact ⟨[], [], .nil, .nil, h.symm⟩
  | x :: xs, init, r, h => by
    rw [List.foldlM_cons] at h
    obtain ⟨c, hstep, hrest⟩ := Except.bind_eq_ok.1 h
    obtain ⟨q, hq, hstep⟩ := Except.bind_eq_ok.1 hstep
    obtain ⟨p, hp, hstep⟩ := Except.bind_eq_ok.1 hstep
    simp only [pure, Except.pure, Except.ok.injEq] at hstep
    subst hstep
    obtain ⟨qs, ps, hqs, hps, rfl⟩ := foldlM_steps_ok xs (H init p) r hrest
    exact ⟨q :: qs, p :: ps, .cons hq hqs, .cons hp hps, rfl⟩

/-- A fold of that shape fails only with the failure of one item's resolution or load. -/
theorem foldlM_steps_error : ∀ (xs : List α) (init : β) (e : ε),
    xs.foldlM (fun c x => R x >>= fun q => G q >>= fun p => pure (H c p)) init = .error e →
      ∃ x ∈ xs, R x = .error e ∨ ∃ q, R x = .ok q ∧ G q = .error e
  | [], init, e, h => by simp [pure, Except.pure] at h
  | x :: xs, init, e, h => by
    rw [List.foldlM_cons] at h
    rcases Except.bind_eq_error.1 h with hstep | ⟨c, -, hrest⟩
    · refine ⟨x, List.mem_cons_self, ?_⟩
      rcases Except.bind_eq_error.1 hstep with hr | ⟨q, hq, hload⟩
      · exact .inl hr
      · rcases Except.bind_eq_error.1 hload with hg | ⟨p, -, hpure⟩
        · exact .inr ⟨q, hq, hg⟩
        · simp [pure, Except.pure] at hpure
    · obtain ⟨y, hy, hfail⟩ := foldlM_steps_error xs c e hrest
      exact ⟨y, List.mem_cons_of_mem x hy, hfail⟩

end Fold

theorem forall₂_mem_left {α β : Type} {R : α → β → Prop} {xs : List α} {ys : List β}
    (h : List.Forall₂ R xs ys) {x : α} (hx : x ∈ xs) : ∃ y ∈ ys, R x y := by
  induction h with
  | nil => cases hx
  | cons hr _ ih =>
    rcases List.mem_cons.1 hx with rfl | hx
    · exact ⟨_, List.mem_cons_self, hr⟩
    · obtain ⟨y, hy, hxy⟩ := ih hx
      exact ⟨y, List.mem_cons_of_mem _ hy, hxy⟩

theorem forall₂_mem_right {α β : Type} {R : α → β → Prop} {xs : List α} {ys : List β}
    (h : List.Forall₂ R xs ys) {y : β} (hy : y ∈ ys) : ∃ x ∈ xs, R x y := by
  obtain ⟨x, hx, hxy⟩ := forall₂_mem_left h.flip hy
  exact ⟨x, hx, hxy⟩

/-! ## Merged settings -/

/-- The compiler options a project file declares itself; none when it cannot be read or
    declares none. -/
def declaredOptions (fs : FileSystem) (f : Path) : CompilerOptions :=
  match readProjectDocument fs f with
  | .ok doc => doc.options.getD {}
  | .error _ => {}

/-- The last non-empty text of a list, or the empty text when there is none. -/
def lastDeclared (texts : List String) : String :=
  ((texts.filter (!·.isEmpty)).getLast?).getD ""

theorem lastDeclared_append (xs ys : List String) :
    lastDeclared (xs ++ ys) = if (lastDeclared ys).isEmpty then lastDeclared xs else lastDeclared ys := by
  unfold lastDeclared
  rw [List.filter_append, List.getLast?_append]
  cases h : (ys.filter (!·.isEmpty)).getLast? with
  | none => simp
  | some s =>
    have hs : (!s.isEmpty) = true := (List.mem_filter.1 (List.mem_of_getLast? h)).2
    simp only [Bool.not_eq_true'] at hs
    simp [hs]

theorem lastDeclared_singleton (s : String) : lastDeclared [s] = s := by
  unfold lastDeclared
  by_cases hs : s.isEmpty
  · simp [String.isEmpty_iff.1 hs]
  · simp [hs]

/-- Options laid over others: each value the upper ones declare replaces the lower one. -/
def CompilerOptions.lay (lower upper : CompilerOptions) : CompilerOptions where
  baseUrl := if upper.baseUrl.isEmpty then lower.baseUrl else upper.baseUrl
  outDir := if upper.outDir.isEmpty then lower.outDir else upper.outDir
  paths := upper.paths.or lower.paths

/-- The settings of a loaded configuration, as compiler options. -/
def ProjectConfig.options (cfg : ProjectConfig) : CompilerOptions :=
  ⟨cfg.baseUrl, cfg.outDir, cfg.paths⟩

theorem ProjectConfig.overlay_options (cfg : ProjectConfig) (co : CompilerOptions) :
    (cfg.overlay co.baseUrl co.outDir co.paths).options = cfg.options.lay co := by
  cases h : co.paths <;> simp [ProjectConfig.overlay, ProjectConfig.options, CompilerOptions.lay, h]

/-- Options that a list of files declares, the last declaring file winning: `baseUrl` and
    `outDir` from the last file with a non-empty one, `paths` from the last file with one. -/
structure Declares (fs : FileSystem) (co : CompilerOptions) (files : List Path) : Prop where
  baseUrl : co.baseUrl = lastDeclared (files.map fun f => (declaredOptions fs f).baseUrl)
  outDir : co.outDir = lastDeclared (files.map fun f => (declaredOptions fs f).outDir)
  paths : co.paths = (files.filterMap fun f => (declaredOptions fs f).paths).getLast?

namespace Declares

variable {fs : FileSystem}

theorem nil : Declares fs {} [] := ⟨rfl, rfl, rfl⟩

theorem singleton (f : Path) : Declares fs (declaredOptions fs f) [f] where
  baseUrl := (lastDeclared_singleton _).symm
  outDir := (lastDeclared_singleton _).symm
  paths := by simp

/-- Laying the options of later files over those of earlier ones gives the options of all. -/
theorem append {a b : CompilerOptions} {xs ys : List Path} (ha : Declares fs a xs)
    (hb : Declares fs b ys) : Declares fs (a.lay b) (xs ++ ys) where
  baseUrl := by
    rw [List.map_append, lastDeclared_append, ← ha.baseUrl, ← hb.baseUrl]
    rfl
  outDir := by
    rw [List.map_append, lastDeclared_append, ← ha.outDir, ← hb.outDir]
    rfl
  paths := by
    rw [List.filterMap_append, List.getLast?_append, ← ha.paths, ← hb.paths]
    rfl

end Declares

/-- A configuration with a loaded parent laid over it, the parent's files after its own. -/
def ProjectConfig.absorb (cfg parent : ProjectConfig) : ProjectConfig :=
  { cfg.overlay parent.baseUrl parent.outDir parent.paths with files := cfg.files ++ parent.files }

theorem ProjectConfig.foldl_absorb_files :
    ∀ (ps : List ProjectConfig) (init : ProjectConfig),
      (ps.foldl ProjectConfig.absorb init).files = init.files ++ (ps.map (·.files)).flatten
  | [], init => by simp
  | p :: ps, init => by
    rw [List.foldl_cons, ProjectConfig.foldl_absorb_files ps]
    simp [ProjectConfig.absorb]

/-- Parents that each carry the options their files declare, laid in order over a configuration
    that does, give a configuration that does. -/
theorem ProjectConfig.foldl_absorb_declares {fs : FileSystem} :
    ∀ (ps : List ProjectConfig) (init : ProjectConfig),
      (∀ p ∈ ps, Declares fs p.options p.files) → Declares fs init.options init.files →
      Declares fs (ps.foldl ProjectConfig.absorb init).options
        (ps.foldl ProjectConfig.absorb init).files
  | [], _, _, hinit => hinit
  | p :: ps, init, hps, hinit => by
    rw [List.foldl_cons]
    apply ProjectConfig.foldl_absorb_declares ps _ (fun q hq => hps q (List.mem_cons_of_mem p hq))
    have hlay := hinit.append (hps p List.mem_cons_self)
    rwa [← ProjectConfig.overlay_options] at hlay

/-! ## The extends tree -/

/-- The files of the extends tree below a project file, in post-order: the files below each of
    its references, in the order they are written, then the file itself. -/
inductive PostOrder (fs : FileSystem) : Path → List Path → Prop
  | node {path : Path} {doc : ProjectDocument} {parents : List Path} {lists : List (List Path)} :
      readProjectDocument fs path = .ok doc →
      List.Forall₂ (fun ref q => resolveReference fs (Path.dir path) (Bytes.ofString ref) = .ok q)
        doc.parents parents →
      List.Forall₂ (PostOrder fs) parents lists →
      PostOrder fs path (lists.flatten ++ [path])

theorem declaredOptions_of_read {fs : FileSystem} {f : Path} {doc : ProjectDocument}
    (h : readProjectDocument fs f = .ok doc) : declaredOptions fs f = doc.options.getD {} := by
  simp [declaredOptions, h]

/-- A successful load lists the extends tree in post-order, and its settings are those the
    listed files declare, the last declaring file winning. -/
theorem loadProject_ok {fs : FileSystem} (chain : List Path) (path : Path) :
    ∀ cfg, loadProject fs chain path = .ok cfg →
      PostOrder fs path cfg.files ∧ Declares fs cfg.options cfg.files := by
  induction chain, path using loadProject.induct fs with
  | case1 chain path hc =>
    intro cfg h
    rw [loadProject, dif_pos hc] at h
    cases h
  | case2 chain path hc e hdoc =>
    intro cfg h
    rw [loadProject, dif_neg hc] at h
    split at h
    · cases h
    · rename_i doc' hdoc'
      rw [hdoc] at hdoc'
      cases hdoc'
  | case3 chain path hc doc hdoc ih =>
    intro cfg h
    rw [loadProject, dif_neg hc] at h
    split at h
    · rename_i e hdoc'
      rw [hdoc] at hdoc'
      cases hdoc'
    rename_i doc' hdoc'
    rw [hdoc] at hdoc'
    cases hdoc'
    obtain ⟨folded, hfold, hlast⟩ := Except.bind_eq_ok.1 h
    obtain ⟨qs, ps, hqs, hps, rfl⟩ :=
      foldlM_steps_ok (fun ref => resolveReference fs (Path.dir path) (Bytes.ofString ref))
        (loadProject fs (chain ++ [path])) ProjectConfig.absorb doc.parents { path } folded hfold
    -- every parent loaded, so each carries its own post-order and merged options
    have hparents : ∀ q p, loadProject fs (chain ++ [path]) q = .ok p →
        PostOrder fs q p.files ∧ Declares fs p.options p.files := fun q p hp => ih q p hp
    have hlists : List.Forall₂ (PostOrder fs) qs (ps.map (·.files)) :=
      List.forall₂_map_right_iff.2 (hps.imp fun q p hp => (hparents q p hp).1)
    have hmerged : Declares fs (ps.foldl ProjectConfig.absorb { path }).options
        (ps.foldl ProjectConfig.absorb { path }).files := by
      apply ProjectConfig.foldl_absorb_declares ps _ _ Declares.nil
      intro p hp
      obtain ⟨q, -, hq⟩ := forall₂_mem_right hps hp
      exact (hparents q p hq).2
    have hown : Declares fs (doc.options.getD {}) [path] := by
      rw [← declaredOptions_of_read hdoc]
      exact Declares.singleton path
    simp only [pure, Except.pure, Except.ok.injEq] at hlast
    subst hlast
    have hfiles := ProjectConfig.foldl_absorb_files ps { path }
    cases hopt : doc.options with
    | none =>
      refine ⟨?_, ?_⟩
      · simp only [hfiles, List.nil_append]
        exact PostOrder.node hdoc hqs hlists
      · have := hmerged.append (hopt ▸ hown)
        simpa [ProjectConfig.options, CompilerOptions.lay] using this
    | some co =>
      refine ⟨?_, ?_⟩
      · simp only [ProjectConfig.overlay, hfiles, List.nil_append]
        exact PostOrder.node hdoc hqs hlists
      · have := hmerged.append (hopt ▸ hown)
        rw [Option.getD_some, ← ProjectConfig.overlay_options] at this
        exact this

/-- Loading a project file gives its extends tree's files in post-order, and as settings the
    `baseUrl` and `outDir` of the last of them that declares a non-empty one and the `paths` of
    the last of them that declares any. -/
theorem ProjectConfig.load_merge (fs : FileSystem) (path : Bytes) (cfg : ProjectConfig)
    (h : ProjectConfig.load fs path = .ok cfg) :
    PostOrder fs (Path.abs fs.cwd path) cfg.files ∧
      cfg.baseUrl = lastDeclared (cfg.files.map fun f => (declaredOptions fs f).baseUrl) ∧
      cfg.outDir = lastDeclared (cfg.files.map fun f => (declaredOptions fs f).outDir) ∧
      cfg.paths = (cfg.files.filterMap fun f => (declaredOptions fs f).paths).getLast? := by
  obtain ⟨hpost, hdecl⟩ := loadProject_ok [] (Path.abs fs.cwd path) cfg h
  exact ⟨hpost, hdecl.baseUrl, hdecl.outDir, hdecl.paths⟩

/-- A project file that extends a base file beside it: the base declares `baseUrl` and an empty
    `paths`, the project file `outDir`. -/
def twoFileProject : FileSystem where
  cwd := Bytes.ofString "/p"
  nodes := [(Bytes.ofString "/p", .directory),
    (Bytes.ofString "/p/base.json",
      .file ⟨Bytes.ofString "\x7b\"compilerOptions\":\x7b\"baseUrl\":\".\",\"paths\":\x7b\x7d\x7d\x7d", 420⟩),
    (Bytes.ofString "/p/tsconfig.json",
      .file ⟨Bytes.ofString "\x7b\"extends\":\"./base.json\",\"compilerOptions\":\x7b\"outDir\":\"dist\"\x7d\x7d",
        420⟩)]

theorem ProjectConfig.load_merge_twoFiles :
    ProjectConfig.load twoFileProject (Bytes.ofString "tsconfig.json") =
        .ok { path := Bytes.ofString "/p/tsconfig.json", baseUrl := ".", outDir := "dist",
              paths := some [], files := [Bytes.ofString "/p/base.json", Bytes.ofString "/p/tsconfig.json"] } ∧
      PostOrder twoFileProject (Path.abs twoFileProject.cwd (Bytes.ofString "tsconfig.json"))
        [Bytes.ofString "/p/base.json", Bytes.ofString "/p/tsconfig.json"] ∧
      "." = lastDeclared ([Bytes.ofString "/p/base.json", Bytes.ofString "/p/tsconfig.json"].map
        fun f => (declaredOptions twoFileProject f).baseUrl) ∧
      "dist" = lastDeclared ([Bytes.ofString "/p/base.json", Bytes.ofString "/p/tsconfig.json"].map
        fun f => (declaredOptions twoFileProject f).outDir) ∧
      some [] = ([Bytes.ofString "/p/base.json", Bytes.ofString "/p/tsconfig.json"].filterMap
        fun f => (declaredOptions twoFileProject f).paths).getLast? := by
  have hbaseDoc : readProjectDocument twoFileProject (Bytes.ofString "/p/base.json") =
      .ok { options := some { baseUrl := ".", paths := some [] } } :=
    Except.eq_ok_of_toOption (by decide +kernel)
  have hrootDoc : readProjectDocument twoFileProject (Bytes.ofString "/p/tsconfig.json") =
      .ok { parents := ["./base.json"], options := some { outDir := "dist" } } :=
    Except.eq_ok_of_toOption (by decide +kernel)
  have hres : resolveReference twoFileProject (Path.dir (Bytes.ofString "/p/tsconfig.json"))
      (Bytes.ofString "./base.json") = .ok (Bytes.ofString "/p/base.json") :=
    Except.eq_ok_of_toOption (by decide +kernel)
  have habs : Path.abs twoFileProject.cwd (Bytes.ofString "tsconfig.json") =
      Bytes.ofString "/p/tsconfig.json" := by decide +kernel
  -- the base file has no parents, so its walk is one step
  have hbase : loadProject twoFileProject [Bytes.ofString "/p/tsconfig.json"]
      (Bytes.ofString "/p/base.json") =
      .ok { path := Bytes.ofString "/p/base.json", baseUrl := ".", paths := some [],
            files := [Bytes.ofString "/p/base.json"] } := by
    rw [loadProject, dif_neg (by decide +kernel)]
    split
    · rename_i e h
      rw [hbaseDoc] at h
      cases h
    · rename_i doc h
      rw [hbaseDoc] at h
      cases h
      exact Except.eq_ok_of_toOption (by decide +kernel)
  have hload : ProjectConfig.load twoFileProject (Bytes.ofString "tsconfig.json") =
      .ok { path := Bytes.ofString "/p/tsconfig.json", baseUrl := ".", outDir := "dist",
            paths := some [], files := [Bytes.ofString "/p/base.json", Bytes.ofString "/p/tsconfig.json"] } := by
    rw [ProjectConfig.load, habs, loadProject, dif_neg (by decide +kernel)]
    split
    · rename_i e h
      rw [hrootDoc] at h
      cases h
    · rename_i doc h
      rw [hrootDoc] at h
      cases h
      simp only [List.nil_append, List.foldlM_cons, List.foldlM_nil]
      rw [hres, Except.ok_bind, hbase, Except.ok_bind]
      exact Except.eq_ok_of_toOption (by decide +kernel)
  exact ⟨hload, ProjectConfig.load_merge _ _ _ hload⟩

/-! ## Cycles -/

/-- An extends edge: `b` is the file that one of `a`'s references resolves to. -/
def ExtendsEdge (fs : FileSystem) (a b : Path) : Prop :=
  ∃ doc, readProjectDocument fs a = .ok doc ∧
    ∃ ref ∈ doc.parents, resolveReference fs (Path.dir a) (Bytes.ofString ref) = .ok b

/-- Whether a failure reports a circular extends chain: a configuration error whose message
    says so. -/
def Failure.IsCircularExtends : Failure → Bool
  | .tool .config _ message _ => (Bytes.ofString "circular extends: ").isPrefixOf message
  | _ => false

theorem Failure.config_isCircularExtends (path : Bytes) (message : String) (cause : Option Failure) :
    (Failure.config path message cause).IsCircularExtends =
      (Bytes.ofString "circular extends: ").isPrefixOf (Bytes.ofString message) := rfl

theorem readProjectDocument_not_circular {fs : FileSystem} {p : Path} {f : Failure}
    (h : readProjectDocument fs p = .error f) : f.IsCircularExtends = false := by
  unfold readProjectDocument at h
  cases hr : fs.readFile p with
  | error e =>
    simp only [hr] at h
    by_cases he : e = .notFound
    · simp only [he, if_true, Except.error.injEq] at h
      subst h
      rw [Failure.config_isCircularExtends]
      decide +kernel
    · simp only [he, if_false, Except.error.injEq] at h
      subst h
      rw [Failure.config_isCircularExtends]
      decide +kernel
  | ok c =>
    simp only [hr] at h
    split at h
    · cases h
    · cases h
      rw [Failure.config_isCircularExtends]
      decide +kernel

theorem resolveReference_not_circular {fs : FileSystem} {dir ref : Bytes} {f : Failure}
    (h : resolveReference fs dir ref = .error f) : f.IsCircularExtends = false := by
  unfold resolveReference at h
  split at h
  · cases h
    rw [Failure.config_isCircularExtends]
    decide +kernel
  · split at h
    · cases h
    · cases h
      rw [Failure.config_isCircularExtends]
      decide +kernel

/-- A circular failure of the walk below `chain` names the chain followed by a path of extends
    edges from `path` whose last file is met earlier, on the chain or on the path. -/
theorem loadProject_circular {fs : FileSystem} (chain : List Path) (path : Path) :
    ∀ f, loadProject fs chain path = .error f → f.IsCircularExtends = true →
      ∃ ext last, f = Failure.circularExtends (chain ++ ext) ∧ ext.head? = some path ∧
        ext.IsChain (ExtendsEdge fs) ∧ ext.getLast? = some last ∧ last ∈ chain ++ ext.dropLast := by
  induction chain, path using loadProject.induct fs with
  | case1 chain path hc =>
    intro f h _
    rw [loadProject, dif_pos hc] at h
    cases h
    exact ⟨[path], path, rfl, rfl, .singleton path, rfl, by simpa using hc⟩
  | case2 chain path hc e hdoc =>
    intro f h hcirc
    rw [loadProject, dif_neg hc] at h
    split at h
    · rename_i e' hdoc'
      cases h
      rw [hdoc] at hdoc'
      cases hdoc'
      rw [readProjectDocument_not_circular hdoc] at hcirc
      cases hcirc
    · rename_i doc' hdoc'
      rw [hdoc] at hdoc'
      cases hdoc'
  | case3 chain path hc doc hdoc ih =>
    intro f h hcirc
    rw [loadProject, dif_neg hc] at h
    split at h
    · rename_i e hdoc'
      rw [hdoc] at hdoc'
      cases hdoc'
    rename_i doc' hdoc'
    rw [hdoc] at hdoc'
    cases hdoc'
    rcases Except.bind_eq_error.1 h with hfold | ⟨_, -, hlast⟩
    · obtain ⟨ref, href, hres | ⟨q, hq, hload⟩⟩ :=
        foldlM_steps_error (fun ref => resolveReference fs (Path.dir path) (Bytes.ofString ref))
          (loadProject fs (chain ++ [path])) ProjectConfig.absorb doc.parents { path } f hfold
      · rw [resolveReference_not_circular hres] at hcirc
        cases hcirc
      -- the parent's walk failed: its circular path hangs below the edge to it
      obtain ⟨ext, last, rfl, hhead, hchain, hlast, hmem⟩ := ih q f hload hcirc
      obtain ⟨rest, rfl⟩ : ∃ rest, ext = q :: rest := by
        cases ext with
        | nil => cases hhead
        | cons p rest =>
          cases hhead
          exact ⟨rest, rfl⟩
      refine ⟨path :: q :: rest, last, by simp, rfl, .cons_cons ⟨doc, hdoc, ref, href, hq⟩ hchain,
        by simpa using hlast, ?_⟩
      simpa using hmem
    · simp [pure, Except.pure] at hlast

/-- When the walk below a chain of distinct files succeeds, every path of extends edges from
    `path` continues the chain without meeting a file twice. -/
theorem loadProject_nodup {fs : FileSystem} (chain : List Path) (path : Path) :
    ∀ cfg, loadProject fs chain path = .ok cfg → chain.Nodup →
      ∀ ext, ext.head? = some path → ext.IsChain (ExtendsEdge fs) → (chain ++ ext).Nodup := by
  induction chain, path using loadProject.induct fs with
  | case1 chain path hc =>
    intro cfg h
    rw [loadProject, dif_pos hc] at h
    cases h
  | case2 chain path hc e hdoc =>
    intro cfg h
    rw [loadProject, dif_neg hc] at h
    split at h
    · cases h
    · rename_i doc' hdoc'
      rw [hdoc] at hdoc'
      cases hdoc'
  | case3 chain path hc doc hdoc ih =>
    intro cfg h hnodup ext hhead hchain
    rw [loadProject, dif_neg hc] at h
    split at h
    · rename_i e hdoc'
      rw [hdoc] at hdoc'
      cases hdoc'
    rename_i doc' hdoc'
    rw [hdoc] at hdoc'
    cases hdoc'
    obtain ⟨folded, hfold, -⟩ := Except.bind_eq_ok.1 h
    obtain ⟨qs, ps, hqs, hps, -⟩ :=
      foldlM_steps_ok (fun ref => resolveReference fs (Path.dir path) (Bytes.ofString ref))
        (loadProject fs (chain ++ [path])) ProjectConfig.absorb doc.parents { path } folded hfold
    have hnodup' : (chain ++ [path]).Nodup := by
      have hpath : path ∉ chain := by simpa using hc
      rw [List.nodup_append]
      refine ⟨hnodup, List.nodup_cons.2 ⟨List.not_mem_nil, List.nodup_nil⟩, ?_⟩
      intro a ha b hb hab
      rw [List.mem_singleton.1 hb] at hab
      exact hpath (hab ▸ ha)
    match ext, hhead, hchain with
    | [p], hhead, _ =>
      cases hhead
      exact hnodup'
    | p :: q :: rest, hhead, hchain =>
      cases hhead
      obtain ⟨⟨doc', hdoc', ref, href, hq⟩, hrest⟩ := List.isChain_cons_cons.1 hchain
      rw [hdoc] at hdoc'
      cases hdoc'
      -- the edge's reference was resolved by the fold, so the walk went down to `q` and succeeded
      obtain ⟨q', hq', hres⟩ := forall₂_mem_left hqs href
      have hqq : q' = q := by
        rw [hq] at hres
        cases hres
        rfl
      subst hqq
      obtain ⟨p', -, hp'⟩ := forall₂_mem_left hps hq'
      simpa using ih q' p' hp' hnodup' (q' :: rest) rfl hrest

/-- The extends walk reports a circular chain only for a real one: the failure lists a chain that
    starts at the project file, follows extends edges and ends at a file met earlier on it. When
    the walk succeeds, no path of extends edges from the project file meets a file twice. -/
theorem ProjectConfig.load_detects_cycles (fs : FileSystem) (path : Bytes) :
    (∀ f, ProjectConfig.load fs path = .error f → f.IsCircularExtends = true →
      ∃ (chain : List Path) (last : Path), f = Failure.circularExtends chain ∧
        chain.head? = some (Path.abs fs.cwd path) ∧ chain.IsChain (ExtendsEdge fs) ∧
        chain.getLast? = some last ∧ last ∈ chain.dropLast) ∧
    (∀ cfg, ProjectConfig.load fs path = .ok cfg →
      ∀ chain : List Path, chain.head? = some (Path.abs fs.cwd path) →
        chain.IsChain (ExtendsEdge fs) → chain.Nodup) := by
  refine ⟨fun f h hcirc => ?_, fun cfg h chain hhead hchain => ?_⟩
  · obtain ⟨ext, last, hf, hhead, hchain, hlast, hmem⟩ := loadProject_circular [] _ f h hcirc
    exact ⟨ext, last, by simpa using hf, hhead, hchain, hlast, by simpa using hmem⟩
  · simpa using loadProject_nodup [] _ cfg h List.nodup_nil chain hhead hchain

end Unalias
