import Unalias.Proofs.ProbeCache

/-! # The order of existence checks

Resolving a specifier loops over the candidate directories of the first alias entry its stem
starts, and for each over the module and its extended names, leaving both loops at the first
path that exists. Both loops together are one search along a flat list of probes, each path
with the module it stands for (`probeOrder`): the first hit wins (`Layout.firstModule_eq`).

Run with an existence check that records what it is asked, the search gives the first probe
whose path exists and asks about exactly the paths up to and including it, or about all of them
when none exists (`Layout.firstHit_recording`). So resolution is the documented algorithm,
probes included (`Layout.resolve_eq_reference`). For a table built from declared aliases, whose
stems and candidate directories are never empty, a resolution that changes its specifier has
found a module, and one that found a module was taken by an alias.
-/

namespace Unalias

/-- The paths one module is probed at, each with the module: the module itself, then the module
    with each extension in turn. -/
def moduleProbes (module : Path) : List (Path × Path) :=
  ([] :: moduleExtensions).map fun ext => (module, module ++ ext)

/-- The paths probed for the rest of a specifier, in order, each with the module it stands for:
    for each candidate directory, the directory joined to the rest, as it is and extended. -/
def probeOrder (tail : Bytes) (dirs : List Path) : List (Path × Path) :=
  dirs.flatMap fun dir => moduleProbes (Path.join dir tail)

/-- Resolution as documented, with the paths the existence check is asked about. No stem starts
    the specifier: it is kept and nothing is asked. Else the first entry whose stem starts it is
    taken, the source file is the compiled file moved from the output root to the source root,
    and the probes of the rest of the specifier are tried in order up to the first path that
    exists, whose module becomes the target; when none exists the specifier is kept. -/
def referenceResolve (table : AliasTable) (sourceRoot outputRoot : Path) (exists? : Path → Bool)
    (specifier : Bytes) (outputFile : Path) : Resolution × List Path :=
  match table.find? (·.stem.isPrefixOf specifier) with
  | none => (⟨specifier, specifier, [], [], [], []⟩, [])
  | some e =>
    let sourceFile :=
      ((Path.rel? (Path.clean outputRoot) outputFile).map (Path.join (Path.clean sourceRoot))).getD
        outputFile
    let probes := probeOrder (specifier.drop e.stem.length) e.candidates
    let asked := (probes.take (probes.findIdx (exists? ·.2) + 1)).map Prod.snd
    match probes.find? (exists? ·.2) with
    | some (module, found) =>
      (⟨specifier, relativeSpecifier (Path.dir sourceFile) module, e.stem, module, found,
        sourceFile⟩, asked)
    | none => (⟨specifier, specifier, e.stem, [], [], sourceFile⟩, asked)

namespace Layout

section Search

variable {m : Type → Type} [Monad m] [LawfulMonad m] (exists? : Path → m Bool)

/-- The first probe whose path exists. -/
def firstHit : List (Path × Path) → m (Option (Path × Path))
  | [] => pure none
  | q :: qs => do if ← exists? q.2 then pure (some q) else firstHit qs

theorem firstHit_append (xs ys : List (Path × Path)) :
    firstHit exists? (xs ++ ys) =
      firstHit exists? xs >>= fun r => r.elim (firstHit exists? ys) fun q => pure (some q) := by
  induction xs with
  | nil => simp [firstHit]
  | cons q qs ih =>
    simp only [List.cons_append, firstHit, bind_assoc]
    congr 1
    funext b
    cases b <;> simp [ih]

/-- Probing one module finds what looking it up finds, paired with the module. -/
theorem firstHit_moduleProbes (module : Path) :
    firstHit exists? (moduleProbes module) = Option.map (Prod.mk module) <$> lookup exists? module := by
  unfold moduleProbes lookup
  simp only [List.map_cons, List.append_nil, firstHit, map_bind]
  congr 1
  funext b
  cases b
  case true => simp
  case false =>
    simp only [Bool.false_eq_true, if_false]
    -- the loop over the extensions leaves at the first extended name that exists
    generalize moduleExtensions = exts
    induction exts with
    | nil => simp [firstHit]
    | cons ext exts ih =>
      simp only [List.map_cons, firstHit, List.forIn_cons, bind_assoc, map_bind]
      congr 1
      funext b
      cases b <;> simp [ih]

/-- The two loops of resolution are one search along the probes. -/
theorem firstModule_eq (tail : Bytes) :
    ∀ dirs : List Path, firstModule exists? tail dirs = firstHit exists? (probeOrder tail dirs)
  | [] => rfl
  | dir :: dirs => by
    rw [probeOrder, List.flatMap_cons, firstHit_append, firstHit_moduleProbes, firstModule,
      bind_map_left]
    congr 1
    funext r
    cases r with
    | none => exact firstModule_eq tail dirs
    | some found => rfl

end Search

/-- Run with a recording check, the search gives the first probe whose path exists and records
    the paths up to and including it, all of them when none exists. -/
theorem firstHit_recording (next : Path → Bool) :
    ∀ (ps : List (Path × Path)) (log : List Path),
      (firstHit (recordingCheck next) ps).run log =
        (ps.find? (next ·.2), log ++ (ps.take (ps.findIdx (next ·.2) + 1)).map Prod.snd)
  | [], log => by
    simp only [firstHit, StateT.run_pure, List.find?_nil, List.findIdx_nil, Nat.zero_add,
      List.take_nil, List.map_nil, List.append_nil]
    rfl
  | q :: qs, log => by
    cases h : next q.2
    case true =>
      simp only [firstHit, recordingCheck, h, bind_pure_comp, bind_map_left, ↓reduceIte,
        StateT.run_map, StateT.run_modify, map_pure, List.find?_cons_of_pos, List.findIdx_cons,
        cond_true, Nat.zero_add, List.take_succ_cons, List.take_zero, List.map_cons, List.map_nil]
      rfl
    case false =>
      -- the path is recorded and the search goes on with the rest
      have ih := firstHit_recording next qs (log ++ [q.2])
      simp only [firstHit, recordingCheck, bind_assoc, StateT.run_bind] at ih ⊢
      simp only [StateT.run_modify, h, StateT.run_pure, pure_bind, Bool.false_eq_true,
        ↓reduceIte, ih, List.map_take, List.append_assoc, List.cons_append, List.nil_append,
        not_false_eq_true, List.find?_cons_of_neg, List.findIdx_cons, cond_false,
        List.take_succ_cons, List.map_cons]

/-- Resolution with a check that records what it is asked is the documented algorithm: the
    same resolution, after asking about exactly the documented probes, in order. -/
theorem resolve_recording (table : AliasTable) (sourceRoot outputRoot : Path)
    (exists? : Path → Bool) (specifier : Bytes) (outputFile : Path) :
    ((ofRoots table sourceRoot outputRoot).resolve (recordingCheck exists?) specifier
      outputFile).run [] = referenceResolve table sourceRoot outputRoot exists? specifier outputFile := by
  unfold resolve referenceResolve AliasTable.match?
  dsimp only [ofRoots]
  cases table.find? (·.stem.isPrefixOf specifier) with
  | none => rfl
  | some e =>
    simp only [firstModule_eq, StateT.run_bind, firstHit_recording, sourceOf]
    -- the source file and the first hit decide the answer on both sides
    cases Path.rel? (Path.clean outputRoot) outputFile <;>
      cases (probeOrder (specifier.drop e.stem.length) e.candidates).find? (exists? ·.2) <;> rfl

end Layout

namespace Path

theorem clean_ne_nil (p : Path) : clean p ≠ [] := by
  unfold clean
  split
  · exact List.cons_ne_nil _ _
  · dsimp only
    split
    · exact List.cons_ne_nil _ _
    · split
      · exact List.cons_ne_nil _ _
      · assumption

theorem join_ne_nil {a : Path} (ha : a ≠ []) (b : Path) : join a b ≠ [] := by
  rw [join, if_neg ha]
  exact clean_ne_nil _

end Path

/-- Every module probed for the rest of a specifier is a candidate directory joined to it. -/
theorem mem_probeOrder {tail : Bytes} {dirs : List Path} {q : Path × Path}
    (h : q ∈ probeOrder tail dirs) : ∃ dir ∈ dirs, q.1 = Path.join dir tail := by
  obtain ⟨dir, hdir, hq⟩ := List.mem_flatMap.mp h
  obtain ⟨ext, -, rfl⟩ := List.mem_map.mp hq
  exact ⟨dir, hdir, rfl⟩

/-- Over a table whose stems and candidate directories are never empty, a resolution that
    changes its specifier has found a module, and one that found a module was taken by an
    alias. -/
theorem referenceResolve_flags {table : AliasTable} (hstem : ∀ e ∈ table, e.stem ≠ [])
    (hcand : ∀ e ∈ table, ∀ d ∈ e.candidates, d ≠ []) (sourceRoot outputRoot : Path)
    (exists? : Path → Bool) (specifier : Bytes) (outputFile : Path) :
    ((referenceResolve table sourceRoot outputRoot exists? specifier outputFile).1.Changed = true →
        (referenceResolve table sourceRoot outputRoot exists? specifier outputFile).1.Resolved = true) ∧
      ((referenceResolve table sourceRoot outputRoot exists? specifier outputFile).1.Resolved = true →
        (referenceResolve table sourceRoot outputRoot exists? specifier outputFile).1.Matched = true) := by
  unfold referenceResolve
  cases hentry : table.find? (·.stem.isPrefixOf specifier) with
  | none => simp [Resolution.Changed, Resolution.Resolved]
  | some e =>
    have he : e ∈ table := List.mem_of_find?_eq_some hentry
    dsimp only
    cases hfound : (probeOrder (specifier.drop e.stem.length) e.candidates).find? (exists? ·.2) with
    | none => simp [Resolution.Changed, Resolution.Resolved]
    | some q =>
      -- the module found is a candidate directory joined to the rest, so it is not empty
      obtain ⟨dir, hdir, hmodule⟩ := mem_probeOrder (List.mem_of_find?_eq_some hfound)
      have htarget : q.1 ≠ [] := hmodule ▸ Path.join_ne_nil (hcand e he dir hdir) _
      obtain ⟨module, found⟩ := q
      simp [Resolution.Resolved, Resolution.Matched, htarget, hstem e he]

namespace AliasTable

theorem build_stem_ne_nil (mappings : List PathMapping) (baseDir : Path) :
    ∀ e ∈ build mappings baseDir, e.stem ≠ [] := by
  intro e he
  obtain ⟨m, -, hm⟩ := List.mem_filterMap.mp he
  dsimp only at hm
  split at hm
  · cases hm
  · cases hm
    assumption

theorem build_candidate_ne_nil (mappings : List PathMapping) (baseDir : Path) :
    ∀ e ∈ build mappings baseDir, ∀ d ∈ e.candidates, d ≠ [] := by
  intro e he d hd
  obtain ⟨m, -, hm⟩ := List.mem_filterMap.mp he
  dsimp only at hm
  split at hm
  · cases hm
  · cases hm
    obtain ⟨c, -, rfl⟩ := List.mem_map.mp hd
    exact Path.clean_ne_nil _

end AliasTable

namespace Layout

/-- Resolving a specifier from a compiled file, with any existence check, asks about the module
    and its extended names under each candidate directory of the first entry whose stem starts
    the specifier, in order, up to and including the first that exists, and takes that module,
    without extension, as the target; it keeps the specifier when no stem starts it, asking
    nothing, or when no probe exists. For a table built from declared aliases, a resolution that
    changes its specifier has found a module, and one that found a module was taken by an
    alias. -/
theorem resolve_eq_reference (table : AliasTable) (sourceRoot outputRoot : Path)
    (exists? : Path → Bool) (specifier : Bytes) (outputFile : Path) :
    ((ofRoots table sourceRoot outputRoot).resolve (recordingCheck exists?) specifier
        outputFile).run [] = referenceResolve table sourceRoot outputRoot exists? specifier outputFile ∧
      ∀ (mappings : List PathMapping) (baseDir : Path),
        let r := (((ofRoots (AliasTable.build mappings baseDir) sourceRoot outputRoot).resolve
          (recordingCheck exists?) specifier outputFile).run []).1
        (r.Changed = true → r.Resolved = true) ∧ (r.Resolved = true → r.Matched = true) := by
  refine ⟨resolve_recording table sourceRoot outputRoot exists? specifier outputFile,
    fun mappings baseDir => ?_⟩
  dsimp only
  rw [resolve_recording]
  exact referenceResolve_flags (AliasTable.build_stem_ne_nil mappings baseDir)
    (AliasTable.build_candidate_ne_nil mappings baseDir) sourceRoot outputRoot exists? specifier
    outputFile


end Layout

end Unalias
