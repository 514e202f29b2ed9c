import Unalias.Proofs.RootedPath
import Unalias.Proofs.Idempotence

/-! # The specifier a resolution writes leads to the module

When an alias table is built over an absolute base directory, its candidate directories are
absolute, and so is every module found under them; a compiled file at an absolute path has its
source at an absolute path too. Between such paths the relative path always exists, and joined
to the source's directory it leads back to the module (`Path.join_rel?_rooted`). So the specifier
a resolution writes, joined to the directory of the source file, names the module found
(`Layout.resolve_specifier_reaches_target`).

The specifier starts with a dot, but it is not always relative on its face. It is `.` or `..`,
or starts `./` or `../` (`Path.Explicit`), except when the module lies below the source's
directory and the first name on the way down itself starts with a dot: the relative path
`.hidden/a` already starts with a dot and is written without `./` in front, so it only descends
through names (`Path.Descends`), and a module loader reads it as the name of a package
(`Layout.resolve_hidden_name_unprefixed`).
-/

namespace Unalias

namespace Path

/-- A specifier relative on its face: `.`, `..`, or a path that starts `./` or `../`. -/
def Explicit (r : Bytes) : Prop :=
  r = [dot] ∨ r = parent ∨ [dot, slash] <+: r ∨ [dot, dot, slash] <+: r

instance : DecidablePred Explicit := fun _ => inferInstanceAs (Decidable (_ ∨ _ ∨ _ ∨ _))

/-- A path that only descends: each of its pieces is a name. -/
def Descends (r : Bytes) : Prop := ∀ piece ∈ pieces r, Name piece

instance : DecidablePred Descends := fun r =>
  inferInstanceAs (Decidable (∀ piece ∈ pieces r, Name piece))

example : Explicit (Bytes.ofString "../lib/a") ∧ ¬Explicit (Bytes.ofString ".hidden/a") ∧
    Descends (Bytes.ofString ".hidden/a") := by decide +kernel

theorem dot_slash_eq : Bytes.ofString "./" = [dot, slash] := by decide +kernel

/-- A leading `./` changes nothing where a path is joined to a rooted one. -/
theorem join_dot_slash {bn : List Bytes} (hb : ∀ n ∈ bn, Name n) (r : Path) :
    join (rooted bn) (Bytes.ofString "./" ++ r) = join (rooted bn) r := by
  have hpieces : pieces [dot] = [[dot]] := by decide
  rw [dot_slash_eq, show [dot, slash] ++ r = [dot] ++ slash :: r from rfl, join_rooted hb,
    join_rooted hb, pieces_append_slash, hpieces, List.foldl_append, List.foldl_cons,
    List.foldl_nil, keep_dot]

theorem rel?_rooted_isSome {bn tn : List Bytes} (hb : ∀ n ∈ bn, Name n) (ht : ∀ n ∈ tn, Name n) :
    ∃ rel, rel? (rooted bn) (rooted tn) = some rel := by
  rcases rel?_rooted hb ht with ⟨-, h⟩ | ⟨_, _, _, -, -, h⟩
  · exact ⟨_, h⟩
  · exact ⟨_, h⟩

/-- The specifier written between rooted paths, joined to the base, leads to the target. -/
theorem join_relativeSpecifier_rooted {bn tn : List Bytes} (hb : ∀ n ∈ bn, Name n)
    (ht : ∀ n ∈ tn, Name n) :
    join (rooted bn) (relativeSpecifier (rooted bn) (rooted tn)) = rooted tn := by
  obtain ⟨rel, hrel⟩ := rel?_rooted_isSome hb ht
  unfold relativeSpecifier
  dsimp only
  rw [hrel, Option.getD_some]
  split
  · exact join_rel?_rooted hb ht hrel
  · rw [join_dot_slash hb, join_rel?_rooted hb ht hrel]

/-- A path that climbs at least once is `..` or starts `../`. -/
theorem explicit_climb (rest : List Bytes) : Explicit (unpieces (parent :: rest)) := by
  cases rest with
  | nil => exact Or.inr (Or.inl rfl)
  | cons q qs =>
      refine Or.inr (Or.inr (Or.inr ?_))
      rw [unpieces, List.intercalate_cons_cons]
      exact ⟨_, rfl⟩

/-- The specifier written between rooted paths is relative on its face, or it only descends and
    its first name starts with a dot. -/
theorem relativeSpecifier_rooted_form {bn tn : List Bytes} (hb : ∀ n ∈ bn, Name n)
    (ht : ∀ n ∈ tn, Name n) :
    Explicit (relativeSpecifier (rooted bn) (rooted tn)) ∨
      ((relativeSpecifier (rooted bn) (rooted tn)).head? = some dot ∧
        Descends (relativeSpecifier (rooted bn) (rooted tn))) := by
  unfold relativeSpecifier
  dsimp only
  rcases rel?_rooted hb ht with ⟨-, hdot⟩ | ⟨common, bs, ts, -, rfl, hclimb⟩
  · have hhead : [dot].head? = some dot := rfl
    rw [hdot, Option.getD_some, if_pos hhead]
    exact Or.inl (Or.inl rfl)
  · rw [hclimb, Option.getD_some]
    cases bs with
    | nil =>
        rw [List.length_nil, List.replicate_zero, List.nil_append]
        split
        · -- the path descends through the target's own names, the first of them dotted
          rename_i hhead
          have hne : ts ≠ [] := by
            rintro rfl
            simp [unpieces] at hhead
          have hts : ∀ n ∈ ts, Name n := fun n hn => ht n (List.mem_append_right _ hn)
          refine Or.inr ⟨hhead, ?_⟩
          rw [Descends, pieces_unpieces (fun n hn => (hts n hn).slash_not_mem) hne]
          exact hts
        · rw [dot_slash_eq]
          exact Or.inl (Or.inr (Or.inr (Or.inl ⟨_, rfl⟩)))
    | cons first rest =>
        rw [List.length_cons, List.replicate_succ, List.cons_append]
        have hhead : (unpieces (parent :: (List.replicate rest.length parent ++ ts))).head? =
            some dot := by
          cases List.replicate rest.length parent ++ ts with
          | nil => rfl
          | cons q qs => rw [unpieces, List.intercalate_cons_cons]; rfl
        rw [if_pos hhead]
        exact Or.inl (explicit_climb _)

end Path

/-- Over an absolute base directory, every candidate directory of the table is absolute. -/
theorem AliasTable.build_candidates_abs (mappings : List PathMapping) {baseDir : Path}
    (hbase : Path.IsAbs baseDir = true) :
    ∀ e ∈ AliasTable.build mappings baseDir, ∀ d ∈ e.candidates, Path.IsAbs d = true := by
  intro e he d hd
  obtain ⟨m, -, hm⟩ := List.mem_filterMap.mp he
  dsimp only at hm
  split at hm
  · cases hm
  · cases hm
    obtain ⟨c, -, rfl⟩ := List.mem_map.mp hd
    unfold AliasTable.candidateDir
    apply Path.clean_abs_abs
    split
    · assumption
    · exact Path.join_abs hbase _

namespace Layout

/-- Over an absolute source root, an absolute compiled file has an absolute source. -/
theorem ofRoots_sourceOf_abs (table : AliasTable) {sourceRoot : Path} (outputRoot : Path)
    {outputFile : Path} (hsource : Path.IsAbs sourceRoot = true)
    (hfile : Path.IsAbs outputFile = true) :
    Path.IsAbs ((ofRoots table sourceRoot outputRoot).sourceOf outputFile) = true := by
  unfold sourceOf
  split
  · exact Path.join_abs (Path.clean_abs_abs hsource) _
  · exact hfile

/-- A module found under some candidate directory is that directory joined to the rest of the
    specifier. -/
theorem firstModule_join (tail : Bytes) : ∀ dirs : List Path,
    (firstModule ProbePlan.probe tail dirs).Always fun found =>
      ∀ mf, found = some mf → ∃ dir ∈ dirs, mf.1 = Path.join dir tail
  | [] => ProbePlan.Always.pure fun _ h => nomatch h
  | dir :: dirs => by
      unfold firstModule
      refine ProbePlan.Always.bind (ProbePlan.Always.of_true _) fun found _ => ?_
      cases found with
      | some file =>
          exact ProbePlan.Always.pure fun mf hmf => ⟨dir, List.mem_cons_self, by
            rw [← Option.some_inj.mp hmf]⟩
      | none =>
          refine ProbePlan.Always.imp (fun found h mf hmf => ?_) (firstModule_join tail dirs)
          obtain ⟨d, hd, hjoin⟩ := h mf hmf
          exact ⟨d, List.mem_cons_of_mem _ hd, hjoin⟩

/-- The directory holding an absolute path is a rooted path of names. -/
theorem dir_abs {p : Path} (h : Path.IsAbs p = true) :
    ∃ ns, (∀ n ∈ ns, Path.Name n) ∧ Path.dir p = Path.rooted ns := by
  obtain ⟨x, rfl⟩ := Path.slash_cons_of_abs h
  -- the bytes up to the last slash end with a slash, at worst the leading one
  have hlast : ∃ w, ((Path.slash :: x).reverse.dropWhile (· ≠ Path.slash)) = w ++ [Path.slash] := by
    rw [List.reverse_cons, List.dropWhile_append]
    split
    · exact ⟨[], by simp⟩
    · exact ⟨_, rfl⟩
  obtain ⟨w, hw⟩ := hlast
  apply Path.clean_abs
  rw [hw, List.reverse_append]
  simp [Path.IsAbs]

variable {l : Layout} {specifier : Bytes} {outputFile : Path}

/-- With absolute candidates and an absolute source file, the specifier a resolution writes,
    joined to the source's directory, leads to the module found, and it is relative on its face
    or only descends from a dotted name. -/
theorem resolve_rooted (hcand : ∀ e ∈ l.table, ∀ d ∈ e.candidates, Path.IsAbs d = true)
    (hsource : Path.IsAbs (l.sourceOf outputFile) = true) :
    (l.resolve ProbePlan.probe specifier outputFile).Always fun r => r.Resolved = true →
      Path.join (Path.dir r.sourceFile) r.specifier = r.target ∧
        (Path.Explicit r.specifier ∨
          (r.specifier.head? = some Path.dot ∧ Path.Descends r.specifier)) := by
  unfold resolve
  cases hm : l.table.match? specifier with
  | none => exact ProbePlan.Always.pure (by simp [Resolution.Resolved])
  | some e =>
      have he : e ∈ l.table := List.mem_of_find?_eq_some hm
      refine ProbePlan.Always.bind (firstModule_join _ e.candidates) fun found hfound => ?_
      cases found with
      | none => exact ProbePlan.Always.pure (by simp [Resolution.Resolved])
      | some mf =>
          refine ProbePlan.Always.pure fun _ => ?_
          obtain ⟨d, hd, hmodule⟩ := hfound mf rfl
          obtain ⟨bn, hbn, hdir⟩ := dir_abs hsource
          obtain ⟨tn, htn, hjoin⟩ := Path.join_eq_rooted (hcand e he d hd)
            (specifier.drop e.stem.length)
          have htarget : mf.1 = Path.rooted tn := hmodule.trans hjoin
          show Path.join (Path.dir (l.sourceOf outputFile))
              (relativeSpecifier (Path.dir (l.sourceOf outputFile)) mf.1) = mf.1 ∧ _
          rw [hdir, htarget]
          exact ⟨Path.join_relativeSpecifier_rooted hbn htn,
            Path.relativeSpecifier_rooted_form hbn htn⟩

/-- For a table built over an absolute base directory, an absolute source root and an absolute
    compiled file, the specifier a resolution writes, joined to the directory of the source
    file, names the module found. It is `.` or `..`, or starts `./` or `../`; or else it starts
    with a dot and only descends through names, the first of them dotted. -/
theorem resolve_specifier_reaches_target (mappings : List PathMapping) {baseDir sourceRoot : Path}
    (outputRoot : Path) (exists? : Path → Bool) (specifier : Bytes) {outputFile : Path}
    (hbase : Path.IsAbs baseDir = true) (hsource : Path.IsAbs sourceRoot = true)
    (hfile : Path.IsAbs outputFile = true) {r : Resolution}
    (hr : ((ofRoots (AliasTable.build mappings baseDir) sourceRoot outputRoot).resolve (m := Id)
      (fun p => pure (exists? p)) specifier outputFile).run = r)
    (hresolved : r.Resolved = true) :
    Path.join (Path.dir r.sourceFile) r.specifier = r.target ∧
      (Path.Explicit r.specifier ∨
        (r.specifier.head? = some Path.dot ∧ Path.Descends r.specifier)) := by
  rw [← hr, resolve_pure] at hresolved ⊢
  exact (resolve_rooted (AliasTable.build_candidates_abs mappings hbase)
    (ofRoots_sourceOf_abs _ outputRoot hsource hfile)).eval exists? hresolved

theorem resolve_specifier_reaches_target_of_climb :
    Path.IsAbs (Bytes.ofString "/proj") = true ∧ Path.IsAbs (Bytes.ofString "/proj/src") = true ∧
      Path.IsAbs (Bytes.ofString "/proj/dist/q/i.js") = true ∧
      ((ofRoots (AliasTable.build [⟨"@/*", some ["src/*"]⟩] (Bytes.ofString "/proj"))
          (Bytes.ofString "/proj/src") (Bytes.ofString "/proj/dist")).resolve (m := Id)
          (fun p => pure (p == Bytes.ofString "/proj/src/lib/a.ts")) (Bytes.ofString "@/lib/a")
          (Bytes.ofString "/proj/dist/q/i.js")).run =
        { requested := Bytes.ofString "@/lib/a", specifier := Bytes.ofString "../lib/a",
          stem := Bytes.ofString "@/", target := Bytes.ofString "/proj/src/lib/a",
          found := Bytes.ofString "/proj/src/lib/a.ts",
          sourceFile := Bytes.ofString "/proj/src/q/i.js" } ∧
      Path.join (Path.dir (Bytes.ofString "/proj/src/q/i.js")) (Bytes.ofString "../lib/a") =
          Bytes.ofString "/proj/src/lib/a" ∧
        (Path.Explicit (Bytes.ofString "../lib/a") ∨
          ((Bytes.ofString "../lib/a").head? = some Path.dot ∧
            Path.Descends (Bytes.ofString "../lib/a"))) := by
  refine ⟨?hbase, ?hsource, ?hfile, ?hr, resolve_specifier_reaches_target _ _ _ _ ?hbase ?hsource
    ?hfile ?hr (by decide +kernel)⟩ <;> decide +kernel

/-- A module below the source's directory whose first name starts with a dot is written without
    a leading `./`: the specifier is not relative on its face. -/
theorem resolve_hidden_name_unprefixed :
    ((ofRoots (AliasTable.build [⟨"@/*", some ["src/*"]⟩] (Bytes.ofString "/proj"))
        (Bytes.ofString "/proj/src") (Bytes.ofString "/proj/dist")).resolve (m := Id)
        (fun p => pure (p == Bytes.ofString "/proj/src/.hidden/a.ts"))
        (Bytes.ofString "@/.hidden/a") (Bytes.ofString "/proj/dist/i.js")).run =
      { requested := Bytes.ofString "@/.hidden/a", specifier := Bytes.ofString ".hidden/a",
        stem := Bytes.ofString "@/", target := Bytes.ofString "/proj/src/.hidden/a",
        found := Bytes.ofString "/proj/src/.hidden/a.ts",
        sourceFile := Bytes.ofString "/proj/src/i.js" } ∧
      ¬Path.Explicit (Bytes.ofString ".hidden/a") := by
  decide +kernel

end Layout

end Unalias
