import Unalias.Proofs.Walk

/-! # Operations on a file system

What each operation does to a tree, stated once so that later proofs never open it: setting or
dropping the entry at a place changes what is found there only (`FileSystem.node?_put`,
`FileSystem.node?_drop`); a write that succeeds puts a file where the path leads, every link
followed (`FileSystem.writeFile_ok`), and a removal that succeeds drops the entry the path names
(`FileSystem.remove_ok`). A path that leads to a regular file is read and written in place
(`FileSystem.writeFile_of_stat_file`).

Actions are followed through their binds and handlers with the `FsAction.run_*` equations.
-/

namespace Unalias

namespace FileSystem

/-- Dropping the entries at one place keeps the first entry found at any other. -/
theorem find?_filter_key {l : List (Path × Node)} {a q : Path} (hqa : q ≠ a) :
    (l.filter (·.1 != a)).find? (·.1 == q) = l.find? (·.1 == q) := by
  rw [List.find?_filter]
  congr 1
  funext x
  by_cases hx : x.1 = q
  · simp [hx, hqa]
  · simp [hx]

theorem find?_filter_self (l : List (Path × Node)) (a : Path) :
    (l.filter (·.1 != a)).find? (·.1 == a) = none := by
  rw [List.find?_eq_none]
  intro x hx
  simp only [List.mem_filter, bne_iff_ne, ne_eq] at hx
  simpa using hx.2

/-- Putting an entry changes what is found at its place only. -/
theorem node?_put {fs : FileSystem} {a : Path} (ha : a ≠ [Path.slash]) (n : Node) (q : Path) :
    (fs.put a n).node? q = if q = a then some n else fs.node? q := by
  unfold node? put
  by_cases hq : q = [Path.slash]
  · rw [if_pos hq, if_pos hq, if_neg (fun (h : q = a) => ha (h ▸ hq))]
  · rw [if_neg hq, if_neg hq, List.find?_append]
    by_cases hqa : q = a
    · subst hqa
      rw [find?_filter_self, if_pos rfl]
      simp
    · rw [if_neg hqa, find?_filter_key hqa]
      cases fs.nodes.find? (·.1 == q) with
      | none => simp [Ne.symm hqa]
      | some x => rfl

/-- Dropping the entries at one place changes what is found there only. -/
theorem node?_drop {fs : FileSystem} {a : Path} (ha : a ≠ [Path.slash]) (q : Path) :
    ({ fs with nodes := fs.nodes.filter (·.1 != a) } : FileSystem).node? q =
      if q = a then none else fs.node? q := by
  unfold node?
  by_cases hq : q = [Path.slash]
  · rw [if_pos hq, if_pos hq, if_neg (fun (h : q = a) => ha (h ▸ hq))]
  · rw [if_neg hq, if_neg hq]
    by_cases hqa : q = a
    · subst hqa
      rw [find?_filter_self, if_pos rfl]
      rfl
    · rw [if_neg hqa, find?_filter_key hqa]

/-- A path that keeps its length when trailing slashes are dropped is the path itself. -/
theorem body_eq_of_length {p : Path}
    (h : ¬((p.reverse.dropWhile (· = Path.slash)).reverse.length < p.length)) :
    (p.reverse.dropWhile (· = Path.slash)).reverse = p := by
  have hsuffix : p.reverse.dropWhile (· = Path.slash) <:+ p.reverse := List.dropWhile_suffix _
  rw [List.length_reverse] at h
  have hlen : (p.reverse.dropWhile (· = Path.slash)).length = p.reverse.length := by
    have := hsuffix.length_le
    simp only [List.length_reverse] at this ⊢
    omega
  rw [hsuffix.eq_of_length hlen, List.reverse_reverse]

/-- A write that succeeds puts a file with the bytes written where the path leads, which is not
    the root. -/
theorem writeFile_ok {fs fs' : FileSystem} {p : Path} {content : Bytes} {perm : Nat}
    (h : fs.writeFile p content perm = .ok fs') :
    fs.spot p ≠ [Path.slash] ∧ ∃ mode, fs' = fs.put (fs.spot p) (.file ⟨content, mode⟩) := by
  unfold writeFile at h
  simp only [bind, Except.bind] at h
  by_cases hslashed : (p.reverse.dropWhile (· = Path.slash)).reverse.length < p.length
  · -- a path ending in a slash names a directory, which is never written
    simp only [hslashed, if_true, and_true] at h
    split at h
    all_goals
      split at h
      · cases h
      · split at h <;> cases h
  · rw [body_eq_of_length hslashed] at h
    simp only [Nat.lt_irrefl, and_false, if_false] at h
    cases hw : fs.resolve p with
    | error e => rw [hw] at h; cases h
    | ok a =>
        rw [hw] at h
        rw [spot_of_resolve hw]
        dsimp only at h
        split at h
        · rename_i f hnode
          refine ⟨fun hroot => ?_, _, (Except.ok.inj h).symm⟩
          rw [hroot] at hnode
          simp [node?] at hnode
        · cases h
        · rename_i hnode
          refine ⟨fun hroot => ?_, _, (Except.ok.inj h).symm⟩
          rw [hroot] at hnode
          simp [node?] at hnode

/-- A removal that succeeds drops the entry the path names, which is not the root. -/
theorem remove_ok {fs fs' : FileSystem} {p a : Path} (hw : fs.walk p = .ok a)
    (h : fs.remove p = .ok fs') :
    a ≠ [Path.slash] ∧ fs' = { fs with nodes := fs.nodes.filter (·.1 != a) } := by
  unfold remove at h
  simp only [hw, bind, Except.bind] at h
  split at h
  · cases h
  · split at h
    · cases h
    · rename_i hroot
      exact ⟨fun h' => hroot (by simp [h']), (Except.ok.inj h).symm⟩
  · rename_i n hkind hnode
    refine ⟨fun hroot => ?_, (Except.ok.inj h).symm⟩
    rw [hroot] at hnode
    simp only [node?, if_true, Option.some.injEq] at hnode
    exact hkind hnode.symm

/-- A path that leads to an entry leads there through the walk, every link followed. -/
theorem resolve_of_stat {fs : FileSystem} {p : Path} {n : Node} (h : fs.stat p = .ok n) :
    fs.resolve p = .ok (fs.spot p) ∧ fs.node? (fs.spot p) = some n := by
  unfold stat at h
  cases hw : fs.resolve p with
  | error e => rw [hw] at h; cases h
  | ok a =>
      rw [hw] at h
      rw [spot_of_resolve hw]
      refine ⟨rfl, ?_⟩
      simp only [bind, Except.bind] at h
      split at h
      · cases h
        assumption
      · cases h

/-- A path that does not end in a slash is its own body once trailing slashes are dropped. -/
theorem body_eq_of_getLast? {p : Path} (hp : p.getLast? ≠ some Path.slash) :
    (p.reverse.dropWhile (· = Path.slash)).reverse = p := by
  cases hr : p.reverse with
  | nil => simp [List.reverse_eq_nil_iff.mp hr]
  | cons x rest =>
      have hx : x ≠ Path.slash := by
        intro hx
        apply hp
        rw [← List.head?_reverse, hr, hx]
        rfl
      rw [List.dropWhile_cons_of_neg (by simpa using hx), ← hr, List.reverse_reverse]

/-- Writing a path that leads to a regular file replaces the file's bytes and keeps its mode. -/
theorem writeFile_of_stat_file {fs : FileSystem} {p : Path} {f : StoredFile}
    (h : fs.stat p = .ok (.file f)) (content : Bytes) (perm : Nat) :
    fs.writeFile p content perm = .ok (fs.put (fs.spot p) (.file ⟨content, f.mode⟩)) := by
  obtain ⟨hwalk, hnode⟩ := resolve_of_stat h
  have hbody : ¬ (p.reverse.dropWhile (· = Path.slash)).reverse.length < p.length := by
    intro hslashed
    obtain ⟨t, rfl⟩ : ∃ t, p = t ++ [Path.slash] := by
      cases hr : p.reverse with
      | nil =>
          rw [List.reverse_eq_nil_iff.mp hr] at hslashed
          simp at hslashed
      | cons x rest =>
          by_cases hx : x = Path.slash
          · exact ⟨rest.reverse, by rw [← List.reverse_reverse p, hr, hx, List.reverse_cons]⟩
          · rw [hr, List.dropWhile_cons_of_neg (by simpa using hx), ← hr,
              List.reverse_reverse] at hslashed
            exact absurd hslashed (Nat.lt_irrefl _)
    rw [resolve_slash_directory hwalk] at hnode
    cases hnode
  unfold writeFile
  rw [body_eq_of_length hbody]
  simp only [lt_self_iff_false, and_false, if_false, bind, Except.bind, hwalk, hnode]

theorem readBytes_of_stat_file {fs : FileSystem} {p : Path} {f : StoredFile}
    (h : fs.stat p = .ok (.file f)) : fs.readBytes p = .ok f.content := by
  rw [readBytes, h]

end FileSystem

namespace FsAction

variable {α β : Type}

/-- The tree an action leaves from `fs`, whether it succeeds or fails. -/
def after (a : FsAction α) (fs : FileSystem) : FileSystem :=
  match a.run fs with
  | .ok _ s => s
  | .error _ s => s

theorem run_bind (x : FsAction α) (f : α → FsAction β) (fs : FileSystem) :
    (x >>= f).run fs = match x.run fs with
      | .ok a s => (f a).run s
      | .error e s => .error e s := by
  show EStateM.bind x f fs = _
  unfold EStateM.bind EStateM.run
  cases x fs <;> rfl

@[simp] theorem run_pure (x : α) (fs : FileSystem) : (Pure.pure x : FsAction α).run fs = .ok x fs :=
  rfl

@[simp] theorem run_pure_bind (x : α) (f : α → FsAction β) (fs : FileSystem) :
    (Pure.pure x >>= f).run fs = (f x).run fs := rfl

@[simp] theorem run_throw (e : Failure) (fs : FileSystem) :
    (MonadExcept.throw e : FsAction α).run fs = .error e fs := rfl

@[simp] theorem run_set (s fs : FileSystem) :
    (MonadStateOf.set s : FsAction PUnit).run fs = .ok PUnit.unit s := rfl

@[simp] theorem run_get_bind (f : FileSystem → FsAction α) (fs : FileSystem) :
    (MonadState.get >>= f).run fs = (f fs).run fs := rfl

theorem run_tryCatch (x : FsAction α) (h : Failure → FsAction α) (fs : FileSystem) :
    (tryCatch x h).run fs = match x.run fs with
      | .ok a s => .ok a s
      | .error e s => (h e).run s := by
  show EStateM.tryCatch x h fs = _
  unfold EStateM.tryCatch EStateM.run
  cases x fs <;> rfl

end FsAction

end Unalias
