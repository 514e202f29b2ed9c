import Unalias.Proofs.FileOps

/-! # Calls that see the same in two trees

A call looks at a tree through the walks of its paths and the entries those walks end at, and it
changes entries at those ends only. Two trees that agree on the walks and on the entries at their
ends give a call the same answer, and the call sets the same entries in both
(`FileSystem.SameCall`, with the changes as `FileSystem.Changes`). This holds of every call a job
makes: reading, writing, making a file where nothing is, setting permissions, renaming and
removing.

In one tree, a write, a change of permissions and a rename that succeed carry a file's bytes from
the place written to the end of the rename (`FileSystem.writeFile_content`,
`FileSystem.chmod_content`, `FileSystem.rename_content`), and a removal leaves every other place
(`FileSystem.remove_keeps`).
-/

namespace Unalias

namespace FileSystem

/-- `fs'` is `fs` with the entries at the places `S` set to `v`. -/
structure Changes (fs fs' : FileSystem) (S : Path → Prop) (v : Path → Option Node) : Prop where
  cwd : fs'.cwd = fs.cwd
  inside : ∀ a, S a → fs'.node? a = v a
  outside : ∀ a, ¬ S a → fs'.node? a = fs.node? a

namespace Changes

variable {fs : FileSystem}

theorem none (fs : FileSystem) : Changes fs fs (fun _ => False) fun _ => .none :=
  ⟨rfl, fun _ h => h.elim, fun _ _ => rfl⟩

theorem put {a : Path} (ha : a ≠ [Path.slash]) (n : Node) :
    Changes fs (fs.put a n) (· = a) fun _ => some n where
  cwd := rfl
  inside q hq := by rw [node?_put ha, if_pos hq]
  outside q hq := by rw [node?_put ha, if_neg hq]

theorem drop {a : Path} (ha : a ≠ [Path.slash]) :
    Changes fs { fs with nodes := fs.nodes.filter (·.1 != a) } (· = a) fun _ => .none where
  cwd := rfl
  inside q hq := by rw [node?_drop ha, if_pos hq]
  outside q hq := by rw [node?_drop ha, if_neg hq]

/-- Moving an entry from `a` to `b` leaves nothing at `a` and the entry at `b`. -/
theorem move {a b : Path} (ha : a ≠ [Path.slash]) (hb : b ≠ [Path.slash]) (n : Node) :
    Changes fs (({ fs with nodes := fs.nodes.filter (·.1 != a) } : FileSystem).put b n)
      (fun q => q = a ∨ q = b) fun q => if q = b then some n else .none where
  cwd := rfl
  inside q hq := by
    rw [node?_put hb]
    split
    · rfl
    · rename_i hqb
      rw [node?_drop ha, if_pos (hq.resolve_right hqb)]
  outside q hq := by
    rw [not_or] at hq
    rw [node?_put hb, if_neg hq.2, node?_drop ha, if_neg hq.1]

end Changes

/-- A call that gives the same answer in two trees and sets the same entries in both, each one
    allowed by `ok`. -/
structure SameCall {β : Type} (c : Call β) (fs₁ fs₂ : FileSystem)
    (ok : Path → Option Node → Prop) : Prop where
  answer : (c fs₁).1 = (c fs₂).1
  change : ∃ S v, (∀ a, S a → ok a (v a)) ∧ Changes fs₁ (c fs₁).2 S v ∧ Changes fs₂ (c fs₂).2 S v

section Same

variable {fs₁ fs₂ : FileSystem} {ok : Path → Option Node → Prop}

/-- A call that changes nothing and answers alike. -/
theorem SameCall.of_answer {β : Type} {c : Call β} (h1 : (c fs₁).2 = fs₁) (h2 : (c fs₂).2 = fs₂)
    (hanswer : (c fs₁).1 = (c fs₂).1) : SameCall c fs₁ fs₂ ok :=
  ⟨hanswer, fun _ => False, fun _ => .none, fun _ h => h.elim, by rw [h1]; exact Changes.none _,
    by rw [h2]; exact Changes.none _⟩

theorem SameCall.imp {β : Type} {c : Call β} {ok' : Path → Option Node → Prop}
    (h : SameCall c fs₁ fs₂ ok) (himp : ∀ a o, ok a o → ok' a o) : SameCall c fs₁ fs₂ ok' := by
  obtain ⟨hanswer, S, v, hok, h1, h2⟩ := h
  exact ⟨hanswer, S, v, fun a ha => himp a _ (hok a ha), h1, h2⟩

/-- A change that fails in both trees with one error, or succeeds in both with the same entries
    set, makes the same call. -/
theorem SameCall.change_of {op : FileSystem → Except FsError FileSystem}
    (h : (∃ e, op fs₁ = .error e ∧ op fs₂ = .error e) ∨
      ∃ fs₁' fs₂' S v, op fs₁ = .ok fs₁' ∧ op fs₂ = .ok fs₂' ∧ (∀ a, S a → ok a (v a)) ∧
        Changes fs₁ fs₁' S v ∧ Changes fs₂ fs₂' S v) :
    SameCall (Call.change op) fs₁ fs₂ ok := by
  rcases h with ⟨e, h1, h2⟩ | ⟨fs₁', fs₂', S, v, h1, h2, hok, hc1, hc2⟩
  · exact SameCall.of_answer (by simp [Call.change, h1]) (by simp [Call.change, h2])
      (by simp [Call.change, h1, h2])
  · exact ⟨by simp [Call.change, h1, h2], S, v, hok, by simpa [Call.change, h1] using hc1,
      by simpa [Call.change, h2] using hc2⟩

variable {p : Path}

/-- What a path leads to is the same in two trees that agree on its walk and on its end. -/
theorem stat_same (hw : fs₁.resolve p = fs₂.resolve p)
    (hn : ∀ a, fs₁.resolve p = .ok a → fs₁.node? a = fs₂.node? a) : fs₁.stat p = fs₂.stat p := by
  unfold stat
  rw [← hw]
  cases hr : fs₁.resolve p with
  | error e => rfl
  | ok a => simp only [bind, Except.bind, hn a hr]

theorem readFile_same (hw : fs₁.resolve p = fs₂.resolve p)
    (hn : ∀ a, fs₁.resolve p = .ok a → fs₁.node? a = fs₂.node? a) :
    fs₁.readFile p = fs₂.readFile p := by
  rw [readFile, readFile, stat_same hw hn]

theorem readBytes_same (hw : fs₁.resolve p = fs₂.resolve p)
    (hn : ∀ a, fs₁.resolve p = .ok a → fs₁.node? a = fs₂.node? a) :
    fs₁.readBytes p = fs₂.readBytes p := by
  rw [readBytes, readBytes, stat_same hw hn]

/-- Nothing but the root is found at the root. -/
theorem ne_root_of_node? {a : Path} {n : Node} (h : fs₁.node? a = some n) (hn : n ≠ .directory) :
    a ≠ [Path.slash] := by
  rintro rfl
  simp [node?] at h
  exact hn h.symm

theorem ne_root_of_none {a : Path} (h : fs₁.node? a = .none) : a ≠ [Path.slash] := by
  rintro rfl
  simp [node?] at h

/-- A write to a path that does not end in a slash, in two trees that agree on where it leads
    and on what is there, puts the same file at that place. -/
theorem writeFile_same (hp : p.getLast? ≠ some Path.slash) (content : Bytes) (perm : Nat)
    (hw : fs₁.resolve p = fs₂.resolve p)
    (hn : ∀ a, fs₁.resolve p = .ok a → fs₁.node? a = fs₂.node? a) :
    SameCall (Call.writeFile p content perm) fs₁ fs₂
      fun a o => fs₁.resolve p = .ok a ∧ ∃ f, o = some (.file f) := by
  apply SameCall.change_of
  unfold writeFile
  simp only [body_eq_of_getLast? hp, lt_self_iff_false, and_false, if_false, bind, Except.bind, ← hw]
  cases hr : fs₁.resolve p with
  | error e => exact .inl ⟨e, rfl, rfl⟩
  | ok a =>
      dsimp only
      rw [← hn a hr]
      cases hnode : fs₁.node? a with
      | none =>
          exact .inr ⟨_, _, (· = a), _, rfl, rfl, fun q hq => ⟨by rw [hq], _, rfl⟩,
            Changes.put (ne_root_of_none hnode) _, Changes.put (ne_root_of_none hnode) _⟩
      | some n =>
          cases n with
          | file f =>
              have ha := ne_root_of_node? hnode (by simp)
              exact .inr ⟨_, _, (· = a), _, rfl, rfl, fun q hq => ⟨by rw [hq], _, rfl⟩,
                Changes.put ha _, Changes.put ha _⟩
          | directory => exact .inl ⟨_, rfl, rfl⟩
          | symlink t => exact .inl ⟨_, rfl, rfl⟩

/-- Making a file where nothing is, in two trees that agree on where the path leads and on what
    is there, puts the same empty file in both. -/
theorem createExclusive_same (perm : Nat) (hw : fs₁.walk p = fs₂.walk p)
    (hn : ∀ a, fs₁.walk p = .ok a → fs₁.node? a = fs₂.node? a) :
    SameCall (Call.createExclusive p perm) fs₁ fs₂
      fun a o => fs₁.walk p = .ok a ∧ ∃ f, o = some (.file f) := by
  apply SameCall.change_of
  unfold createExclusive
  simp only [bind, Except.bind, ← hw]
  cases hr : fs₁.walk p with
  | error e => exact .inl ⟨e, rfl, rfl⟩
  | ok a =>
      dsimp only
      rw [← hn a hr]
      cases hnode : fs₁.node? a with
      | none =>
          exact .inr ⟨_, _, (· = a), _, rfl, rfl, fun q hq => ⟨by rw [hq], _, rfl⟩,
            Changes.put (ne_root_of_none hnode) _, Changes.put (ne_root_of_none hnode) _⟩
      | some n => exact .inl ⟨_, rfl, rfl⟩

/-- Setting permissions, in two trees that agree on where the path leads and on what is there,
    changes the same file in both. -/
theorem chmod_same (mode : Nat) (hw : fs₁.resolve p = fs₂.resolve p)
    (hn : ∀ a, fs₁.resolve p = .ok a → fs₁.node? a = fs₂.node? a) :
    SameCall (Call.chmod p mode) fs₁ fs₂
      fun a o => fs₁.resolve p = .ok a ∧ ∃ f, o = some (.file f) := by
  apply SameCall.change_of
  unfold chmod
  simp only [bind, Except.bind, ← hw]
  cases hr : fs₁.resolve p with
  | error e => exact .inl ⟨e, rfl, rfl⟩
  | ok a =>
      dsimp only
      rw [← hn a hr]
      cases hnode : fs₁.node? a with
      | none => exact .inl ⟨_, rfl, rfl⟩
      | some n =>
          cases n with
          | file f =>
              have ha := ne_root_of_node? hnode (by simp)
              exact .inr ⟨_, _, (· = a), _, rfl, rfl, fun q hq => ⟨by rw [hq], _, rfl⟩,
                Changes.put ha _, Changes.put ha _⟩
          | directory => exact .inr ⟨_, _, _, _, rfl, rfl, fun _ h => h.elim, Changes.none _,
              Changes.none _⟩
          | symlink t => exact .inr ⟨_, _, _, _, rfl, rfl, fun _ h => h.elim, Changes.none _,
              Changes.none _⟩

/-- Removing what a path names, where no directory is, in two trees that agree on where the path
    leads and on what is there, drops the same entry from both. -/
theorem remove_same (hw : fs₁.walk p = fs₂.walk p)
    (hn : ∀ a, fs₁.walk p = .ok a → fs₁.node? a = fs₂.node? a)
    (hdir : ∀ a, fs₁.walk p = .ok a → fs₁.node? a ≠ some .directory) :
    SameCall (Call.remove p) fs₁ fs₂ fun a o => fs₁.walk p = .ok a ∧ o = .none := by
  apply SameCall.change_of
  unfold remove
  simp only [bind, Except.bind, ← hw]
  cases hr : fs₁.walk p with
  | error e => exact .inl ⟨e, rfl, rfl⟩
  | ok a =>
      dsimp only
      rw [← hn a hr]
      cases hnode : fs₁.node? a with
      | none => exact .inl ⟨_, rfl, rfl⟩
      | some n =>
          have ha := ne_root_of_node? hnode fun h => hdir a hr (h ▸ hnode)
          cases n with
          | directory => exact absurd hnode (hdir a hr)
          | file f =>
              exact .inr ⟨_, _, (· = a), _, rfl, rfl, fun q hq => ⟨by rw [hq], rfl⟩,
                Changes.drop ha, Changes.drop ha⟩
          | symlink t =>
              exact .inr ⟨_, _, (· = a), _, rfl, rfl, fun q hq => ⟨by rw [hq], rfl⟩,
                Changes.drop ha, Changes.drop ha⟩

/-- What a rename between two places does, from what is at them. -/
theorem rename_eq {fs : FileSystem} {src dst a b : Path} (hs : fs.walk src = .ok a)
    (hd : fs.walk dst = .ok b) :
    fs.rename src dst =
      match fs.node? a with
      | .none => .error .notFound
      | some n =>
        if n = .directory ∨ fs.node? b = some .directory then .error .isDirectory
        else if a = b then .ok fs
        else .ok (({ fs with nodes := fs.nodes.filter (·.1 != a) } : FileSystem).put b n) := by
  unfold rename
  simp only [hs, hd, bind, Except.bind]
  cases fs.node? a with
  | none => rfl
  | some n =>
      cases n with
      | directory => simp
      | file f => cases fs.node? b with
        | none => rfl
        | some m => cases m <;> simp
      | symlink t => cases fs.node? b with
        | none => rfl
        | some m => cases m <;> simp

/-- Renaming, in two trees that agree on where both paths lead and on what is at both ends,
    moves the same entry in both. -/
theorem rename_same {src dst : Path} (hws : fs₁.walk src = fs₂.walk src)
    (hwd : fs₁.walk dst = fs₂.walk dst)
    (hns : ∀ a, fs₁.walk src = .ok a → fs₁.node? a = fs₂.node? a)
    (hnd : ∀ b, fs₁.walk dst = .ok b → fs₁.node? b = fs₂.node? b) :
    SameCall (Call.rename src dst) fs₁ fs₂ fun q o =>
      (fs₁.walk src = .ok q ∧ o = .none) ∨
      (fs₁.walk dst = .ok q ∧ ∃ a n, fs₁.walk src = .ok a ∧ fs₁.node? a = some n ∧ o = some n) := by
  apply SameCall.change_of
  cases hs : fs₁.walk src with
  | error e => exact .inl ⟨e, by simp [rename, hs, bind, Except.bind],
      by simp [rename, ← hws, hs, bind, Except.bind]⟩
  | ok a =>
      cases hd : fs₁.walk dst with
      | error e => exact .inl ⟨e, by simp [rename, hs, hd, bind, Except.bind],
          by simp [rename, ← hws, ← hwd, hs, hd, bind, Except.bind]⟩
      | ok b =>
          rw [rename_eq hs hd, rename_eq (hws ▸ hs) (hwd ▸ hd), ← hns a hs, ← hnd b hd]
          cases hna : fs₁.node? a with
          | none => exact .inl ⟨_, rfl, rfl⟩
          | some n =>
              dsimp only
              split_ifs with hdir hab
              · exact .inl ⟨_, rfl, rfl⟩
              · exact .inr ⟨_, _, _, _, rfl, rfl, fun _ h => h.elim, Changes.none _, Changes.none _⟩
              · rw [not_or] at hdir
                have ha := ne_root_of_node? hna hdir.1
                have hb : b ≠ [Path.slash] := fun h => hdir.2 (by rw [h]; simp [node?])
                refine .inr ⟨_, _, _, _, rfl, rfl, fun q hq => ?_, Changes.move ha hb n,
                  Changes.move ha hb n⟩
                by_cases hqb : q = b
                · rw [if_pos hqb]
                  exact .inr ⟨by rw [hqb], a, n, rfl, hna, rfl⟩
                · rw [if_neg hqb]
                  exact .inl ⟨by rw [hq.resolve_right hqb], rfl⟩

end Same

/-! What one call leaves in one tree, for the calls that replace a file's content. -/

section Ends

variable {fs fs' : FileSystem} {p : Path}

/-- A write that succeeds, to a path that does not end in a slash, leaves a file with the bytes
    written where the path leads. -/
theorem writeFile_content (hp : p.getLast? ≠ some Path.slash) {content : Bytes} {perm : Nat}
    (h : fs.writeFile p content perm = .ok fs') :
    ∃ a, fs.resolve p = .ok a ∧ ∃ mode, fs'.node? a = some (.file ⟨content, mode⟩) := by
  have hr : fs.resolve p = .ok (fs.spot p) := by
    cases hr : fs.resolve p with
    | ok a => rw [spot_of_resolve hr]
    | error e =>
        unfold writeFile at h
        simp only [body_eq_of_getLast? hp, lt_self_iff_false, and_false, if_false, bind,
          Except.bind, hr] at h
        cases h
  obtain ⟨hroot, mode, rfl⟩ := writeFile_ok h
  exact ⟨_, hr, mode, by rw [node?_put hroot, if_pos rfl]⟩

/-- Setting the permissions of a regular file keeps its bytes. -/
theorem chmod_content {mode : Nat} (h : fs.chmod p mode = .ok fs') {a : Path} (hr : fs.resolve p = .ok a)
    {f : StoredFile} (hf : fs.node? a = some (.file f)) :
    fs'.node? a = some (.file { f with mode := mode &&& 0o7777 }) := by
  unfold chmod at h
  simp only [hr, hf, bind, Except.bind, Except.ok.injEq] at h
  subst h
  rw [node?_put (ne_root_of_node? hf (by simp)), if_pos rfl]

/-- A rename that succeeds leaves at the end of its second path what was at the end of its
    first. -/
theorem rename_content {src dst a q : Path} (hs : fs.walk src = .ok a) (hd : fs.walk dst = .ok q)
    (h : fs.rename src dst = .ok fs') {n : Node} (hn : fs.node? a = some n) :
    fs'.node? q = some n := by
  rw [rename_eq hs hd, hn] at h
  dsimp only at h
  split_ifs at h with hdir haq
  · cases h
    rw [← haq, hn]
  · cases h
    rw [not_or] at hdir
    have hq : q ≠ [Path.slash] := fun hq => hdir.2 (by rw [hq]; simp [node?])
    rw [node?_put hq, if_pos rfl]

/-- A removal leaves every place but the one its path names as it was. -/
theorem remove_keeps {a q : Path} (hw : fs.walk p = .ok a) (hq : q ≠ a) :
    (Call.remove p fs).2.node? q = fs.node? q := by
  unfold Call.remove Call.change
  split
  · rename_i fs' h
    obtain ⟨ha, rfl⟩ := remove_ok hw h
    rw [node?_drop ha, if_neg hq]
  · rfl

end Ends

end FileSystem

end Unalias
