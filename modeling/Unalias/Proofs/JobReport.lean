import Mathlib
import Unalias.Proofs.JobAlone

/-! # What a job reports, and what it leaves

Whatever the calls do, a job reports its own number, its file and the outcome it made of the
file; it reports a write only of new content in a run that writes, and such content it writes
or reports a failure (`Batch.Reports`, from `Batch.commit_reports` for any monad).

Run alone on the starting tree (`Batch.Setup.alone`), a job that reports a write leaves its new
content at the place its file leads to (`Batch.Setup.alone_written`). The calls on the way are
read off the run (`Batch.replaceContent_ok`), and the trees they pass through are trees of the
job alone (`Batch.Setup.Local.track`), where the walks of its paths are those of the starting
tree.
-/

namespace Unalias

namespace Batch

open FileSystem Prog

section Results

/-- The outcome `o` of a file is new content that a run with settings `s` writes. -/
def Rewrites (s : BatchSettings) (o : Option FileOutcome) : Prop :=
  s.dryRun = false ∧ ∃ x, o = some x ∧ x.error = none ∧ x.modified = true ∧ x.content.isSome = true

/-- What job `i` on `file` reports when it made the outcome `o` of its file (none when it could
    not read it). -/
structure Reports (s : BatchSettings) (i : Nat) (file : Path) (o : Option FileOutcome)
    (r : JobResult) : Prop where
  index : r.index = i
  filePath : r.filePath = file
  outcome : r.outcome = o
  written : r.written = true → Rewrites s o
  writes : Rewrites s o → r.written = true ∨ r.error.isSome = true

variable {m : Type → Type} [Monad m] [LawfulMonad m] (sys : Syscalls m)

theorem commit_reports (s : BatchSettings) (naming : Naming) (cwd : Path) (i : Nat) (file : Path)
    (o : FileOutcome) : SatisfiesM (Reports s i file (some o)) (commit sys s naming cwd i file o) := by
  unfold commit
  split
  · exact SatisfiesM.pure ⟨rfl, rfl, rfl, by simp, by simp [Rewrites, *]⟩
  · exact SatisfiesM.pure ⟨rfl, rfl, rfl, by simp, by simp [Rewrites, *]⟩
  · split_ifs with hskip
    · exact SatisfiesM.pure ⟨rfl, rfl, rfl, by simp, fun ⟨hd, _, hx, _, hm, _⟩ => by
        cases hx
        simp [hm, hd] at hskip⟩
    -- past the backup and the replacement, every result but the last reports a failure
    refine SatisfiesM.bind SatisfiesM.trivial fun r _ => ?_
    split
    · exact SatisfiesM.pure ⟨rfl, rfl, rfl, by simp, by simp⟩
    refine SatisfiesM.bind SatisfiesM.trivial fun r _ => ?_
    split
    · exact SatisfiesM.pure ⟨rfl, rfl, rfl, fun _ => ⟨by simp_all, o, rfl, by simp_all⟩, by simp⟩
    · dsimp only
      split
      · exact SatisfiesM.bind SatisfiesM.trivial fun _ _ =>
          SatisfiesM.pure ⟨rfl, rfl, rfl, by simp, by simp⟩
      · exact SatisfiesM.pure ⟨rfl, rfl, rfl, by simp, by simp⟩

end Results

section Alone

variable {ε τ α β : Type}

theorem ok_of_bind {x : ExceptT ε (StateM τ) α} {f : α → ExceptT ε (StateM τ) β} {t t'' : τ}
    {v : β} (h : (x >>= f).run.run t = (.ok v, t'')) :
    ∃ a t', x.run.run t = (.ok a, t') ∧ (f a).run.run t' = (.ok v, t'') := by
  rw [ExceptT.run_bind, StateT.run_bind] at h
  cases hx : x.run.run t with
  | mk r t' =>
    rw [hx, id_bind] at h
    cases r with
    | ok a => exact ⟨a, t', rfl, h⟩
    | error e => cases h

theorem not_ok_throw_bind {e : ε} {f : α → ExceptT ε (StateM τ) β} {t t' : τ} {v : β} :
    (throw e >>= f : ExceptT ε (StateM τ) β).run.run t ≠ (.ok v, t') := fun h => by
  obtain ⟨_, _, h, _⟩ := ok_of_bind h
  cases h

theorem call_run {c : Call α} (t : FileSystem) : (Syscalls.alone.call c).run t = c t := rfl

theorem liftCall_run {c : Call α} (t : FileSystem) :
    (Syscalls.alone.lift.call c : ExceptT ε (StateM FileSystem) α).run.run t =
      (.ok (c t).1, (c t).2) := rfl

theorem change_ok {op : FileSystem → Except FsError FileSystem} {t : FileSystem}
    (hr : ∀ e, (Call.change op t).1 ≠ .error e) : op t = .ok (Call.change op t).2 := by
  unfold Call.change at *
  split
  · assumption
  · rename_i e he
    rw [he] at hr
    exact absurd rfl (hr e)

theorem change_run {op : FileSystem → Except FsError FileSystem} {t t' : FileSystem}
    (h : op t = .ok t') : (Call.change op t).2 = t' := by
  rw [Call.change, h]

theorem thenAlways_ok {x : ExceptT Failure (StateM τ) α} {last : StateM τ Unit} {t t'' : τ} {v : α}
    (h : (thenAlways x last).run.run t = (.ok v, t'')) :
    ∃ t', x.run.run t = (.ok v, t') ∧ (last.run t').2 = t'' := by
  unfold thenAlways at h
  rw [ExceptT.run_mk, StateT.run_bind] at h
  cases hx : x.run.run t with
  | mk r t' =>
    rw [hx, id_bind, StateT.run_bind] at h
    cases h
    exact ⟨t', rfl, rfl⟩

/-- The calls of a replacement that succeeds alone, in order: the file looked up, the temporary
    file made, the content written to it, its permissions set and its renaming over the file; the
    removal of the temporary file ends it. -/
theorem replaceContent_ok {random : Nat → UInt32} {cwd file : Path} {content : Bytes}
    {t t' : FileSystem}
    (hrun : (replaceContent Syscalls.alone random cwd file content).run.run t = (.ok (), t')) :
    ∃ n temp t2 t3 t4 t5, t.stat file = .ok n ∧
      (createTemp Syscalls.alone file random tempTries 0).run.run t = (.ok temp, t2) ∧
      t2.writeFile temp content 0o600 = .ok t3 ∧ t3.chmod temp (permissions n &&& 0o777) = .ok t4 ∧
      t4.rename temp file = .ok t5 ∧ (Call.remove temp t5).2 = t' := by
  unfold replaceContent at hrun
  obtain ⟨r, t1, hstat, hrun⟩ := ok_of_bind hrun
  rw [liftCall_run] at hstat
  cases hstat
  dsimp only at hrun
  split at hrun
  case h_2 => exact absurd hrun not_ok_throw_bind
  rename_i n hn
  rw [pure_bind] at hrun
  obtain ⟨temp, t2, htemp, hrun⟩ := ok_of_bind hrun
  obtain ⟨t5, hrun, hlast⟩ := thenAlways_ok hrun
  -- each call goes on only when it went well
  obtain ⟨r, t3, hwrite, hrun⟩ := ok_of_bind hrun
  rw [liftCall_run] at hwrite
  cases hwrite
  split at hrun
  · exact absurd hrun not_ok_throw_bind
  rename_i hw
  obtain ⟨r, t4, hchmod, hrun⟩ := ok_of_bind hrun
  rw [liftCall_run] at hchmod
  cases hchmod
  split at hrun
  · exact absurd hrun not_ok_throw_bind
  rename_i hc
  obtain ⟨r, t5', hrename, hrun⟩ := ok_of_bind hrun
  rw [liftCall_run] at hrename
  cases hrename
  split at hrun
  · cases hrun
  rename_i hr
  cases hrun
  have h3 : t2.writeFile temp content 0o600 = .ok (Call.writeFile temp content 0o600 t2).2 :=
    change_ok hw
  exact ⟨n, temp, t2, _, _, _, hn, tryCatch_throw_ok htemp, h3, change_ok hc, change_ok hr, hlast⟩

/-- A commit alone that reports a write made its backup and replaced the content. -/
theorem commit_written {s : BatchSettings} {naming : Naming} {cwd : Path} {i : Nat} {file : Path}
    {o : FileOutcome} {t : FileSystem}
    (h : ((commit Syscalls.alone s naming cwd i file o).run t).1.written = true) :
    ∃ content q t1, o.content = some content ∧
      (Backup.create Syscalls.alone s.backup (naming.stamp i) file).run.run t = (.ok q, t1) ∧
      (replaceContent Syscalls.alone (naming.random i) cwd file content).run.run t1 =
        (.ok (), ((commit Syscalls.alone s naming cwd i file o).run t).2) := by
  unfold commit at *
  cases he : o.error with
  | some e => simp [he] at h
  | none =>
    cases hc : o.content with
    | none => simp [he, hc] at h
    | some content =>
      simp only [he, hc] at h ⊢
      split_ifs at h ⊢ with hskip
      · simp at h
      rw [StateT.run_bind] at h ⊢
      generalize (Backup.create Syscalls.alone s.backup (naming.stamp i) file).run.run t = p1 at h ⊢
      obtain ⟨r, t1⟩ := p1
      rw [id_bind] at h ⊢
      cases r with
      | error e => simp at h
      | ok q =>
        dsimp only at h ⊢
        rw [StateT.run_bind] at h ⊢
        generalize hr : (replaceContent Syscalls.alone (naming.random i) cwd file content).run.run t1 =
          p2 at h ⊢
        obtain ⟨r, t2⟩ := p2
        rw [id_bind] at h ⊢
        cases r with
        | ok u => exact ⟨content, q, t1, rfl, rfl, by rw [hr]; rfl⟩
        | error e =>
          dsimp only at h
          split_ifs at h <;> simp at h

end Alone

namespace Setup

variable (b : Setup) {C : Type} {cache : ExistsCache C} {j : Nat} {t : FileSystem}

/-- Job `j` run alone on the starting tree: its result and the tree it leaves. -/
def alone (j : Nat) : JobResult × FileSystem :=
  (job Syscalls.alone aloneCheck b.settings b.naming b.fs.cwd j (b.file j)).run b.fs

theorem writes_iff : b.Writes j ↔ j < b.files.length ∧ Rewrites b.settings (b.outcome j) :=
  Iff.rfl

theorem alone_of_unread {e : Failure} (he : b.fs.readBytes (b.file j) = .error e) :
    b.alone j =
      ({ index := j, filePath := b.file j, error := some (Failure.ofFile b.fs.cwd (b.file j) e) },
        b.fs) := by
  unfold alone job
  have hread : (Syscalls.alone.call (Call.readBytes (b.file j))).run b.fs =
      (b.fs.readBytes (b.file j), b.fs) := rfl
  rw [StateT.run_bind, hread, id_bind, he]
  rfl

/-- Alone, a job that reads its file commits the outcome of the file in the starting tree. -/
theorem alone_of_outcome {o : FileOutcome} (ho : b.outcome j = some o) :
    b.alone j = (commit Syscalls.alone b.settings b.naming b.fs.cwd j (b.file j) o).run b.fs := by
  unfold alone job
  have hread : (Syscalls.alone.call (Call.readBytes (b.file j))).run b.fs =
      (b.fs.readBytes (b.file j), b.fs) := rfl
  rw [StateT.run_bind, hread, id_bind]
  unfold outcome at ho
  cases hr : b.fs.readBytes (b.file j) with
  | error e =>
      rw [hr] at ho
      cases ho
  | ok content =>
      rw [hr] at ho
      cases ho
      rw [StateT.run_bind, FileOutcome.compute_eq_run aloneCheck, ProbePlan.run_aloneCheck, id_bind]

/-- Alone, a job reports the outcome of its file in the starting tree. -/
theorem alone_reports (j : Nat) : Reports b.settings j (b.file j) (b.outcome j) (b.alone j).1 := by
  cases hr : b.fs.readBytes (b.file j) with
  | error e =>
      have hnone : b.outcome j = none := by simp [outcome, hr]
      rw [b.alone_of_unread hr, hnone]
      exact ⟨rfl, rfl, rfl, by simp, by simp [Rewrites]⟩
  | ok content =>
      have ho : b.outcome j = some ((FileOutcome.compute b.settings.layout ProbePlan.probe
          (b.file j) content).eval b.fs.Exists) := by simp [outcome, hr]
      rw [b.alone_of_outcome ho, ho]
      exact (SatisfiesM_Id_eq.mp (SatisfiesM_StateT_eq.mp (commit_reports Syscalls.alone _ _ _ _ _ _)
        b.fs) :)

variable {b}

/-- A tree of job `j` alone is the shared tree of a batch in which no other job has moved yet. -/
theorem Coupled.ofLocal (h : b.Apart) (hdoc : cache.Documented) (hl : b.Local j t) :
    b.Coupled cache ⟨t, cache.empty 0⟩ (Function.update (fun _ => b.fs) j t) where
  cwd := hl.cwd
  cache e he := by
    rw [hdoc.empty_entries] at he
    cases he
  jobs i _ := by
    by_cases hij : i = j
    · rw [hij, Function.update_self]
      exact hl
    · rw [Function.update_of_ne hij]
      exact Local.start h i
  off a ha := hl.off a (ha j)
  mine i a hm := by
    by_cases hij : i = j
    · rw [hij, Function.update_self]
    · rw [Function.update_of_ne hij]
      exact hl.off a fun hmj => hij (h.mine_unique hm hmj)

/-- A part of a job that tracks its run alone leaves a tree of the job alone from one. -/
theorem Local.track (h : b.Apart) (hdoc : cache.Documented) (hj : j < b.files.length) {α : Type}
    {x : Prog (World C) α} {xl : StateM FileSystem α} (hx : Tracks (b.Coupled cache) j x xl t)
    (hl : b.Local j t) : b.Local j (xl.run t).2 := by
  obtain ⟨t', hpost, hc⟩ := Sound.runAlone hx _ _ (by simp) (Coupled.ofLocal h hdoc hl)
  have hlocal := hc.jobs j hj
  rw [Function.update_self] at hlocal
  rw [hpost]
  exact hlocal

section Written

variable (h : b.Apart) (hw : b.Writes j)
include h hw

/-- Alone, a replacement that succeeds leaves the new content where the job's file leads. -/
theorem replaceContent_alone {cwd : Path} {content : Bytes} {t' : FileSystem} (hl : b.Local j t)
    (hrun : (replaceContent Syscalls.alone (b.naming.random j) cwd (b.file j) content).run.run t =
      (.ok (), t')) :
    ∃ f, t'.node? (b.place j) = some (.file f) ∧ f.content = content := by
  obtain ⟨n, temp, t2, t3, t4, t5, -, htemp, hwrite, hchmod, hrename, hremove⟩ :=
    replaceContent_ok hrun
  obtain ⟨k, -, hk, htk⟩ := createTemp_alone _ _ _ _ _ htemp
  replace htk : temp = b.tempPath j k := htk
  subst htk
  have hown := h.temp_ownPath hw (k := k) (by simpa using hk)
  have hend : ∀ a, b.fs.resolve (b.tempPath j k) = .ok a → b.Mine j a :=
    fun a ha => .inr (hown.resolve h a ha)
  have hdoc := ProbeCache.lru_documented
  -- the trees the job passes through are trees of the job alone
  have hl2 : b.Local j t2 := by
    have hl2 := Local.track h hdoc hw.lt (tracks_createTemp h hw tempTries 0 (by omega) t) hl
    rwa [htemp] at hl2
  have hl3 : b.Local j t3 := by
    have hl3 := Local.track h hdoc hw.lt (tracks_call (callOK_writeFile h hw.lt hown.dropLast
      hown.getLast? hend content 0o600) t2) hl2
    rwa [call_run, Call.writeFile, change_run hwrite] at hl3
  have hl4 : b.Local j t4 := by
    have hl4 := Local.track h hdoc hw.lt (tracks_call (callOK_chmod h hw.lt hown.dropLast hend
      (permissions n &&& 0o777)) t3) hl3
    rwa [call_run, Call.chmod, change_run hchmod] at hl4
  have hl5 : b.Local j t5 := by
    have hl5 := Local.track h hdoc hw.lt (tracks_call (callOK_rename h hw.lt hown.dropLast hown.own
      (h.file_pieces hw.lt) fun a ha => ⟨hw, Except.ok.inj (ha.symm.trans (h.file_walk hw))⟩) t4) hl4
    rwa [call_run, Call.rename, change_run hrename] at hl5
  -- the content goes to the temporary file's place, which none of the trees moves
  obtain ⟨a, hra, mode, hm⟩ := writeFile_content hown.getLast? hwrite
  have hres : b.fs.resolve (b.tempPath j k) = .ok a := by
    rw [← hra]
    exact (hl2.walkWith_eq h hown.dropLast true).symm
  have hwalk : b.fs.walk (b.tempPath j k) = .ok a := by
    rw [← h.resolve_eq_walk_of_own hown.own, hres]
  have hm4 := chmod_content hchmod ((hl3.walkWith_eq h hown.dropLast true).trans hres) hm
  have hm5 := rename_content ((hl4.walkWith_eq h hown.dropLast false).trans hwalk)
    ((hl4.walkWith_eq h (h.file_pieces hw.lt) false).trans (h.file_walk hw)) hrename hm4
  have hne : b.place j ≠ a := fun hpa => h.place_not_own hw (hpa ▸ hown.own a hwalk)
  rw [← hremove, remove_keeps ((hl5.walkWith_eq h hown.dropLast false).trans hwalk) hne, hm5]
  exact ⟨_, rfl, rfl⟩

/-- Alone, a job that reports a write leaves its new content where its file leads. -/
theorem alone_written (hwr : (b.alone j).1.written = true) :
    ∃ f, (b.alone j).2.node? (b.place j) = some (.file f) ∧
      (b.outcome j).bind FileOutcome.content = some f.content := by
  obtain ⟨o, ho, -⟩ := hw.2.2
  rw [b.alone_of_outcome ho] at hwr ⊢
  obtain ⟨content, q, t1, hc, hcreate, hreplace⟩ := commit_written hwr
  have hl1 : b.Local j t1 := by
    have hl1 := Local.track h ProbeCache.lru_documented hw.lt (tracks_create h hw b.fs)
      (Local.start h j)
    rwa [hcreate] at hl1
  obtain ⟨f, hf, hfc⟩ := replaceContent_alone h hw hl1 hreplace
  exact ⟨f, hf, by rw [ho, Option.bind_some, hc, hfc]⟩

end Written

end Setup

end Batch

end Unalias
