import Unalias.Proofs.JobFootprint
import Unalias.Proofs.Interleaving

/-! # A job among others ends as it ends alone

Run alone, a job makes its calls on a tree of its own and answers its existence checks from that
tree (`Batch.aloneCheck`). Among other jobs, it makes each call on the shared tree, and asks the
shared cache before the shared tree. Every call keeps the coupling of the shared state to the
jobs' own trees (`Batch.Setup.CallOK`), and a cached check answers as the starting tree, so each
part of the job tracks the same part run alone (`Prog.Tracks`), up to the whole job
(`Batch.Setup.tracks_job`).

Only a few facts of the run alone are needed on the way: where the temporary file and the backup
it makes are (`Batch.createTemp_alone`, `Batch.create_alone`), and that checks alone change
nothing (`ProbePlan.run_aloneCheck`).
-/

namespace Unalias

namespace Batch

open FileSystem Prog

/-- The existence check of a job run alone: the tree it has. -/
def aloneCheck (p : Path) : StateM FileSystem Bool := fun t => (t.Exists p, t)

section Alone

theorem id_bind {α β : Type} (x : Id α) (f : α → Id β) : x >>= f = f x := rfl
theorem id_map {α β : Type} (x : Id α) (f : α → β) : f <$> x = f x := rfl
theorem id_pure {α : Type} (x : α) : (pure x : Id α) = x := rfl

/-- A failure handler that only throws gives no value of its own. -/
theorem tryCatch_throw_ok {ε τ α : Type} {x : ExceptT ε (StateM τ) α} {g : ε → ε} {t t' : τ} {a : α}
    (h : (tryCatch x fun e => throw (g e)).run.run t = (.ok a, t')) : x.run.run t = (.ok a, t') := by
  rw [ExceptT.run_tryCatch, StateT.run_bind] at h
  cases hx : x.run.run t with
  | mk r t'' =>
    rw [hx, id_bind] at h
    cases r with
    | ok a' => exact h
    | error e => cases h

theorem createTemp_alone {file : Path} {random : Nat → UInt32} :
    ∀ tries k t temp t', (createTemp Syscalls.alone file random tries k).run.run t = (.ok temp, t') →
      ∃ k', k ≤ k' ∧ k' < k + tries ∧ temp = joinTemp (Path.dir file) (tempName file (random k'))
  | 0, k, t, temp, t', h => by cases h
  | tries + 1, k, t, temp, t', h => by
      simp only [createTemp, ExceptT.run_bind, ExceptT.run_lift, StateT.run_bind, StateT.run_map,
        Syscalls.lift, Syscalls.alone, id_bind, id_map, Call.createExclusive, Call.change] at h
      split at h
      · cases h
        exact ⟨k, le_refl k, by omega, rfl⟩
      · obtain ⟨k', hk, hk', rfl⟩ := createTemp_alone tries (k + 1) _ temp t' h
        exact ⟨k', by omega, by omega, rfl⟩
      · cases h
theorem create_alone {enabled : Bool} {stamp : Bytes} {file : Path} {t t' : FileSystem} {q : Path}
    (h : (Backup.create Syscalls.alone enabled stamp file).run.run t = (.ok q, t')) :
    (enabled = false ∧ q = []) ∨ (enabled = true ∧ q = Backup.pathFor file stamp) := by
  cases enabled with
  | false =>
      refine .inl ⟨rfl, ?_⟩
      cases h
      rfl
  | true =>
      refine .inr ⟨rfl, ?_⟩
      simp only [Backup.create, Bool.not_true, Bool.false_eq_true, if_false, ExceptT.run_tryCatch,
        ExceptT.run_bind, StateT.run_bind, id_bind] at h
      cases hc : (Backup.copy Syscalls.alone file (Backup.pathFor file stamp)).run.run t with
      | mk r t₁ =>
        rw [hc] at h
        cases r with
        | ok u =>
            cases h
            rfl
        | error e =>
            -- the handler removes the backup and fails
            split at h
            · rename_i heq
              cases heq
            · simp only [StateT.run_bind, id_bind, ExceptT.run_lift, Syscalls.lift, Syscalls.alone,
                StateT.run_map, id_map] at h
              cases h

end Alone

end Batch

/-- A plan run with the checks of a job alone answers from the job's tree and leaves it. -/
theorem ProbePlan.run_aloneCheck {α : Type} (t : FileSystem) :
    ∀ x : ProbePlan α, (x.run Batch.aloneCheck).run t = (x.eval t.Exists, t)
  | .done _ => rfl
  | .ask p next => run_aloneCheck t (next (t.Exists p))

namespace Batch

open FileSystem Prog

namespace Setup

variable {b : Setup} {C : Type} {cache : ExistsCache C} {j : Nat}

section Steps

theorem tracks_call {β : Type} {c : Call β} (hOK : b.CallOK cache j c) (t : FileSystem) :
    Tracks (b.Coupled cache) j (World.calls.call c) (Syscalls.alone.call c) t :=
  Tracks.atomic fun s ls hj hM => by
    obtain ⟨h1, h2⟩ := hOK s ls hM
    rw [hj] at h1 h2
    exact ⟨h1, h2⟩

theorem tracks_liftCall {β : Type} {c : Call β} (hOK : b.CallOK cache j c) (t : FileSystem) :
    Tracks (b.Coupled cache) j (World.calls.lift.call c : ExceptT Failure _ β).run
      (Syscalls.alone.lift.call c : ExceptT Failure _ β).run t :=
  Tracks.exceptLift (tracks_call hOK t)

theorem tracks_thenAlways {α : Type} {x : ExceptT Failure (Prog (World C)) α}
    {xl : ExceptT Failure (StateM FileSystem) α} {last : Prog (World C) Unit}
    {lastl : StateM FileSystem Unit} {t : FileSystem}
    (hx : Tracks (b.Coupled cache) j x.run xl.run t)
    (hlast : ∀ t', Tracks (b.Coupled cache) j last lastl t') :
    Tracks (b.Coupled cache) j (thenAlways x last).run (thenAlways xl lastl).run t :=
  Tracks.bind hx fun r t' _ => Tracks.bind (hlast t') fun _ t'' _ => Tracks.pure r t''

end Steps

section Checks

variable (h : b.Apart) (hdoc : cache.Documented)
include h hdoc

/-- A cached check of a path that leads to no place where a job makes an entry answers as the
    check of the job alone on the starting tree. -/
theorem tracks_check {p : Path} (hp : ∀ a, b.fs.resolve p = .ok a → ∀ i, ¬ b.Own i a) :
    Tracks (b.Coupled cache) j (World.check cache p) (aloneCheck p) b.fs := by
  -- the lookup leaves the trees as they are, and answers, if at all, the starting tree's answer
  have hlookup : Sound (b.Coupled cache) j
      (fun o t' => t' = b.fs ∧ ∀ v, o = some v → v = b.fs.Exists p)
      (Prog.atomic fun w => let r := cache.get? w.cache p; (r.1, { w with cache := r.2 })) b.fs :=
    .step b.fs (fun s ls hj hM => by rw [← hj, Function.update_eq_self]; exact hM.lookup hdoc p)
      fun s ls _ hM => .done ⟨rfl, fun v hv => hM.cache _ (hdoc.get?_mem _ _ _ hv)⟩
  refine Sound.bind hlookup fun o t' ⟨ht', ho⟩ => ?_
  subst ht'
  cases o with
  | some v => exact .done (by rw [ho v rfl]; rfl)
  | none =>
      -- the shared tree answers as the starting tree, and that answer is added to the cache
      refine .step b.fs (fun s ls hj hM => by rw [← hj, Function.update_eq_self]; exact hM)
        fun s ls _ hM => ?_
      have hv : s.fs.Exists p = b.fs.Exists p := hM.exists_eq h hp
      exact .step b.fs
        (fun s' ls' hj' hM' => by rw [← hj', Function.update_eq_self]; exact hM'.remember hdoc hv)
        fun _ _ _ _ => .done (by show (b.fs.Exists p, b.fs) = (s.fs.Exists p, b.fs); rw [hv])

/-- A plan whose checks all lead to no place where a job makes an entry, run with the cached
    check, answers as it does alone on the starting tree. -/
theorem tracks_plan {α : Type} :
    ∀ x : ProbePlan α, (∀ p ∈ x.asked b.fs.Exists, ∀ a, b.fs.resolve p = .ok a → ∀ i, ¬ b.Own i a) →
      Tracks (b.Coupled cache) j (x.run (World.check cache)) (x.run aloneCheck) b.fs
  | .done a, _ => Tracks.pure a _
  | .ask p next, hx => by
      refine Tracks.bind (tracks_check h hdoc (hx p List.mem_cons_self)) fun v t' hrun => ?_
      cases hrun
      exact tracks_plan (next _) fun q hq => hx q (List.mem_cons_of_mem _ hq)

end Checks

section Writes

theorem tracks_copy {src dst : Path}
    (hstat : b.CallOK cache j (Call.stat src)) (hread : b.CallOK cache j (Call.readFile src))
    (hwrite : ∀ c perm, b.CallOK cache j (Call.writeFile dst c perm)) (t : FileSystem) :
    Tracks (b.Coupled cache) j (Backup.copy World.calls src dst).run
      (Backup.copy Syscalls.alone src dst).run t := by
  unfold Backup.copy
  refine Tracks.exceptBind (tracks_liftCall hstat t) fun r t1 _ => ?_
  dsimp only
  cases r with
  | error e => exact Tracks.exceptThrowBind
  | ok n =>
    refine Tracks.exceptPureBind (Tracks.exceptBind (tracks_liftCall (hwrite _ _) t1)
      fun r t2 _ => ?_)
    cases r with
    | error e => exact Tracks.exceptThrowBind
    | ok u =>
      refine Tracks.exceptBind (tracks_liftCall hread t2) fun r t3 _ => ?_
      cases r with
      | error e => exact Tracks.exceptThrowBind
      | ok c =>
        refine Tracks.exceptPureBind (Tracks.exceptBind (tracks_liftCall (hwrite _ _) t3)
          fun r t4 _ => ?_)
        cases r with
        | error e => exact Tracks.exceptThrow _ _
        | ok u => exact Tracks.exceptPure _ _

variable (h : b.Apart) (hw : b.Writes j)
include h hw

/-- The backup of the file a job writes. -/
theorem tracks_create (t : FileSystem) :
    Tracks (b.Coupled cache) j
      (Backup.create World.calls b.settings.backup (b.naming.stamp j) (b.file j)).run
      (Backup.create Syscalls.alone b.settings.backup (b.naming.stamp j) (b.file j)).run t := by
  unfold Backup.create
  cases hbackup : b.settings.backup with
  | false => exact Tracks.exceptPure _ t
  | true =>
      have hown := h.backup_ownPath hw hbackup
      have hfile := h.file_pieces hw.lt
      exact Tracks.exceptTryCatch
        (Tracks.exceptBind (tracks_copy
          (callOK_stat h hw.lt hfile fun a hr i hi => h.file_end hw.lt hr hi)
          (callOK_readFile h hw.lt hfile fun a hr i hi => h.file_end hw.lt hr hi)
          (callOK_writeFile h hw.lt hown.dropLast hown.getLast? fun a ha => .inr (hown.resolve h a ha))
          t) fun _ t' _ => Tracks.exceptPure _ t')
        fun _ t' _ => Tracks.exceptBind
          (tracks_liftCall (callOK_remove h hw.lt hown.dropLast hown.own) t')
          fun _ t'' _ => Tracks.exceptThrow _ t''

/-- Copying the backup back over the file a job writes. -/
theorem tracks_restore (hbackup : b.settings.backup = true) (t : FileSystem) :
    Tracks (b.Coupled cache) j (Backup.restore World.calls (b.file j) (b.backupPath j)).run
      (Backup.restore Syscalls.alone (b.file j) (b.backupPath j)).run t := by
  have hown := h.backup_ownPath hw hbackup
  have hne : (b.backupPath j).isEmpty = false := by
    obtain ⟨qs, n, hqs, hn, -⟩ := hown.pieces
    cases hp : b.backupPath j with
    | nil =>
        have hqs' : qs ++ [n] = [[]] := by rw [← hqs, hp]; rfl
        rcases List.append_eq_singleton_iff.mp hqs' with ⟨-, hn'⟩ | ⟨-, hn'⟩
        · exact absurd (List.singleton_inj.mp hn') hn
        · exact absurd hn' (List.cons_ne_nil _ _)
    | cons _ _ => rfl
  have hend : ∀ a, b.fs.resolve (b.backupPath j) = .ok a → ∀ i, b.Mine i a → i = j :=
    fun a ha i hi => h.mine_unique hi (.inr (hown.resolve h a ha))
  have hfile : ∀ a, b.fs.resolve (b.file j) = .ok a → b.Mine j a := fun a ha =>
    .inl ⟨hw, Except.ok.inj (ha.symm.trans hw.place_file.1)⟩
  unfold Backup.restore
  simp only [hne, if_false, Bool.false_eq_true]
  refine Tracks.exceptBind (tracks_liftCall (callOK_stat h hw.lt hown.dropLast hend) t)
    fun r t' _ => ?_
  have hstat : b.CallOK cache j (Call.stat (b.backupPath j)) :=
    callOK_stat h hw.lt hown.dropLast hend
  have hread : b.CallOK cache j (Call.readFile (b.backupPath j)) :=
    callOK_readFile h hw.lt hown.dropLast hend
  have hwrite : ∀ c perm, b.CallOK cache j (Call.writeFile (b.file j) c perm) :=
    callOK_writeFile h hw.lt (h.file_pieces hw.lt) hw.getLast? hfile
  rcases r with e | n
  · cases e <;> first
      | exact Tracks.exceptThrow _ _
      | exact Tracks.exceptTryCatch (tracks_copy hstat hread hwrite t')
          fun _ t'' _ => Tracks.exceptThrow _ t''
  · exact Tracks.exceptTryCatch (tracks_copy hstat hread hwrite t')
      fun _ t'' _ => Tracks.exceptThrow _ t''

/-- The temporary file a job tries to make, from its `k`-th try on. -/
theorem tracks_createTemp : ∀ (tries k : Nat), k + tries ≤ tempTries → ∀ t,
    Tracks (b.Coupled cache) j (createTemp World.calls (b.file j) (b.naming.random j) tries k).run
      (createTemp Syscalls.alone (b.file j) (b.naming.random j) tries k).run t
  | 0, _, _, t => Tracks.exceptThrow _ t
  | tries + 1, k, hk, t => by
      have hown := h.temp_ownPath hw (k := k) (by omega)
      rw [createTemp, createTemp]
      refine Tracks.exceptBind (tracks_liftCall
        (callOK_createExclusive h hw.lt hown.dropLast (fun a ha => .inr (hown.own a ha)) _) t)
        fun r t' _ => ?_
      have hrest := tracks_createTemp tries (k + 1) (by omega) t'
      rcases r with e | ⟨⟩
      · cases e <;> first | exact hrest | exact Tracks.exceptThrow _ _
      · exact Tracks.exceptPure _ _

/-- The new content put in place of the file a job writes. -/
theorem tracks_replaceContent (cwd : Path) (content : Bytes) (t : FileSystem) :
    Tracks (b.Coupled cache) j
      (replaceContent World.calls (b.naming.random j) cwd (b.file j) content).run
      (replaceContent Syscalls.alone (b.naming.random j) cwd (b.file j) content).run t := by
  have hfile := h.file_pieces hw.lt
  unfold replaceContent
  refine Tracks.exceptBind
    (tracks_liftCall (callOK_stat h hw.lt hfile fun a hr i hi => h.file_end hw.lt hr hi) t)
    fun r t1 _ => ?_
  dsimp only
  rcases r with e | n
  · exact Tracks.exceptThrowBind
  refine Tracks.exceptPureBind (Tracks.exceptBind (Tracks.exceptTryCatch
    (tracks_createTemp h hw tempTries 0 (by omega) t1) fun _ t2 _ => Tracks.exceptThrow _ t2)
    fun temp t2 hrun => ?_)
  -- the temporary file is one of those the job tries
  obtain ⟨k, -, hk, rfl⟩ := createTemp_alone _ _ _ _ _ (tryCatch_throw_ok hrun)
  have hown := h.temp_ownPath hw (k := k) (by simpa using hk)
  have hend : ∀ a, b.fs.resolve (b.tempPath j k) = .ok a → b.Mine j a :=
    fun a ha => .inr (hown.resolve h a ha)
  refine tracks_thenAlways ?_ fun t' => Tracks.bind
    (tracks_call (callOK_remove h hw.lt hown.dropLast hown.own) t') fun _ t'' _ => Tracks.pure _ t''
  refine Tracks.exceptBind (tracks_liftCall
    (callOK_writeFile h hw.lt hown.dropLast hown.getLast? hend _ _) t2) fun r t3 _ => ?_
  rcases r with e | ⟨⟩
  · exact Tracks.exceptThrowBind
  refine Tracks.exceptBind (tracks_liftCall (callOK_chmod h hw.lt hown.dropLast hend _) t3)
    fun r t4 _ => ?_
  rcases r with e | ⟨⟩
  · exact Tracks.exceptThrowBind
  refine Tracks.exceptBind (tracks_liftCall (callOK_rename h hw.lt hown.dropLast hown.own hfile
    fun a ha => ⟨hw, Except.ok.inj (ha.symm.trans (h.file_walk hw))⟩) t4) fun r t5 _ => ?_
  rcases r with e | ⟨⟩
  · exact Tracks.exceptThrow _ _
  · exact Tracks.exceptPure _ _

end Writes

section Job

variable (h : b.Apart)
include h

/-- What a job does once it knows the outcome for its file, the outcome in the starting tree. -/
theorem tracks_commit (hj : j < b.files.length) (cwd : Path) {o : FileOutcome}
    (ho : b.outcome j = some o) (t : FileSystem) :
    Tracks (b.Coupled cache) j (commit World.calls b.settings b.naming cwd j (b.file j) o)
      (commit Syscalls.alone b.settings b.naming cwd j (b.file j) o) t := by
  unfold commit
  cases he : o.error with
  | some e => exact Tracks.pure _ t
  | none =>
    cases hc : o.content with
    | none => exact Tracks.pure _ t
    | some content =>
      dsimp only
      split_ifs with hskip
      · exact Tracks.pure _ t
      obtain ⟨hmod, hdry⟩ : o.modified = true ∧ b.settings.dryRun = false := by simpa using hskip
      have hw : b.Writes j := ⟨hj, hdry, o, ho, he, hmod, by simp [hc]⟩
      refine Tracks.bind (tracks_create h hw t) fun r t1 hrun => ?_
      rcases r with e | q
      · exact Tracks.pure _ t1
      refine Tracks.bind (tracks_replaceContent h hw cwd content t1) fun r t2 _ => ?_
      rcases r with e | ⟨⟩
      · split_ifs with hq
        · -- a backup was made, and it is the job's backup
          obtain ⟨-, rfl⟩ | ⟨hbackup, rfl⟩ := create_alone hrun
          · simp at hq
          · exact Tracks.bind (tracks_restore h hw hbackup t2) fun _ t3 _ => Tracks.pure _ t3
        · exact Tracks.pure _ t2
      · exact Tracks.pure _ t2

/-- A job among others ends as it ends alone on the starting tree. -/
theorem tracks_job (hdoc : cache.Documented) (hj : j < b.files.length) (cwd : Path) :
    Tracks (b.Coupled cache) j
      (job World.calls (World.check cache) b.settings b.naming cwd j (b.file j))
      (job Syscalls.alone aloneCheck b.settings b.naming cwd j (b.file j)) b.fs := by
  unfold job
  refine Tracks.bind (tracks_call (callOK_readBytes h hj (h.file_pieces hj)
    fun a hr i hi => h.file_end hj hr hi) b.fs) fun r t hrun => ?_
  -- alone, the job reads the starting tree and keeps it
  cases hrun
  cases hr : b.fs.readBytes (b.file j) with
  | error e => exact Tracks.pure _ _
  | ok content =>
      dsimp only
      rw [FileOutcome.compute_eq_run (World.check cache), FileOutcome.compute_eq_run aloneCheck]
      refine Tracks.bind (tracks_plan h hdoc _ fun p hp a ha i => h.probes j hj content hr p hp a ha i)
        fun o t hrun => ?_
      rw [ProbePlan.run_aloneCheck] at hrun
      cases hrun
      exact tracks_commit h hj cwd (by simp [outcome, hr]) b.fs

end Job

end Setup

end Batch

end Unalias
