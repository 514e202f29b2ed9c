import Mathlib
import Unalias.Proofs.JobReport
import Unalias.Proofs.Pool

/-! # A batch ends alike whatever its schedule

The jobs of a batch are kept apart when no two write one file and the names they make up for
backups and temporary files stay clear of every other path the batch uses (`Batch.Setup.Apart`).
Then every job tracks its run alone on the starting tree (`Batch.Setup.tracks_job`), and by the
pool's theorem every schedule ends with the results of the jobs alone, each once, and a shared
tree that holds at each job's places what the job leaves alone (`Batch.Setup.pool_run`). Sorting
by job number puts the results in order whatever order they finished in
(`Batch.Setup.sort_alone`), so a batch with any number of workers and any schedule ends as the
one that runs its jobs one after another (`Batch.run_any_schedule`).

Two paths that lead to one file make two jobs that write one place: the second reads the file
before the first has written it, and writes it again (`Batch.run_aliased_file_rewritten`). A file
named as another's backup is read before or after the backup is made, as the schedule has it
(`Batch.run_backup_named_file_read_early`).
-/

namespace Unalias

open scoped List

/-- Two trees alike: the same working directory, and the same entry at every place. -/
def FileSystem.Same (fs fs' : FileSystem) : Prop :=
  fs.cwd = fs'.cwd ∧ ∀ a, fs.node? a = fs'.node? a

namespace Batch

open FileSystem Prog

namespace Setup

variable (b : Setup) {C : Type} (cache : ExistsCache C)

/-- The numbered jobs of the batch, sharing the cache `cache`. -/
def jobs : List (Nat × Prog (World C) JobResult) :=
  b.files.zipIdx.map fun (file, i) =>
    (i, job World.calls (World.check cache) b.settings b.naming b.fs.cwd i file)

/-- What a batch leaves against the tree it started from. -/
structure Settles (results : List JobResult) (fs' : FileSystem) : Prop where
  /-- One result for each file, in order. -/
  index : results.map (·.index) = List.range b.files.length
  filePath : results.map (·.filePath) = b.files
  /-- A file reported written holds its new content. -/
  written : ∀ r ∈ results, r.written = true → ∃ f,
    fs'.node? (b.fs.spot r.filePath) = some (.file f) ∧
      r.outcome.bind FileOutcome.content = some f.content
  /-- New content that the run writes is written, or its job reports a failure. -/
  writes : ∀ r ∈ results, Rewrites b.settings r.outcome → r.written = true ∨ r.error.isSome = true
  /-- A file reported neither written nor failed is left as it was. -/
  untouched : ∀ r ∈ results, r.written = false → r.error = none →
    fs'.node? (b.fs.spot r.filePath) = b.fs.node? (b.fs.spot r.filePath)
  /-- Nothing changes away from the jobs' places. -/
  outside : ∀ a, (∀ j, ¬ b.Mine j a) → fs'.node? a = b.fs.node? a
  /-- A dry run writes nothing. -/
  dry : b.settings.dryRun = true → (∀ r ∈ results, r.written = false) ∧ fs'.Same b.fs

theorem run_workers (w : Nat) (picks : List Nat) :
    run cache { b.settings with workers := w } b.naming picks b.files b.fs =
      (((Pool.start (max w 1) ⟨b.fs, cache.empty b.settings.cacheSize⟩ (b.jobs cache)).run
          (max w 1) picks).1.mergeSort (fun x y => x.index ≤ y.index),
        ((Pool.start (max w 1) ⟨b.fs, cache.empty b.settings.cacheSize⟩ (b.jobs cache)).run
          (max w 1) picks).2.fs) := rfl

theorem jobs_ids : (b.jobs cache).map (·.1) = List.range b.files.length := by
  simp [jobs, List.map_map, Function.comp_def, List.range_eq_range']

theorem mem_jobs {jq : Nat × Prog (World C) JobResult} (h : jq ∈ b.jobs cache) :
    jq.1 < b.files.length ∧
      jq.2 = job World.calls (World.check cache) b.settings b.naming b.fs.cwd jq.1 (b.file jq.1) := by
  obtain ⟨⟨f, i⟩, hx, rfl⟩ := List.mem_map.mp h
  have hi : b.files[i]? = some f := List.mem_zipIdx_iff_getElem?.mp hx
  have hf : b.file i = f := by simp [Setup.file, List.getD_eq_getElem?_getD, hi]
  exact ⟨(List.getElem?_eq_some_iff.mp hi).1, by rw [hf]⟩

theorem files_eq : (List.range b.files.length).map b.file = b.files :=
  List.ext_getElem (by simp) fun i _ hi => by simp [Setup.file, List.getD_eq_getElem?_getD, hi]

/-- Sorted by job number, the results alone come in job order, whatever order they finished in. -/
theorem sort_alone {order : List Nat} (ho : order ~ List.range b.files.length) :
    (order.map fun j => (b.alone j).1).mergeSort (fun x y => x.index ≤ y.index) =
      (List.range b.files.length).map fun j => (b.alone j).1 := by
  have hidx : ∀ j, (b.alone j).1.index = j := fun j => (b.alone_reports j).index
  refine List.Perm.eq_of_pairwise ?_
    (List.pairwise_mergeSort (fun x y z hxy hyz => by simp only [decide_eq_true_eq] at *; omega)
      (fun x y => by simp only [Bool.or_eq_true, decide_eq_true_eq]; omega) _) ?_
    ((List.mergeSort_perm _ _).trans (ho.map _))
  · -- two results with the same number are the result of one job
    intro x y hx hy hxy hyx
    obtain ⟨i, -, rfl⟩ := List.mem_map.mp ((List.mergeSort_perm _ _).subset hx)
    obtain ⟨k, -, rfl⟩ := List.mem_map.mp hy
    simp only [hidx, decide_eq_true_eq] at hxy hyx
    rw [Nat.le_antisymm hxy hyx]
  · rw [List.pairwise_map]
    exact List.pairwise_lt_range.imp fun hlt => by simp only [hidx, decide_eq_true_eq]; omega

variable {b cache}

theorem Mine.lt {j : Nat} {a : Path} (hm : b.Mine j a) : j < b.files.length := hm.writes.lt

/-- Two shared states coupled to the same trees of the jobs are alike. -/
theorem Coupled.same {w w' : World C} {ls ls' : Nat → FileSystem} (hc : b.Coupled cache w ls)
    (hc' : b.Coupled cache w' ls') (hls : ∀ j < b.files.length, ls j = ls' j) :
    w.fs.Same w'.fs := by
  refine ⟨hc.cwd.trans hc'.cwd.symm, fun a => ?_⟩
  by_cases hm : ∃ j, b.Mine j a
  · obtain ⟨j, hj⟩ := hm
    rw [hc.mine j a hj, hc'.mine j a hj, hls j hj.lt]
  · rw [hc.off a (not_exists.mp hm), hc'.off a (not_exists.mp hm)]

variable (h : b.Apart) (hdoc : cache.Documented)
include h hdoc

/-- Whatever the schedule, the pool of the batch's jobs ends with their results alone, each once,
    and with the shared state coupled to the trees they leave alone. -/
theorem pool_run (w : Nat) (picks : List Nat) :
    ∃ order, order ~ List.range b.files.length ∧
      ((Pool.start w ⟨b.fs, cache.empty b.settings.cacheSize⟩ (b.jobs cache)).run w picks).1 =
        order.map (fun j => (b.alone j).1) ∧
      ∃ ls, b.Coupled cache
          ((Pool.start w ⟨b.fs, cache.empty b.settings.cacheSize⟩ (b.jobs cache)).run w picks).2 ls ∧
        ∀ j < b.files.length, ls j = (b.alone j).2 := by
  have hsound : ∀ jq ∈ b.jobs cache, Sound (b.Coupled cache) jq.1
      (Pool.Ends (fun j => (b.alone j).1) (fun j => (b.alone j).2) jq.1) jq.2 b.fs := by
    intro jq hjq
    obtain ⟨hj, hjob⟩ := b.mem_jobs cache hjq
    rw [hjob]
    exact (tracks_job h hdoc hj b.fs.cwd).imp fun a t hrun => by
      simp only [Pool.Ends, alone, hrun, and_self]
  have hinv := Pool.start_inv w (Coupled.start h hdoc b.settings.cacheSize) hsound
    (b.jobs_ids cache ▸ List.nodup_range)
  rw [b.jobs_ids cache] at hinv
  obtain ⟨order, hperm, hres, ls, hc, hls⟩ := Pool.run_sound w picks _ _ [] hinv
  exact ⟨order, hperm, hres, ls, hc, fun j hj => hls j (List.mem_range.mpr hj)⟩

/-- With any number of workers and any schedule, a batch ends with the results of its jobs alone,
    in order, and with a tree coupled to the trees they leave alone. -/
theorem run_eq_alone (w : Nat) (picks : List Nat) :
    (run cache { b.settings with workers := w } b.naming picks b.files b.fs).1 =
        (List.range b.files.length).map (fun j => (b.alone j).1) ∧
      ∃ cw ls, b.Coupled cache
          ⟨(run cache { b.settings with workers := w } b.naming picks b.files b.fs).2, cw⟩ ls ∧
        ∀ j < b.files.length, ls j = (b.alone j).2 := by
  obtain ⟨order, hperm, hres, ls, hc, hls⟩ := pool_run h hdoc (max w 1) picks
  rw [run_workers]
  exact ⟨by rw [hres, b.sort_alone hperm], _, ls, hc, hls⟩

omit hdoc in
/-- The results of the jobs alone, with a tree coupled to the trees they leave, settle the batch. -/
theorem settles {fs' : FileSystem} {cw : C} {ls : Nat → FileSystem}
    (hc : b.Coupled cache ⟨fs', cw⟩ ls) (hls : ∀ j < b.files.length, ls j = (b.alone j).2) :
    b.Settles ((List.range b.files.length).map fun j => (b.alone j).1) fs' where
  index := by simp [List.map_map, Function.comp_def, fun j => (b.alone_reports j).index]
  filePath := by
    simp only [List.map_map, Function.comp_def, fun j => (b.alone_reports j).filePath]
    exact b.files_eq
  written r hr hwr := by
    obtain ⟨j, hj, rfl⟩ := List.mem_map.mp hr
    have hj := List.mem_range.mp hj
    have hw : b.Writes j := ⟨hj, (b.alone_reports j).written hwr⟩
    obtain ⟨f, hf, hc'⟩ := alone_written h hw hwr
    refine ⟨f, ?_, by rw [(b.alone_reports j).outcome, hc']⟩
    rw [(b.alone_reports j).filePath, ← place, hc.mine j _ (.inl ⟨hw, rfl⟩), hls j hj, hf]
  writes r hr := by
    obtain ⟨j, -, rfl⟩ := List.mem_map.mp hr
    rw [(b.alone_reports j).outcome]
    exact (b.alone_reports j).writes
  untouched r hr hwr herr := by
    obtain ⟨j, hj, rfl⟩ := List.mem_map.mp hr
    have hj := List.mem_range.mp hj
    -- a job that neither writes nor fails has nothing to write, so no job has its place
    have hnw : ¬ b.Writes j := fun hw => by
      rcases (b.alone_reports j).writes hw.2 with hw' | he
      · rw [hwr] at hw'
        cases hw'
      · rw [herr] at he
        cases he
    rw [(b.alone_reports j).filePath, ← place]
    exact hc.off _ fun i hi => hnw (h.mine_place hj hi ▸ hi).writes
  outside := hc.off
  dry hdry := by
    have hnw : ∀ j, ¬ b.Writes j := fun j hw => by
      rw [hw.2.1] at hdry
      cases hdry
    refine ⟨fun r hr => ?_, hc.cwd, fun a => hc.off a fun j hj => hnw j hj.writes⟩
    obtain ⟨j, hj, rfl⟩ := List.mem_map.mp hr
    cases hwr : (b.alone j).1.written with
    | false => rfl
    | true => exact absurd ⟨List.mem_range.mp hj, (b.alone_reports j).written hwr⟩ (hnw j)

end Setup

/-- A batch whose jobs are kept apart ends, with any number of workers and whatever the schedule,
    with the results and the tree of the batch that runs its jobs one after another; one result
    for each file, in order, the new content in each file reported written, every file reported
    neither written nor failed as it was, nothing changed away from the jobs' places, and nothing
    written in a dry run. -/
theorem run_any_schedule {C : Type} (cache : ExistsCache C) (hdoc : cache.Documented)
    (s : BatchSettings) (naming : Naming) (files : List Path) (fs : FileSystem)
    (h : (Setup.mk s naming files fs).Apart) (picks : List Nat) :
    (run cache s naming picks files fs).1 = (run cache { s with workers := 1 } naming [] files fs).1 ∧
      (run cache s naming picks files fs).2.Same
        (run cache { s with workers := 1 } naming [] files fs).2 ∧
      (Setup.mk s naming files fs).Settles (run cache s naming picks files fs).1
        (run cache s naming picks files fs).2 := by
  obtain ⟨hres, cw, ls, hc, hls⟩ := Setup.run_eq_alone h hdoc s.workers picks
  obtain ⟨hres1, cw1, ls1, hc1, hls1⟩ := Setup.run_eq_alone h hdoc 1 []
  have hsame := Setup.Coupled.same hc hc1 fun j hj => (hls j hj).trans (hls1 j hj).symm
  refine ⟨hres.trans hres1.symm, hsame, ?_⟩
  rw [hres]
  exact Setup.settles h hc hls

/-- A project at `/w` whose `@/` specifiers lead to `/w/src`, compiled to `/w/dist`. -/
def projectLayout : Layout :=
  ⟨[⟨Bytes.ofString "@/", [Bytes.ofString "/w/src"]⟩], Bytes.ofString "/w/src",
    Bytes.ofString "/w/dist"⟩

/-- The project's tree, working in `/w`: two compiled files, each importing its own module
    through the alias. -/
def projectTree : FileSystem where
  cwd := Bytes.ofString "/w"
  nodes := [(Bytes.ofString "/w", .directory), (Bytes.ofString "/w/dist", .directory),
    (Bytes.ofString "/w/dist/a.js", .file ⟨Bytes.ofString "import x from '@/x';\n", 420⟩),
    (Bytes.ofString "/w/dist/b.js", .file ⟨Bytes.ofString "import y from '@/y';\n", 420⟩),
    (Bytes.ofString "/w/src", .directory), (Bytes.ofString "/w/src/x.ts", .file ⟨[], 420⟩),
    (Bytes.ofString "/w/src/y.ts", .file ⟨[], 420⟩)]

/-- Two workers keeping backups stamped `1` over the project's compiled files, one named from the
    root and one from `/w`. -/
def projectBatch : Setup :=
  ⟨{ layout := projectLayout, backup := true, workers := 2 }, Naming.ofStamp (Bytes.ofString "1"),
    [Bytes.ofString "/w/dist/a.js", Bytes.ofString "dist/b.js"], projectTree⟩

theorem projectTree_no_link {q t : Path} : projectTree.node? q ≠ some (.symlink t) := by
  intro h
  rcases mem_of_node? h with rfl | hmem
  · simp [node?] at h
  · simp [projectTree] at hmem

/-- The names the project's batch makes up: each file's backup name and its temporary name. -/
def projectMade : List Bytes :=
  [0, 1].flatMap fun j => [Backup.nameFor (projectBatch.file j) (Bytes.ofString "1"),
    tempName (projectBatch.file j) 0]

theorem projectBatch_made {x : Bytes} (hx : projectBatch.Made x) : x ∈ projectMade := by
  obtain ⟨j, hw, hx⟩ := hx
  have hj : j < 2 := hw.lt
  -- every random number is 0, so each file has one temporary name
  have hrandom : ∀ k, projectBatch.naming.random j k = 0 := fun _ => rfl
  simp only [hrandom] at hx
  interval_cases j <;> rcases hx with ⟨-, rfl⟩ | ⟨k, -, rfl⟩ <;> decide +kernel

/-- Where the project's job `i` makes entries: its backup's place and its temporary file's. -/
def projectOwn (i : Nat) : List Path :=
  [projectTree.walk (projectBatch.backupPath i), projectTree.walk (projectBatch.tempPath i 0)].filterMap
    Except.toOption

theorem projectBatch_own {i : Nat} {a : Path} (ho : projectBatch.Own i a) :
    i < 2 ∧ a ∈ projectOwn i := by
  obtain ⟨hw, ⟨-, hb⟩ | ⟨k, -, ht⟩⟩ := ho
  · refine ⟨hw.lt, List.mem_filterMap.mpr ⟨projectTree.walk (projectBatch.backupPath i), by simp, ?_⟩⟩
    rw [show projectTree.walk (projectBatch.backupPath i) = .ok a from hb]
    rfl
  · -- every try at a temporary file has the same name
    refine ⟨hw.lt, List.mem_filterMap.mpr ⟨projectTree.walk (projectBatch.tempPath i 0), by simp, ?_⟩⟩
    rw [show projectTree.walk (projectBatch.tempPath i 0) = .ok a from ht]
    rfl

theorem projectBatch_apart : projectBatch.Apart where
  tree := ⟨by decide +kernel, by decide +kernel, by decide +kernel, by decide +kernel,
    by decide +kernel⟩
  paths j hj x hx hm := by
    have hpaths : ∀ j < 2, ∀ x ∈ Path.pieces (projectBatch.file j), x ∉ projectMade := by
      decide +kernel
    exact hpaths j hj x hx (projectBatch_made hm)
  links _ _ hq := absurd hq projectTree_no_link
  made ks x hks hx := by
    refine .inl (Option.eq_none_iff_forall_ne_some.mpr fun n hn => ?_)
    -- a made-up name is the name of no entry of the tree
    have hbase := Path.base_rooted_snoc ks (hks x (by simp))
    have hnot : ∀ q ∈ [Path.slash] :: projectTree.nodes.map (·.1), Path.base q ∉ projectMade := by
      decide +kernel
    rcases mem_of_node? hn with hq | hmem
    · rw [hq] at hbase
      exact hnot _ List.mem_cons_self (by rw [hbase]; exact projectBatch_made hx)
    · exact hnot _ (List.mem_cons_of_mem _ (List.mem_map_of_mem hmem))
        (by rw [hbase]; exact projectBatch_made hx)
  files i j hi hj _ hpl := by
    have hplaces : ∀ i < 2, ∀ j < 2, projectBatch.place i = projectBatch.place j → i = j := by
      decide +kernel
    exact hplaces i hi.lt j hj hpl
  entry _ _ _ _ _ := projectTree_no_link
  own i j a hi hj := by
    obtain ⟨hi2, hia⟩ := projectBatch_own hi
    obtain ⟨hj2, hja⟩ := projectBatch_own hj
    have hdisj : ∀ i < 2, ∀ j < 2, ∀ a ∈ projectOwn i, a ∈ projectOwn j → i = j := by
      decide +kernel
    exact hdisj i hi2 j hj2 a hia hja
  stamps _ _ _ := show Path.slash ∉ Bytes.ofString "1" by decide +kernel
  probes j hj content hc p hp a ha i ho := by
    obtain ⟨hi, hia⟩ := projectBatch_own ho
    have hprobes : ∀ j < 2, ∀ c ∈ (projectTree.readBytes (projectBatch.file j)).toOption,
        ∀ p ∈ (FileOutcome.compute projectLayout ProbePlan.probe (projectBatch.file j) c).asked
          projectTree.Exists, ∀ i < 2, ∀ a ∈ (projectTree.resolve p).toOption, a ∉ projectOwn i := by
      decide +kernel
    have hc' : projectTree.readBytes (projectBatch.file j) = .ok content := hc
    have ha' : projectTree.resolve p = .ok a := ha
    exact hprobes j hj content (by rw [hc']; rfl) p hp i hi a (by rw [ha']; rfl) hia

theorem run_any_schedule_project :
    ProbeCache.lru.Documented ∧ projectBatch.Apart ∧
      (run ProbeCache.lru projectBatch.settings projectBatch.naming (firstReads 2) projectBatch.files
          projectBatch.fs).1 =
        (run ProbeCache.lru { projectBatch.settings with workers := 1 } projectBatch.naming []
          projectBatch.files projectBatch.fs).1 ∧
      (run ProbeCache.lru projectBatch.settings projectBatch.naming (firstReads 2) projectBatch.files
          projectBatch.fs).2.Same
        (run ProbeCache.lru { projectBatch.settings with workers := 1 } projectBatch.naming []
          projectBatch.files projectBatch.fs).2 ∧
      projectBatch.Settles
        (run ProbeCache.lru projectBatch.settings projectBatch.naming (firstReads 2) projectBatch.files
          projectBatch.fs).1
        (run ProbeCache.lru projectBatch.settings projectBatch.naming (firstReads 2) projectBatch.files
          projectBatch.fs).2 :=
  ⟨ProbeCache.lru_documented, projectBatch_apart,
    run_any_schedule ProbeCache.lru ProbeCache.lru_documented _ _ _ _ projectBatch_apart (firstReads 2)⟩

/-- A run whose jobs finish in the order of their numbers keeps that order. -/
theorem run_of_finished_in_order {C : Type} (cache : ExistsCache C) (s : BatchSettings)
    (naming : Naming) (picks : List Nat) (files : List Path) (fs : FileSystem)
    (h : (((Pool.start (max s.workers 1) ⟨fs, cache.empty s.cacheSize⟩
      ((Setup.mk s naming files fs).jobs cache)).run (max s.workers 1) picks).1.map
        (·.index)).Pairwise (· ≤ ·)) :
    (run cache s naming picks files fs).1 = ((Pool.start (max s.workers 1) ⟨fs, cache.empty s.cacheSize⟩
      ((Setup.mk s naming files fs).jobs cache)).run (max s.workers 1) picks).1 :=
  List.mergeSort_of_pairwise ((List.pairwise_map.mp h).imp fun hle => decide_eq_true hle)

/-- Two paths of one file make two jobs that write it: with two workers each reads the file first,
    and both write it, where one worker after the other leaves the second nothing to change. -/
theorem run_aliased_file_rewritten :
    (run ProbeCache.lru { layout := projectLayout, workers := 2 } (Naming.ofStamp (Bytes.ofString "1"))
        (firstReads 2) [Bytes.ofString "/w/dist/a.js", Bytes.ofString "/w/dist/./a.js"]
        projectTree).1.map (·.written) = [true, true] ∧
      (run ProbeCache.lru { layout := projectLayout, workers := 1 } (Naming.ofStamp (Bytes.ofString "1"))
        [] [Bytes.ofString "/w/dist/a.js", Bytes.ofString "/w/dist/./a.js"]
        projectTree).1.map (·.written) = [true, false] := by
  rw [run_of_finished_in_order _ _ _ _ _ _ (by decide +kernel),
    run_of_finished_in_order _ _ _ _ _ _ (by decide +kernel)]
  decide +kernel

/-- A file named as another's backup: with two workers its job reads it before the backup is made
    and finds nothing, where one worker after the other reads the backup and writes it. -/
theorem run_backup_named_file_read_early :
    (run ProbeCache.lru { layout := projectLayout, backup := true, workers := 2 }
        (Naming.ofStamp (Bytes.ofString "1")) (firstReads 2)
        [Bytes.ofString "/w/dist/a.js", Bytes.ofString "/w/dist/a.js.1.bak"] projectTree).1.map
        (·.written) = [true, false] ∧
      (run ProbeCache.lru { layout := projectLayout, backup := true, workers := 1 }
        (Naming.ofStamp (Bytes.ofString "1")) []
        [Bytes.ofString "/w/dist/a.js", Bytes.ofString "/w/dist/a.js.1.bak"] projectTree).1.map
        (·.written) = [true, true] := by
  rw [run_of_finished_in_order _ _ _ _ _ _ (by decide +kernel),
    run_of_finished_in_order _ _ _ _ _ _ (by decide +kernel)]
  decide +kernel

end Batch

end Unalias
