import Unalias.Backup
import Unalias.Job
import Unalias.ProbeCache
import Unalias.Prog

/-! # Processing compiled files in a batch

A batch processes a list of compiled files as numbered jobs. A job reads its file, resolves the
file's specifiers, and, when the content changed and the run writes, keeps a backup if asked and
then replaces the file: the new content goes to a temporary file beside it, named with a random
number, which gets the old file's permissions and is renamed over the file. When that fails after
a backup was made, the backup is copied back.

A job is written once for any way of making its system calls (`Batch.job`). In a batch each call,
and each lookup in or addition to the existence cache the jobs share, is one atomic step on the
state they share (`World`). At most `workers` jobs run at a time, started in order as they make
room; which running job takes the next step is up to the schedule, a list of picks, and once the
picks run out the jobs left finish one after another (`Pool.run`). The results are sorted by job
number.
-/

namespace Unalias

/-- How a batch runs. -/
structure BatchSettings where
  /-- Where aliases point and where sources and outputs live. -/
  layout : Layout
  /-- Whether changed files are left unwritten. -/
  dryRun : Bool := false
  /-- Whether a backup is kept before a file is written. -/
  backup : Bool := false
  /-- How many jobs may run at once. -/
  workers : Nat := 1
  /-- The size of the existence cache. -/
  cacheSize : Int := 0

/-- The names a batch makes up: job `i` stamps its backup `stamp i`, and its `k`-th try at a
    temporary file uses the random number `random i k`. -/
structure Naming where
  /-- The stamp of each job's backup. -/
  stamp : Nat → Bytes
  /-- The random numbers each job draws. -/
  random : Nat → Nat → UInt32

/-- The names of a run with one stamp: every backup has it, and every random number, which the
    system draws, is taken to be the same. -/
def Naming.ofStamp (stamp : Bytes) : Naming := ⟨fun _ => stamp, fun _ _ => 0⟩

/-- The state the jobs of a batch share: the file system and the existence cache. -/
structure World (C : Type) where
  /-- The file system. -/
  fs : FileSystem
  /-- The existence cache. -/
  cache : C

namespace World

variable {C : Type}

/-- Each system call as one step on the file system. -/
def calls : Syscalls (Prog (World C)) :=
  ⟨fun c => Prog.atomic fun w => let r := c w.fs; (r.1, { w with fs := r.2 })⟩

/-- The existence check of a batch: the shared cache, then the file system on a miss, then the
    cache again to add the answer, each one step. -/
def check (cache : ExistsCache C) : Path → Prog (World C) Bool :=
  cachedCheck
    (fun p => Prog.atomic fun w => let r := cache.get? w.cache p; (r.1, { w with cache := r.2 }))
    (fun p b => Prog.atomic fun w => ((), { w with cache := cache.add w.cache p b }))
    (fun p => Prog.atomic fun w => (w.fs.Exists p, w))

end World

/-- Jobs sharing a state: the state, the running jobs and the waiting ones, each with its number,
    and the values of the jobs done, in the order they finished. -/
structure Pool (σ α : Type) where
  /-- The shared state. -/
  world : σ
  /-- The jobs running. -/
  running : List (Nat × Prog σ α)
  /-- The jobs not started yet, in order. -/
  waiting : List (Nat × Prog σ α)
  /-- The values of the jobs done. -/
  finished : List α

namespace Pool

variable {σ α : Type}

/-- The waiting jobs started in order while fewer than `w` run. -/
def fill (w : Nat) :
    List (Nat × Prog σ α) → List (Nat × Prog σ α) → List (Nat × Prog σ α) × List (Nat × Prog σ α)
  | running, [] => (running, [])
  | running, j :: rest =>
    if running.length < w then fill w (running ++ [j]) rest else (running, j :: rest)

/-- A pool of at most `w` running jobs on a state. -/
def start (w : Nat) (world : σ) (jobs : List (Nat × Prog σ α)) : Pool σ α :=
  let started := fill w [] jobs
  ⟨world, started.1, started.2, []⟩

/-- One pick of the schedule: the running job at `pick`, counted round the running jobs, takes
    its step; a job that is done leaves, and waiting jobs start in its place. -/
def tick (w : Nat) (p : Pool σ α) (pick : Nat) : Pool σ α :=
  let k := pick % p.running.length
  match p.running[k]? with
  | none => p
  | some (_, .done a) =>
    let started := fill w (p.running.eraseIdx k) p.waiting
    ⟨p.world, started.1, started.2, p.finished ++ [a]⟩
  | some (i, .step eff next) =>
    { p with world := eff p.world, running := p.running.set k (i, next p.world) }

/-- Jobs run alone, one after another, from a state: their values, and the state they leave. -/
def drain : List (Nat × Prog σ α) → σ → List α × σ
  | [], s => ([], s)
  | (_, x) :: rest, s =>
    let first := x.runAlone s
    let others := drain rest first.2
    (first.1 :: others.1, others.2)

/-- The pool run by the schedule `picks`, then to the end with its jobs one after another: the
    values of its jobs in the order they finished, and the state they leave. -/
def run (w : Nat) : List Nat → Pool σ α → List α × σ
  | [], p =>
    let rest := drain (p.running ++ p.waiting) p.world
    (p.finished ++ rest.1, rest.2)
  | pick :: picks, p => run w picks (p.tick w pick)

end Pool

namespace Batch

/-- How many names a job tries for its temporary file. -/
def tempTries : Nat := 10000

/-- A directory and a name joined as for a temporary file: with a slash between them, unless the
    directory ends with one. -/
def joinTemp (dir name : Path) : Path :=
  if dir.getLast? = some Path.slash then dir ++ name else dir ++ Path.slash :: name

/-- What the temporary names of a file start with: a dot, the file's name and a dot. -/
def tempStem (file : Path) : Bytes := Path.dot :: Path.base file ++ [Path.dot]

/-- The temporary name of a file with a random number. -/
def tempName (file : Path) (n : UInt32) : Bytes :=
  tempStem file ++ Bytes.ofNat n.toNat ++ Bytes.ofString ".tmp"

section Calls

variable {m : Type → Type} [Monad m] (sys : Syscalls m)

/-- A temporary file made beside `file` with the random numbers `random k`, `random (k + 1)`, …:
    it is made, empty and for its owner only, under the first name where nothing is yet, trying
    at most `tries` names. -/
def createTemp (file : Path) (random : Nat → UInt32) : Nat → Nat → ExceptT Failure m Path
  | 0, _ =>
    throw (.plain (Bytes.ofString "createtemp " ++
      joinTemp (Path.dir file) (tempStem file ++ Bytes.ofString "*.tmp") ++
      Bytes.ofString ": file already exists"))
  | tries + 1, k => do
    let temp := joinTemp (Path.dir file) (tempName file (random k))
    match ← sys.lift.call (Call.createExclusive temp 0o600) with
    | .ok () => pure temp
    | .error .alreadyExists => createTemp file random tries (k + 1)
    | .error e => throw (.system "open" temp e)

/-- Runs `x`, then `last` whatever became of `x`, and ends as `x` ended. -/
def thenAlways {α : Type} (x : ExceptT Failure m α) (last : m Unit) : ExceptT Failure m α :=
  ExceptT.mk do
    let r ← x.run
    last
    pure r

/-- The file replaced by a new one with the new content and the old file's permissions: the
    content goes to a temporary file beside it, which is renamed over the file and removed in any
    case. -/
def replaceContent (random : Nat → UInt32) (cwd file : Path) (content : Bytes) :
    ExceptT Failure m Unit := do
  let node ← match ← sys.lift.call (Call.stat file) with
    | .ok n => pure n
    | .error e => throw (Failure.ofFile cwd file (.system "stat" file e))
  let notWritable (cause : Failure) : Failure :=
    Failure.make .fileNotWritable file "file not writable" (some cause)
  let temp ← tryCatch (createTemp sys file random tempTries 0) fun e => throw (notWritable e)
  thenAlways (do
      if let .error e ← sys.lift.call (Call.writeFile temp content 0o600) then
        throw (notWritable (.system "write" temp e))
      if let .error e ← sys.lift.call (Call.chmod temp (FileSystem.permissions node &&& 0o777)) then
        throw (notWritable (.system "chmod" temp e))
      if let .error e ← sys.lift.call (Call.rename temp file) then
        throw (notWritable (.plain (Bytes.ofString "rename " ++ temp ++ [32] ++ file ++
          Bytes.ofString (": " ++ e.text)))))
    (do let _ ← sys.call (Call.remove temp))

/-- The part of job `i` that changes the file system, once the outcome for its file is known. -/
def commit (s : BatchSettings) (naming : Naming) (cwd : Path) (i : Nat) (file : Path)
    (outcome : FileOutcome) : m JobResult := do
  let result : JobResult := { index := i, filePath := file, outcome := some outcome }
  match outcome.error, outcome.content with
  | some e, _ => return { result with error := some (.wrapped file (.plain e.message)) }
  | none, none => return result
  | none, some content =>
    if !outcome.modified || s.dryRun then return result
    match ← (Backup.create sys s.backup (naming.stamp i) file).run with
    | .error e => return { result with error := some e }
    | .ok backupPath =>
      let result := { result with backupPath }
      match ← (replaceContent sys (naming.random i) cwd file content).run with
      | .ok () => return { result with written := true }
      | .error e =>
        if !backupPath.isEmpty then
          let _ ← (Backup.restore sys file backupPath).run
        return { result with error := some e }

/-- Job `i` on `file`, resolving specifiers with the existence check `check`, in the working
    directory `cwd`. -/
def job (check : Path → m Bool) (s : BatchSettings) (naming : Naming) (cwd : Path) (i : Nat)
    (file : Path) : m JobResult := do
  match ← sys.call (Call.readBytes file) with
  | .error e => return { index := i, filePath := file, error := some (Failure.ofFile cwd file e) }
  | .ok content => commit sys s naming cwd i file (← FileOutcome.compute s.layout check file content)

end Calls

/-- The schedule of a run with `w` workers: each job first started reads its file before any job
    goes on. -/
def firstReads (w : Nat) : List Nat := List.range w

/-- The results of a batch of `files`, sorted by job number, and the file system it leaves. The
    jobs share the existence cache `cache`, which starts empty; at most `s.workers` run at a time
    (one when none is set), interleaved as `picks` chooses. -/
def run {C : Type} (cache : ExistsCache C) (s : BatchSettings) (naming : Naming)
    (picks : List Nat) (files : List Path) (fs : FileSystem) : List JobResult × FileSystem :=
  let w := max s.workers 1
  let jobs := files.zipIdx.map fun (file, i) =>
    (i, job World.calls (World.check cache) s naming fs.cwd i file)
  let ended := (Pool.start w ⟨fs, cache.empty s.cacheSize⟩ jobs).run w picks
  (ended.1.mergeSort fun a b => a.index ≤ b.index, ended.2.fs)

end Batch

end Unalias
