import Unalias.Backup
import Unalias.Edit
import Unalias.Report

/-! # Replaying a report

A report records, for each changed file, where each replaced specifier stood before the run and
where its replacement stands after it. Replaying the report forward makes the replacements again
on the files as they were before the run; replaying it backward undoes them on the files as the
run left them. Reverting a file uses its backup instead when the backup still exists.

Only specifiers at recorded offsets are touched, so a specifier elsewhere that happens to equal a
recorded one stays as it is. When the file has shifted since the run, one uniform shift that
puts every recorded specifier on a specifier of the file again is accepted; when no shift or
more than one does, the file is left alone and the replay fails for it.

Files the report marks as unchanged or failed are passed over. A replay goes on past a file
that fails and reports how many succeeded, with the first failure.
-/

namespace Unalias

/-- Which way a report is replayed. -/
inductive Direction where
  /-- From the content before the run to the content after it. -/
  | forward
  /-- From the content after the run back to the content before it. -/
  | backward
  deriving DecidableEq, Repr

/-- The hint a recorded replacement gives when replayed in a direction: where the specifier to
    replace stands, with the edit that replaces it. -/
def RecordedReplacement.hint : Direction → RecordedReplacement → Int × Edit
  | .forward, r => (r.offset, ⟨r.offset, r.before, r.after⟩)
  | .backward, r => (r.newOffset, ⟨r.newOffset, r.after, r.before⟩)

namespace Hints

/-- The hints with one set at its offset, in place of one set there before. -/
def set (hints : Hints) (h : Int × Edit) : Hints :=
  hints.filter (·.1 != h.1) ++ [h]

/-- Whether every hint, moved by `delta`, sits on a specifier of the file that is its `old`. -/
def MatchAt (occurrences : List Occurrence) (hints : Hints) (delta : Int) : Bool :=
  hints.all fun h => occurrences.any fun o => (o.start : Int) == h.1 + delta && o.value == h.2.old

/-- The hints moved by `delta`. -/
def shift (hints : Hints) (delta : Int) : Hints :=
  hints.map fun h => (h.1 + delta, { h.2 with offset := h.1 + delta })

/-- The one shift under which all hints sit on their specifiers, found by trying each specifier
    equal to the `old` of the hint with the least offset; none when no shift or several do. -/
def findShift (occurrences : List Occurrence) (hints : Hints) : Option Int :=
  match hints with
  | [] => none
  | h :: hs =>
    let first := hs.foldl (fun m x => min m x.1) h.1
    let old := (((h :: hs).find? (·.1 == first)).map (·.2.old)).getD []
    let fits := occurrences.filter fun o =>
      o.value == old && MatchAt occurrences hints ((o.start : Int) - first)
    match fits with
    | [o] => some ((o.start : Int) - first)
    | _ => none

end Hints

namespace Replay

/-- The hints of a file's recorded replacements in a direction; a later replacement at an offset
    takes the place of an earlier one. A replacement without a recorded offset is a failure. -/
def hintsOf (dir : Direction) (file : Path) (rs : List RecordedReplacement) :
    Except Failure Hints :=
  rs.foldlM (fun hints r =>
    let h := r.hint dir
    if h.1 < 0 then
      .error (.tool .backup file (Bytes.ofString "no offset recorded for " ++ h.2.old) none)
    else .ok (hints.set h)) []

/-- The content of a file after replaying its recorded replacements in a direction; none when
    nothing is recorded, so that nothing is written. -/
def content (dir : Direction) (file : Path) (rs : List RecordedReplacement) (before : Bytes) :
    Except Failure (Option Bytes) := do
  let hints ← hintsOf dir file rs
  if hints.isEmpty then return none
  let occurrences := scan before
  let placed ← if Hints.MatchAt occurrences hints 0 then pure hints
    else match Hints.findShift occurrences hints with
      | some delta => pure (hints.shift delta)
      | none => throw (Failure.make .backup file "logged specifiers no longer match the file")
  return some (remap before [] placed).1

/-- A recorded file replayed in a direction, on the file system. -/
def replayFile (dir : Direction) (entry : RecordedFile) : FsAction Unit := do
  let fs ← get
  let node ← match fs.stat entry.path with
    | .ok n => pure n
    | .error e => throw (Failure.ofFile fs.cwd entry.path (.system "stat" entry.path e))
  let before ← match fs.readBytes entry.path with
    | .ok c => pure c
    | .error e => throw (Failure.ofFile fs.cwd entry.path e)
  match ← FsAction.ofExcept (content dir entry.path entry.replacements before) with
  | none => pure ()
  | some after =>
    match fs.writeFile entry.path after (FileSystem.permissions node) with
    | .ok fs => set fs
    | .error e =>
      throw (Failure.make .fileNotWritable entry.path "file not writable"
        (some (.system "open" entry.path e)))

end Replay

/-- What a replay does: revert a run, or apply it again. -/
inductive ReplayMode where
  /-- Undo the run: restore each file's backup when it exists, otherwise replay backward. -/
  | revert
  /-- Make the run's replacements again, replaying forward. -/
  | apply
  deriving DecidableEq, Repr

/-- The word that names the mode in messages. -/
def ReplayMode.word : ReplayMode → String
  | .revert => "revert"
  | .apply => "apply"

/-- How a replay ended: the files replayed, and the failure, if any. -/
structure ReplaySummary where
  /-- The files replayed without failure. -/
  done : Nat
  /-- The failure: the report could not be read, or some files failed. -/
  failure : Option Failure := none
  deriving Repr

namespace Replay

/-- One recorded file replayed in a mode. -/
def replayEntry : ReplayMode → RecordedFile → FsAction Unit
  | .revert, entry => do
    let fs ← get
    if !entry.backupPath.isEmpty && fs.Exists entry.backupPath then
      FsAction.ofCalls (Backup.restore Syscalls.alone entry.path entry.backupPath)
    else replayFile .backward entry
  | .apply, entry => replayFile .forward entry

/-- The recorded files that changed without failure replayed in order, going on past failures:
    the number replayed and the failures, in order. -/
def replayAll (mode : ReplayMode) (entries : List RecordedFile) : FsAction (Nat × List Failure) :=
  entries.foldlM (fun (done, failures) entry =>
    if !entry.modified || !entry.error.isEmpty then pure (done, failures)
    else
      tryCatch (do replayEntry mode entry; pure (done + 1, failures))
        (fun e => pure (done, failures ++ [e]))) (0, [])

/-- The report at `logPath`, written in `format` and read with the library `json`, replayed in a
    mode. -/
def run (json : JsonCodec) (mode : ReplayMode) (logPath : Path) (format : String) :
    FsAction ReplaySummary := do
  let fs ← get
  match Report.read json fs logPath format with
  | .error e => pure ⟨0, some e⟩
  | .ok entries =>
    let (done, failures) ← replayAll mode entries
    match failures with
    | [] => pure ⟨done, none⟩
    | first :: _ =>
      let word := mode.word
      let count := failures.length
      pure ⟨done, some (Failure.make .backup logPath
        s!"{word} completed with {done} successes and {count} errors" (some first))⟩

end Replay

end Unalias
