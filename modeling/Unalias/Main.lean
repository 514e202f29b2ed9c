import Std.Time.Format
import Unalias.Command.Run

/-! # The executable

The command runs on a snapshot of the files it may touch: the paths of the tree's files are read
from the standard input, one a line, as a listing tool prints them; those files are read into a
file system value, with their directories; the run is computed on that value; and the files it
changed, made or removed are then written back. The clock gives the time each file is logged
at, the stamp of backup names and the processing time.
-/

namespace Unalias.Command

/-- The files at the listed paths read into the file system, each with the permissions
    rw-r--r--; a path that cannot be read is left out. -/
def loadFiles (fs : FileSystem) (paths : List String) : IO FileSystem :=
  paths.foldlM (fun fs (p : String) => do
    try
      let content ← IO.FS.readBinFile p
      return fs.addFile (Bytes.ofString p) ⟨content.toList, 0o644⟩
    catch _ => return fs) fs

/-- Writes back the files the run changed or made, and removes those it removed. -/
def storeChanges (before after : FileSystem) : IO Unit := do
  for (p, f) in after.files do
    let old := (before.files.find? (·.1 == p)).map (·.2.content)
    if old != some f.content then
      IO.FS.writeBinFile (Bytes.decode p) ⟨f.content.toArray⟩
  for (p, _) in before.files do
    if !(after.files.any (·.1 == p)) then
      IO.FS.removeFile (Bytes.decode p)

/-- The lines of the standard input. -/
partial def readLines (h : IO.FS.Stream) (acc : Array String) : IO (List String) := do
  let line ← h.getLine
  if line.isEmpty then return acc.toList
  readLines h (acc.push (String.ofList (line.toList.reverse.dropWhile (· == '\n')).reverse))

/-- The digits of a number, padded with zeros to a width. -/
def padded (width n : Nat) : String :=
  let s := toString n
  String.ofList (List.replicate (width - s.length) '0') ++ s

/-- The backup stamp of a time written `YYYY-MM-DDTHH:MM:SS…`: `YYYYMMDD_HHMMSS.ffffff`, with
    the microseconds given. -/
def stampOf (iso : String) (micros : Nat) : String :=
  let digits := iso.toList.filter Char.isDigit
  String.ofList (digits.take 8) ++ "_" ++ String.ofList ((digits.drop 8).take 6) ++ "." ++
    padded 6 micros

end Unalias.Command

open Unalias Unalias.Command in
/-- Runs the command on the files listed on the standard input and prints what it prints. -/
def main (args : List String) : IO UInt32 := do
  let started ← IO.monoNanosNow
  let cwd := Path.clean (Bytes.ofString (← IO.currentDir).toString)
  let listed ← readLines (← IO.getStdin) #[]
  let fs ← loadFiles (({ cwd, nodes := [] } : FileSystem).makeDirs cwd) (listed.filter (!·.isEmpty))
  let now ← Std.Time.DateTime.now
  let iso := now.toISO8601String
  let micros := now.nanosecond.val.toNat / 1000
  let finished ← IO.monoNanosNow
  let env : Surroundings :=
    { timestamp := iso, stamp := Bytes.ofString (stampOf iso micros),
      elapsed := (finished - started : Nat), defaultWorkers := maxWorkers }
  let outcome := run env (args.map Bytes.ofString) fs
  storeChanges fs outcome.console.fs
  (← IO.getStdout).write ⟨outcome.console.out.toArray⟩
  (← IO.getStderr).write ⟨outcome.console.err.toArray⟩
  return outcome.exitCode.toUInt32
