import Unalias.Failure
import Unalias.Outcome

/-! # Jobs of a run

A run processes its compiled files as numbered jobs. The result of a job says what became of
the file: the outcome of resolving its specifiers when the file could be read, the backup made
before writing it, whether it was written, and the failure that stopped the job, if any.
-/

namespace Unalias

/-- The result of processing one compiled file. -/
structure JobResult where
  /-- The job's place in the order the files were found. -/
  index : Nat
  /-- The file. -/
  filePath : Path
  /-- What its specifiers came to, when it could be read. -/
  outcome : Option FileOutcome := none
  /-- The backup made before writing, empty when none. -/
  backupPath : Path := []
  /-- Whether the new content was written. -/
  written : Bool := false
  /-- What stopped the job. -/
  error : Option Failure := none
  deriving Repr

end Unalias
