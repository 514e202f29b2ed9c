import Unalias.Bytes
import Unalias.Path
import Unalias.Text.Printable
import Unalias.Text.Quoted
import Unalias.Specifier
import Unalias.Edit
import Unalias.Alias
import Unalias.ProbeCache
import Unalias.Resolution
import Unalias.Outcome
import Unalias.FileSystem
import Unalias.Failure
import Unalias.Json.Value
import Unalias.Json.Parse
import Unalias.Json.Comments
import Unalias.Project.Document
import Unalias.Project.Load
import Unalias.Project.Settings
import Unalias.Options
import Unalias.Glob
import Unalias.Discovery
import Unalias.Text.Space
import Unalias.Json.Print
import Unalias.Duration
import Unalias.Csv
import Unalias.Job
import Unalias.RunLog
import Unalias.FileSystem.Action
import Unalias.Report
import Unalias.Backup
import Unalias.Replay
import Unalias.Prog
import Unalias.Batch
import Unalias.Command.Value
import Unalias.Command.Flag
import Unalias.Command.Parse
import Unalias.Command.Tree
import Unalias.Command.Complete
import Unalias.Command.Script
import Unalias.Command.Help
import Unalias.Command.Run
import Unalias.Main
import Unalias.Proofs.Scan
import Unalias.Proofs.Edits
import Unalias.Proofs.ProbePlan
import Unalias.Proofs.Outcome
import Unalias.Proofs.ProbeCache
import Unalias.Proofs.ProbeOrder
import Unalias.Proofs.Splice
import Unalias.Proofs.Match
import Unalias.Proofs.Rescan
import Unalias.Proofs.Build
import Unalias.Proofs.Remap
import Unalias.Proofs.RoundTrip
import Unalias.Proofs.Idempotence
import Unalias.Proofs.Extends
import Unalias.Proofs.AliasDeclarations
import Unalias.Proofs.Utf8
import Unalias.Proofs.Decimal
import Unalias.Proofs.JsonRoundTrip
import Unalias.Proofs.JsonReport
import Unalias.Proofs.CsvRoundTrip
import Unalias.Proofs.CsvReport
import Unalias.Proofs.Separated
import Unalias.Proofs.Replacing
import Unalias.Proofs.Position
import Unalias.Proofs.ClosedForm
import Unalias.Proofs.EditApplication
import Unalias.Proofs.RootedPath
import Unalias.Proofs.RelativeSpecifier
import Unalias.Proofs.Walk
import Unalias.Proofs.FileOps
import Unalias.Proofs.Remapping
import Unalias.Proofs.AliasTable
import Unalias.Proofs.EditErrors
import Unalias.Proofs.HintTable
import Unalias.Proofs.ReplayShift
import Unalias.Proofs.RunTotals
import Unalias.Proofs.DirectoryTree
import Unalias.Proofs.FoundFiles
import Unalias.Proofs.Interleaving
import Unalias.Proofs.Pool
import Unalias.Proofs.Outline
import Unalias.Proofs.CallFrames
import Unalias.Proofs.JobFootprint
import Unalias.Proofs.JobAlone
import Unalias.Proofs.JobReport
import Unalias.Proofs.Schedule
