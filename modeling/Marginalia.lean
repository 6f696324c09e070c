import Marginalia.Brace
import Marginalia.Comment.Find
import Marginalia.Comment.Label
import Marginalia.Comment.Pattern
import Marginalia.Disk.Edit
import Marginalia.Ignore.Match
import Marginalia.Index.Basic
import Marginalia.LeakReport
import Marginalia.Main
import Marginalia.Options.Read
import Marginalia.Outline
import Marginalia.Program
import Marginalia.Results
import Marginalia.Settings.Load
import Marginalia.Walk
import Marginalia.Workspace.Refresh
import Marginalia.Yaml.Value
import Marginalia.Proofs.Comment.Place
import Marginalia.Proofs.Comment.Search
import Marginalia.Proofs.Comment.Grammar
import Marginalia.Proofs.Comment.Returns
import Marginalia.Index.Overlap
import Marginalia.Proofs.Index.Generation
import Marginalia.Proofs.Disk.Tree
import Marginalia.Proofs.Walk.Trail
import Marginalia.Proofs.Walk.Eligible
import Marginalia.Proofs.Record
import Marginalia.Proofs.Text.Order
import Marginalia.Proofs.Walk.Limit
import Marginalia.Proofs.Index.Contents
import Marginalia.Proofs.Workspace.Rebuild
import Marginalia.Proofs.Workspace.Schedule
import Marginalia.Proofs.Path.Normal
import Marginalia.Workspace.Session
import Marginalia.Proofs.Workspace.Nesting
import Marginalia.Proofs.Workspace.UpToDate
import Marginalia.Proofs.Workspace.Deeds
import Marginalia.Proofs.Workspace.Faults
import Marginalia.Workspace.Rounds
import Marginalia.Proofs.Workspace.LastCall
import Marginalia.Proofs.Workspace.Session
import Marginalia.Proofs.Path.Relative
import Marginalia.Proofs.Ignore.Below
import Marginalia.Proofs.Ignore.Rules
import Marginalia.Proofs.Walk.Pruning
import Marginalia.Proofs.LeakReport
import Marginalia.Proofs.Program
import Marginalia.Proofs.Json.Decode
import Marginalia.Proofs.Results
import Marginalia.Proofs.Text.Position
import Marginalia.Proofs.Comment.Leading
import Marginalia.Proofs.Disk.Reordered
import Marginalia.Proofs.Walk.Order
import Marginalia.Proofs.Text.Utf8
import Marginalia.Proofs.Brace.Grammar
import Marginalia.Proofs.Brace.Meaning
import Marginalia.Proofs.Walk.Further
import Marginalia.Proofs.Comment.Label
import Marginalia.Proofs.Rows
import Marginalia.Workspace.Ledger
import Marginalia.Proofs.Workspace.Ledger
import Marginalia.Proofs.Comment.Excerpt
import Marginalia.Proofs.Path.Deepest
import Marginalia.Proofs.Walk.Shown
import Marginalia.Proofs.Brace.Settled
import Marginalia.Proofs.Settings.InForce
import Marginalia.Proofs.Settings.Load
