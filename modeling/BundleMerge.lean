import BundleMerge.Action
import BundleMerge.Asset
import BundleMerge.Asset.Read
import BundleMerge.Bridge
import BundleMerge.Collector
import BundleMerge.Command.Args
import BundleMerge.Command.Execute
import BundleMerge.Config
import BundleMerge.Config.Decode
import BundleMerge.Debounce
import BundleMerge.Disk.Basic
import BundleMerge.Disk.Copy
import BundleMerge.Disk.Error
import BundleMerge.Disk.Write
import BundleMerge.Failure
import BundleMerge.Glob
import BundleMerge.Json.Fault
import BundleMerge.Json.Printer
import BundleMerge.Json.Reader
import BundleMerge.Json.Skip
import BundleMerge.Json.Value
import BundleMerge.Log
import BundleMerge.Main
import BundleMerge.Manifest.File
import BundleMerge.Manifest.Merge
import BundleMerge.Merger
import BundleMerge.Number.Binary64
import BundleMerge.Number.Shortest
import BundleMerge.Options
import BundleMerge.Patch
import BundleMerge.Path
import BundleMerge.Proofs.Action.Failing
import BundleMerge.Proofs.Action.Parallel
import BundleMerge.Proofs.Action.Region
import BundleMerge.Proofs.Action.Repeat
import BundleMerge.Proofs.Action.Run
import BundleMerge.Proofs.Command.Watch
import BundleMerge.Proofs.Debounce.History
import BundleMerge.Proofs.Disk.Copy
import BundleMerge.Proofs.Disk.Descent
import BundleMerge.Proofs.Disk.Exact
import BundleMerge.Proofs.Disk.Failing
import BundleMerge.Proofs.Disk.Growth
import BundleMerge.Proofs.Disk.Listing
import BundleMerge.Proofs.Disk.Repeat
import BundleMerge.Proofs.Disk.Tree
import BundleMerge.Proofs.Disk.Walk
import BundleMerge.Proofs.Disk.Whole
import BundleMerge.Proofs.Disk.Write
import BundleMerge.Proofs.Json.Equality
import BundleMerge.Proofs.Json.Fields
import BundleMerge.Proofs.Json.Printer
import BundleMerge.Proofs.Json.Reader
import BundleMerge.Proofs.Manifest.Failing
import BundleMerge.Proofs.Manifest.File
import BundleMerge.Proofs.Manifest.Firsts
import BundleMerge.Proofs.Manifest.Keys
import BundleMerge.Proofs.Manifest.Merge
import BundleMerge.Proofs.Manifest.Normal
import BundleMerge.Proofs.Manifest.Precedence
import BundleMerge.Proofs.Manifest.Written
import BundleMerge.Proofs.Merger.Exclusion
import BundleMerge.Proofs.Merger.Failures
import BundleMerge.Proofs.Merger.Frame
import BundleMerge.Proofs.Merger.FullTree
import BundleMerge.Proofs.Merger.Order
import BundleMerge.Proofs.Merger.Parallel
import BundleMerge.Proofs.Merger.PerFile
import BundleMerge.Proofs.Merger.Repeat
import BundleMerge.Proofs.Merger.Staged
import BundleMerge.Proofs.Merger.Stages
import BundleMerge.Proofs.Merger.Staging
import BundleMerge.Proofs.Options
import BundleMerge.Proofs.Path.Absolute
import BundleMerge.Proofs.Path.Parts
import BundleMerge.Proofs.Path.Relative
import BundleMerge.Proofs.Path.Resolved
import BundleMerge.Proofs.Script.Blind
import BundleMerge.Proofs.Script.Complete
import BundleMerge.Proofs.Script.Declared
import BundleMerge.Proofs.Script.Depth
import BundleMerge.Proofs.Script.Ending
import BundleMerge.Proofs.Script.Followed
import BundleMerge.Proofs.Script.Guess
import BundleMerge.Proofs.Script.Lead
import BundleMerge.Proofs.Script.Plain
import BundleMerge.Proofs.Script.Prospects
import BundleMerge.Proofs.Script.Reading
import BundleMerge.Proofs.Script.Sketch
import BundleMerge.Proofs.Script.Splice
import BundleMerge.Proofs.Script.Statements
import BundleMerge.Proofs.Script.Walk
import BundleMerge.Proofs.Session.Attempt
import BundleMerge.Proofs.Session.Burst
import BundleMerge.Proofs.Session.Confined
import BundleMerge.Proofs.Session.Places
import BundleMerge.Proofs.Session.Queue
import BundleMerge.Proofs.Session.Spelling
import BundleMerge.Proofs.Text.Bytes
import BundleMerge.Script.Chars
import BundleMerge.Script.Cover
import BundleMerge.Script.Cursor
import BundleMerge.Script.Gap
import BundleMerge.Script.Grammar
import BundleMerge.Script.Lexeme
import BundleMerge.Script.Parse
import BundleMerge.Script.Rename
import BundleMerge.Script.Rule
import BundleMerge.Script.Token
import BundleMerge.Script.Tree
import BundleMerge.Session
import BundleMerge.Text.Blank
import BundleMerge.Text.Quoted
import BundleMerge.Toml.Document
import BundleMerge.Toml.Scalar
import BundleMerge.Toml.Value
import BundleMerge.Proofs.Bridge.Readable
import BundleMerge.Proofs.Bridge.Patched
import BundleMerge.Proofs.Config.Documented
import BundleMerge.Proofs.Script.Traversal
