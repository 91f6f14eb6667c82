import Winnow.CommandLine.Arguments
import Winnow.CommandLine.Basic
import Winnow.Config.Basic
import Winnow.Config.File
import Winnow.Data.Basic
import Winnow.Data.Decode
import Winnow.Data.Plain
import Winnow.Descriptor
import Winnow.Discovery
import Winnow.Edge
import Winnow.Exclusion
import Winnow.FileSystem
import Winnow.Fingerprint
import Winnow.Glob
import Winnow.Graph.Basic
import Winnow.Graph.Cycle
import Winnow.Graph.Hierarchy
import Winnow.Graph.Resolution
import Winnow.Graph.Search
import Winnow.Graph.Stats
import Winnow.Incremental
import Winnow.Json.Printer
import Winnow.Json.Reader
import Winnow.Json.Token
import Winnow.KeepRule
import Winnow.Link.Basic
import Winnow.Link.Relink
import Winnow.Link.Unit
import Winnow.Main
import Winnow.Marking.Basic
import Winnow.Marking.Liveness
import Winnow.Marking.Remark
import Winnow.Mask
import Winnow.Modifiers
import Winnow.Node.Basic
import Winnow.Node.Codec
import Winnow.NodeId
import Winnow.Output
import Winnow.Path
import Winnow.Platform
import Winnow.Program
import Winnow.Proofs.Data.Decode
import Winnow.Proofs.Descriptor
import Winnow.Proofs.Exclusion
import Winnow.Proofs.FileChanges
import Winnow.Proofs.FileSystem
import Winnow.Proofs.Fingerprint
import Winnow.Proofs.Glob
import Winnow.Proofs.Graph.Closure
import Winnow.Proofs.Graph.Core
import Winnow.Proofs.Graph.Cycle
import Winnow.Proofs.Graph.Edit
import Winnow.Proofs.Graph.Hierarchy
import Winnow.Proofs.Graph.Ladder
import Winnow.Proofs.Graph.Nodes
import Winnow.Proofs.Graph.Resolution
import Winnow.Proofs.Graph.Thinning
import Winnow.Proofs.Incremental.Delta
import Winnow.Proofs.Incremental.Emission
import Winnow.Proofs.Incremental.Equivalence
import Winnow.Proofs.Incremental.Invariant
import Winnow.Proofs.Incremental.Placeholders
import Winnow.Proofs.Incremental.Refusal
import Winnow.Proofs.Incremental.StandIns
import Winnow.Proofs.Incremental.Unchanged
import Winnow.Proofs.Incremental.Validation
import Winnow.Proofs.Json.RoundTrip
import Winnow.Proofs.Link.Apply
import Winnow.Proofs.Link.Unit
import Winnow.Proofs.Marking.Assignment
import Winnow.Proofs.Marking.Counters
import Winnow.Proofs.Marking.Deletion
import Winnow.Proofs.Marking.Dispatch
import Winnow.Proofs.Marking.Idle
import Winnow.Proofs.Marking.Known
import Winnow.Proofs.Marking.Least
import Winnow.Proofs.Marking.Outside
import Winnow.Proofs.Marking.Remark
import Winnow.Proofs.Marking.Run
import Winnow.Proofs.NodeId
import Winnow.Proofs.Output
import Winnow.Proofs.Program.Batch
import Winnow.Proofs.Program.Build
import Winnow.Proofs.Program.Calls
import Winnow.Proofs.Program.Declarations
import Winnow.Proofs.Program.Declared
import Winnow.Proofs.Program.DefaultMethod
import Winnow.Proofs.Program.Gather
import Winnow.Proofs.Program.Linked
import Winnow.Proofs.Program.Order
import Winnow.Proofs.Program.Outline
import Winnow.Proofs.Program.Regular
import Winnow.Proofs.Program.Relink
import Winnow.Proofs.Program.Skeleton
import Winnow.Proofs.Program.Thinning
import Winnow.Proofs.Program.Warnings
import Winnow.Proofs.Pruning.Containment
import Winnow.Proofs.Pruning.Emission
import Winnow.Proofs.Pruning.Emitted
import Winnow.Proofs.Pruning.Linking
import Winnow.Proofs.Pruning.Written
import Winnow.Proofs.Regex
import Winnow.Proofs.Search
import Winnow.Proofs.SearchOrder
import Winnow.Proofs.Signature.Grammar
import Winnow.Proofs.Signature.Scan
import Winnow.Proofs.Snapshot.Codec
import Winnow.Proofs.Snapshot.File
import Winnow.Proofs.Snapshot.Graph
import Winnow.Proofs.Snapshot.Persistence
import Winnow.Proofs.Sorted
import Winnow.Proofs.Unit.Codec
import Winnow.Regex.Basic
import Winnow.Regex.CharSet
import Winnow.Report.Basic
import Winnow.Report.Style
import Winnow.Report.Terminal
import Winnow.Retention
import Winnow.Run
import Winnow.Signature
import Winnow.SipHash
import Winnow.Snapshot.Basic
import Winnow.Snapshot.File
import Winnow.Sorted.Map
import Winnow.Sorted.Set
import Winnow.StructuralChange
import Winnow.Summary
import Winnow.Text
import Winnow.Toml.Document
import Winnow.Toml.Value
import Winnow.Unit.Basic
import Winnow.Unit.Check
import Winnow.Unit.Codec
import Winnow.Unit.File
import Winnow.Yaml.Reader
import Winnow.Yaml.Scalar
import Winnow.Yaml.Token
