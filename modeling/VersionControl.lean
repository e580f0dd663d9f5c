import VersionControl.Dict
import VersionControl.Text
import VersionControl.Key
import VersionControl.Error
import VersionControl.Transition
import VersionControl.Store.Basic
import VersionControl.Store.Memory
import VersionControl.Store.FileTree
import VersionControl.Store.Directory
import VersionControl.Store.Backend
import VersionControl.Store.Command
import VersionControl.Store.Faulty
import VersionControl.Store.Tampering
import VersionControl.Ref
import VersionControl.Branch.Name
import VersionControl.Branch.Event
import VersionControl.Branch.Basic
import VersionControl.Branch.Command
import VersionControl.Branch.Table
import VersionControl.EventBus.Basic
import VersionControl.EventBus.Components
import VersionControl.Session
import VersionControl.Value
import VersionControl.Change.Operators
import VersionControl.Change.Basic
import VersionControl.Commit
import VersionControl.Commit.Command
import VersionControl.Conflict.Basic
import VersionControl.Conflict.Detection
import VersionControl.Resolution.Basic
import VersionControl.Resolution.Strategy
import VersionControl.Merge.Record
import VersionControl.Merge.Streams
import VersionControl.Merge.Command
import VersionControl.Proofs.Dict
import VersionControl.Proofs.Text
import VersionControl.Proofs.Bytes
import VersionControl.Proofs.Key
import VersionControl.Proofs.Store.Laws
import VersionControl.Proofs.Store.Memory
import VersionControl.Proofs.Store.FileTree
import VersionControl.Proofs.Store.TreeChanges
import VersionControl.Proofs.Store.TidyTree
import VersionControl.Proofs.Store.Directory
import VersionControl.Proofs.Store.Flat
import VersionControl.Proofs.Store.Backend
import VersionControl.Proofs.Store.Reading
import VersionControl.Proofs.Store.Agreement
import VersionControl.Proofs.Store.Listing
import VersionControl.Proofs.Ref
import VersionControl.Proofs.Ref.Memory
import VersionControl.Proofs.Ref.Resolution
import VersionControl.Proofs.Ref.Encoding
import VersionControl.Proofs.Ref.Changing
import VersionControl.Proofs.Branch.Name
import VersionControl.Proofs.Branch.Grammar
import VersionControl.Proofs.Branch.OwnKey
import VersionControl.Proofs.Branch.Operations
import VersionControl.Proofs.Branch.Occurrence
import VersionControl.Proofs.Branch.Steps
import VersionControl.Proofs.Branch.Listing
import VersionControl.Proofs.Branch.Atomicity
import VersionControl.Proofs.Branch.Refusal
import VersionControl.Proofs.Branch.Renaming
import VersionControl.Proofs.Branch.Health
import VersionControl.Proofs.Branch.Anchor
import VersionControl.Proofs.Branch.Inventory
import VersionControl.Proofs.Branch.Foreign
import VersionControl.Proofs.Branch.Replay
import VersionControl.Proofs.Branch.Tally
import VersionControl.Proofs.EventBus.Registry
import VersionControl.Proofs.EventBus.Delivery
import VersionControl.Proofs.EventBus.History
import VersionControl.Proofs.EventBus.Counting
import VersionControl.Proofs.Session
import VersionControl.Proofs.Commit.Walk
import VersionControl.Proofs.Commit.Absence
import VersionControl.Proofs.Change.Commuting
import VersionControl.Proofs.Change.Combining
import VersionControl.Proofs.Change.Sort
import VersionControl.Proofs.Change.Latest
import VersionControl.Proofs.Change.Targets
import VersionControl.Proofs.Conflict.Detection
import VersionControl.Proofs.Conflict.Deletion
import VersionControl.Proofs.Conflict.Invariance
import VersionControl.Proofs.Resolution.Strategy
import VersionControl.Proofs.Resolution.Consulting
import VersionControl.Proofs.Resolution.Fallback
import VersionControl.Proofs.Resolution.ByKind
import VersionControl.Proofs.Resolution.Decisions
import VersionControl.Proofs.Merge.Record
import VersionControl.Proofs.Merge.Decisions
import VersionControl.Proofs.Merge.Union
import VersionControl.Proofs.Merge.Algebra
import VersionControl.Proofs.Merge.Latest
import VersionControl.Proofs.Merge.Outcome
import VersionControl.Proofs.Merge.Agreement
import VersionControl.Proofs.Merge.Sides
import VersionControl.Proofs.Merge.Mirror
import VersionControl.Proofs.Merge.Fields
