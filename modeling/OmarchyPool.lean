import OmarchyPool.Lib.Program
import OmarchyPool.Store
import OmarchyPool.Statements
import OmarchyPool.Checkpoint
import OmarchyPool.CreateRelease
import OmarchyPool.Artifacts
import OmarchyPool.Ordered
import OmarchyPool.Requests
import OmarchyPool.Lineage
import OmarchyPool.Rebuild
import OmarchyPool.Retention
import OmarchyPool.Exact
import OmarchyPool.Objects
import OmarchyPool.Protection
import OmarchyPool.Slots
import OmarchyPool.Diff
import OmarchyPool.Tally
import OmarchyPool.Changes
import OmarchyPool.DiffExact
import OmarchyPool.Jobs
import OmarchyPool.Promotion
import OmarchyPool.TakenBack
import OmarchyPool.Renders
import OmarchyPool.Carry
import OmarchyPool.Waits
import OmarchyPool.Truthful
import OmarchyPool.Backed
import OmarchyPool.Listing
import OmarchyPool.Factory.Queue
import OmarchyPool.Factory.Leases
import OmarchyPool.Factory.Writes
import OmarchyPool.Factory.RingLock
import OmarchyPool.Factory.OwnerCap
import OmarchyPool.Factory.History
import OmarchyPool.Factory.LeaseEnds
import OmarchyPool.Factory.Units
import OmarchyPool.Factory.Attempts
import OmarchyPool.Lib.Decimal
import OmarchyPool.Manifest.Vercmp
import OmarchyPool.Manifest.Alpm
import OmarchyPool.Agent.State
import OmarchyPool.Agent.Brake
import OmarchyPool.Agent.Trust
import OmarchyPool.Agent.Rollout
import OmarchyPool.Agent.Process
import OmarchyPool.Agent.Orders
import OmarchyPool.Agent.Follow
import OmarchyPool.Agent.Loop
import OmarchyPool.Agent.Moves
import OmarchyPool.Agent.Steps
import OmarchyPool.Agent.Floor
import OmarchyPool.Agent.Stranded
import OmarchyPool.Agent.Restarts
import OmarchyPool.Agent.Once
import OmarchyPool.Agent.LastGood
import OmarchyPool.Agent.Guarded
import OmarchyPool.Agent.Owner
import OmarchyPool.Agent.SelfUpdate
import OmarchyPool.PkgStore.Agree
import OmarchyPool.Lib.CrashSafe
import OmarchyPool.Lib.FileTree
import OmarchyPool.PkgStore.Journal
import OmarchyPool.PkgStore.Cells
import OmarchyPool.PkgStore.Atomic
import OmarchyPool.WorkerOrders.Caps
import OmarchyPool.WorkerOrders.Rules
import OmarchyPool.WorkerOrders.Automatic
import OmarchyPool.WorkerOrders.Closing
import OmarchyPool.WorkerOrders.OneLine
import OmarchyPool.LastGoodHours
import OmarchyPool.Lib.CompareAndSet
import OmarchyPool.Factory.Sizing
import OmarchyPool.Scoping
import OmarchyPool.Lib.Keyset
import OmarchyPool.Paging
import OmarchyPool.Factory.Placement
import OmarchyPool.Factory.Heads
import OmarchyPool.Dispatch.Host
import OmarchyPool.Lib.Process
import OmarchyPool.Dispatch.Dispatcher
import OmarchyPool.Dispatch.Protocol
import OmarchyPool.Dispatch.Keeps
import OmarchyPool.Dispatch.Steps
import OmarchyPool.Factory.Reservation
import OmarchyPool.Manifest.VersionOrder
import OmarchyPool.Agent.Narrowing
import OmarchyPool.PkgStore.Failure
import OmarchyPool.WorkerOrders.Instance
import OmarchyPool.Egress.Address
import OmarchyPool.Egress.Policy
import OmarchyPool.Gate.Evaluate
import OmarchyPool.Gate.Evidence
import OmarchyPool.Gate.Warned
import OmarchyPool.OwnBase
import OmarchyPool.Sync.Run
import OmarchyPool.Sync.Settles
import OmarchyPool.Security.FastTrack
import OmarchyPool.Security.Lands
import OmarchyPool.Extract.Collapse
import OmarchyPool.Extract.PkgInfo
import OmarchyPool.Extract.Merge
import OmarchyPool.Repo.Desc
import OmarchyPool.Repo.ReadsBack
import OmarchyPool.Clock
import OmarchyPool.Lib.BigEndian
import OmarchyPool.Verify.Wire
import OmarchyPool.Webauthn.Der
import OmarchyPool.Agent.Secrets
import OmarchyPool.Agent.AgentEnv
import OmarchyPool.Lib.Utf8
import OmarchyPool.Webauthn.Cbor
import OmarchyPool.Lib.Piece
import OmarchyPool.Webauthn.CborHeads
import OmarchyPool.Webauthn.CborExact
import OmarchyPool.Webauthn.CborRoundTrip
import OmarchyPool.Scrub.Tokens
import OmarchyPool.Scrub.Leaks
