import Zkasper.Guest
import Zkasper.Library.PerfectTree
import Zkasper.Library.GuardedSum
import Zkasper.Library.Transition
import Zkasper.Library.Septets
import Zkasper.Merkle
import Zkasper.Bytes
import Zkasper.Primitives
import Zkasper.Types
import Zkasper.Formal
import Zkasper.Ssz
import Zkasper.Bls
import Zkasper.Accumulator
import Zkasper.Registry
import Zkasper.EpochDiff
import Zkasper.EpochDiff.Coverage
import Zkasper.Pairing
import Zkasper.Committee
import Zkasper.Slot
import Zkasper.Keyring
import Zkasper.Recursion
import Zkasper.Backing
import Zkasper.Boundary
import Zkasper.BeaconState
import Zkasper.SlotProof
import Zkasper.CommitteeProof
import Zkasper.CommitteeProof.Entries
import Zkasper.Aggregation
import Zkasper.Justification
import Zkasper.StreamFinal
import Zkasper.Folds
import Zkasper.Runs
import Zkasper.Supermajority
import Zkasper.Anchoring
import Zkasper.FinalityChain
import Zkasper.Fcr.Rule
import Zkasper.Fcr.Types
import Zkasper.Fcr.Verifier
import Zkasper.Fcr.Batch
import Zkasper.Fcr.Support
import Zkasper.Fcr.RuleGuest
import Zkasper.Onchain.Verifier
import Zkasper.Onchain.Encoding
import Zkasper.Onchain.Chain
import Zkasper.WitnessGen.AccTree
import Zkasper.WitnessGen.Committees
import Zkasper.WitnessGen.Collector
import Zkasper.WitnessGen.Witnesses
import Zkasper.WitnessGen.Schedule
import Zkasper.WitnessGen.Stream
import Zkasper.WitnessGen.StreamRuns
import Zkasper.WitnessGen.Units
import Zkasper.WitnessGen.Order
import Zkasper.WitnessGen.Counted
import Zkasper.WitnessGen.Coverage
import Zkasper.WitnessGen.Openings
import Zkasper.WitnessGen.Signatures
import Zkasper.WitnessGen.Complement
import Zkasper.WitnessGen.Cover
import Zkasper.WitnessGen.TwoMessages
import Zkasper.WitnessGen.Equivocation
import Zkasper.WitnessGen.Inline
import Zkasper.WitnessGen.Updates
import Zkasper.WitnessGen.StateDiff
import Zkasper.WitnessGen.HostDiff
import Zkasper.WitnessGen.ProvableDiff
import Zkasper.WitnessGen.CommitteeColumns
import Zkasper.WitnessGen.MemberTable
import Zkasper.WitnessGen.MemberCache
import Zkasper.WitnessGen.MemberProtocol
import Zkasper.WitnessGen.CacheIsolation
import Zkasper.WitnessGen.RemoteProver
import Zkasper.WitnessGen.Deliver
import Zkasper.WitnessGen.Backfill
import Zkasper.Library.Chunks
import Zkasper.CommitteeProof.Words
import Zkasper.Recursion.Words
import Zkasper.Library.SwapOrNot
import Zkasper.Fcr.Shuffle
import Zkasper.Fcr.Assignments
import Zkasper.Fcr.CommitteeGuest
import Zkasper.WitnessGen.Publish
import Zkasper.Library.Sealed
import Zkasper.WitnessGen.Store
import Zkasper.WitnessGen.History
import Zkasper.WitnessGen.Agreement
import Zkasper.WitnessGen.Unusable
import Zkasper.Library.Logged
import Zkasper.WitnessGen.Batch
import Zkasper.WitnessGen.BatchRuns
import Zkasper.WitnessGen.Ledger
import Zkasper.WitnessGen.TakenOnce
import Zkasper.WitnessGen.BatchCloses
import Zkasper.WitnessGen.MultiProofs
import Zkasper.WitnessGen.DiffComplete
import Zkasper.Library.Cursor
import Zkasper.WitnessGen.BoundaryCache
import Zkasper.WitnessGen.Progress
import Zkasper.Library.Panics
import Zkasper.WitnessGen.SszState
import Zkasper.WitnessGen.MalformedStates
import Zkasper.WitnessGen.BoundaryBuild
import Zkasper.WitnessGen.InitPoint
import Zkasper.WitnessGen.CommitteesAgree
import Zkasper.Library.Windows
import Zkasper.WitnessGen.ScheduleSound
import Zkasper.Library.Periods
import Zkasper.WitnessGen.Latency
import Zkasper.WitnessGen.Varints
import Zkasper.Fcr.ShuffledIndex
import Zkasper.Fcr.WindowJoin
import Zkasper.WitnessGen.HostileDelta
import Zkasper.Library.Recut
import Zkasper.Absorbed
import Zkasper.Library.Padded
import Zkasper.Fcr.RuleWire
import Zkasper.Library.Memo
import Zkasper.Fcr.LazyAssignments
import Zkasper.Points
import Zkasper.Regrouping
import Zkasper.WitnessGen.Adoption
import Zkasper.Library.SimpleSerialize
import Zkasper.WitnessGen.BeaconSsz
import Zkasper.WitnessGen.FieldHashing
import Zkasper.WitnessGen.StateHashing
import Zkasper.WitnessGen.ReadingBack
import Zkasper.Finalization
import Zkasper.Library.Casper
import Zkasper.AccountableSafety
import Zkasper.Library.Chords
import Zkasper.Miller
import Zkasper.Library.Frames
import Zkasper.WitnessGen.Gossip
import Zkasper.WitnessGen.Finalizing
import Zkasper.WitnessGen.Daemon
import Zkasper.WitnessGen.Pinned
import Zkasper.WitnessGen.DaemonRuns
import Zkasper.Api.Spool
import Zkasper.Api.Proofs
import Zkasper.Api.Epochs
import Zkasper.Api.Sweep
