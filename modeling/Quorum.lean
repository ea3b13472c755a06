import Quorum.Simulation.Client
import Quorum.Simulation.World
import Quorum.Proofs.State.Votes
import Quorum.Proofs.State.WithinDisk
import Quorum.Proofs.State.Retries
import Quorum.Proofs.State.Restarts
import Quorum.Proofs.State.Indices
import Quorum.Proofs.Storage.Interruptions
import Quorum.Proofs.Server.Promises
import Quorum.Proofs.Cluster.ElectionSafety
import Quorum.Proofs.Cluster.LogMatching
import Quorum.Proofs.Cluster.LeaderCompleteness
import Quorum.Proofs.Cluster.CommittedPrefix
import Quorum.Proofs.Cluster.Submissions
import Quorum.Proofs.Server.InOrder
import Quorum.Proofs.Server.Cases
import Quorum.Proofs.Server.Modes
import Quorum.Proofs.Cluster.Rounds
import Quorum.Proofs.Server.StoppedLoops
import Quorum.Proofs.KeyValue.Command
import Quorum.Proofs.Server.Applying
import Quorum.Proofs.Server.Reigns
import Quorum.Proofs.Storage.Backends
import Quorum.Proofs.Log.Splice
import Quorum.Proofs.Log.Reordering
import Quorum.Proofs.Server.CommitRule
import Quorum.Proofs.Cluster.Repair
import Quorum.Proofs.KeyValue.Grammar
import Quorum.Proofs.KeyValue.Replay
import Quorum.Proofs.Timer.Firing
import Quorum.Proofs.Simulation.Poll
import Quorum.Proofs.Simulation.Courier
import Quorum.Proofs.Rpc.Delivery
import Quorum.Proofs.Serialization
import Quorum.Proofs.Server.Aftermath
