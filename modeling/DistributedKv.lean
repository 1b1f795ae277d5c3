import DistributedKv.Cluster.Acknowledged
import DistributedKv.Cluster.Advance
import DistributedKv.Cluster.Commit
import DistributedKv.Cluster.Converge
import DistributedKv.Cluster.Cursors
import DistributedKv.Cluster.Deployed
import DistributedKv.Cluster.Election
import DistributedKv.Cluster.Exchange
import DistributedKv.Cluster.Freight
import DistributedKv.Cluster.Guard
import DistributedKv.Cluster.Leader
import DistributedKv.Cluster.Lives
import DistributedKv.Cluster.Model
import DistributedKv.Cluster.Progress
import DistributedKv.Cluster.Refinement
import DistributedKv.Cluster.Reload
import DistributedKv.Cluster.Replicas
import DistributedKv.Cluster.Safety
import DistributedKv.Cluster.Simulation
import DistributedKv.Config
import DistributedKv.Goroutines.ApplySteps
import DistributedKv.Goroutines.Cursor
import DistributedKv.Goroutines.Model
import DistributedKv.Goroutines.Refinement
import DistributedKv.Goroutines.Sending
import DistributedKv.Goroutines.Wakeup
import DistributedKv.Lib.Consensus.Invariant
import DistributedKv.Lib.Consensus.Preservation
import DistributedKv.Lib.Consensus.Safety
import DistributedKv.Lib.Consensus.State
import DistributedKv.Lib.Consensus.Steps
import DistributedKv.Lib.Crash
import DistributedKv.Lib.Framing
import DistributedKv.Lib.Run
import DistributedKv.Lib.Slot
import DistributedKv.Lib.Slots
import DistributedKv.Lib.Utf8
import DistributedKv.Lib.Volume
import DistributedKv.Raft.Acknowledge
import DistributedKv.Raft.Apply
import DistributedKv.Raft.ApplyLoop
import DistributedKv.Raft.Disk
import DistributedKv.Raft.Effect
import DistributedKv.Raft.Faults
import DistributedKv.Raft.FileLog
import DistributedKv.Raft.FileNode
import DistributedKv.Raft.Files
import DistributedKv.Raft.Handlers
import DistributedKv.Raft.History
import DistributedKv.Raft.Image
import DistributedKv.Raft.Immutable
import DistributedKv.Raft.Install
import DistributedKv.Raft.Invariant
import DistributedKv.Raft.Leading
import DistributedKv.Raft.Lifetime
import DistributedKv.Raft.Log
import DistributedKv.Raft.Merge
import DistributedKv.Raft.Node
import DistributedKv.Raft.Ordered
import DistributedKv.Raft.Payload
import DistributedKv.Raft.Peer
import DistributedKv.Raft.Plan
import DistributedKv.Raft.Pledges
import DistributedKv.Raft.React
import DistributedKv.Raft.Recovery
import DistributedKv.Raft.Refinement
import DistributedKv.Raft.Reload
import DistributedKv.Raft.Replication
import DistributedKv.Raft.Restart
import DistributedKv.Raft.SavedFiles
import DistributedKv.Raft.Step
import DistributedKv.Raft.Supplied
import DistributedKv.Raft.Synced
import DistributedKv.Raft.Waiters
import DistributedKv.Raft.WellFormed
import DistributedKv.Server.Admission
import DistributedKv.Server.Handlers
import DistributedKv.Server.Service
import DistributedKv.Store.Calls
import DistributedKv.Store.Memory
import DistributedKv.Store.Wal
import DistributedKv.Store.WalDurable
import DistributedKv.Store.WalFile
import DistributedKv.Transport.Proto
