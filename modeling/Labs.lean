import Labs.Run
import Labs.Quorum
import Labs.Consensus.Preserve
import Labs.Consensus.Backing
import Labs.Raft.Votes
import Labs.Raft.View
import Labs.Raft.Heartbeat
import Labs.Raft.Refine
import Labs.Raft.Simulate
import Labs.Raft.Apply
import Labs.Raft.Uncompacted
import Labs.Raft.Provenance
import Labs.Raft.Started
import Labs.Raft.Host
import Labs.Raft.Tester
import Labs.Raft.Accepted
import Labs.Raft.Kill
import Labs.Raft.Calls
import Labs.Raft.Replicating
import Labs.Raft.Compact
import Labs.Raft.Reorder
import Labs.Raft.Backoff
import Labs.Raft.Leader
import Labs.Raft.Bookkeeping
import Labs.Raft.Progress
import Labs.Raft.Truthful
import Labs.Raft.Timely
import Labs.Models.Kv
import Labs.Grouping
import Labs.Mr.Job
import Labs.Mr.Worker
import Labs.Mr.Output
import Labs.Mr.Workers
import Labs.Mr.Complete
import Labs.Locality
import Labs.Models.Partition
import Labs.Backtrack
import Labs.Porcupine.Bitset
import Labs.Porcupine.Nodes
import Labs.Porcupine.Checker
import Labs.Porcupine.Cells
import Labs.Porcupine.Single
import Labs.Porcupine.Orders
import Labs.Porcupine.Histories
import Labs.Porcupine.Parallel
import Labs.Porcupine.Check
import Labs.Retime
import Labs.AtMostOnce
import Labs.LabRpc.Network
import Labs.LabRpc.Calls
import Labs.LabRpc.Returns
import Labs.LabRpc.Counters
import Labs.KvSrv.Service
import Labs.KvSrv.Writes
import Labs.KvSrv.Linear
import Labs.KvRaft.Log
import Labs.KvRaft.System
import Labs.KvRaft.Sessions
import Labs.KvRaft.Linear
import Labs.KvRaft.Effects
import Labs.KvRaft.Stack
import Labs.KvRaft.OverRaft
import Labs.KvRaft.Whole
import Labs.KvRaft.Delivery
import Labs.KvRaft.Redelivery
