import KvRaft.Run
import KvRaft.Locked
import KvRaft.Quorum
import KvRaft.Replica.State
import KvRaft.Replica.Election
import KvRaft.Replica.Matching
import KvRaft.Replica.Completeness
import KvRaft.Pool
import KvRaft.Drain
import KvRaft.Buffer
import KvRaft.Wire
import KvRaft.Types
import KvRaft.Rpc
import KvRaft.KvStore
import KvRaft.KvSnapshot
import KvRaft.Codec
import KvRaft.Dedup
import KvRaft.Retries
import KvRaft.Successor
import KvRaft.HashRing
import KvRaft.ShardManager
import KvRaft.Migration
import KvRaft.PersistentLog
import KvRaft.PlainLog
import KvRaft.Disk
import KvRaft.RaftNode
import KvRaft.TcpTransport
import KvRaft.PeerConnection
import KvRaft.KvServer
import KvRaft.KvConnection
import KvRaft.Malformed
import KvRaft.KvClient
import KvRaft.Cluster
import KvRaft.Frame
import KvRaft.Effect
import KvRaft.Refine.Relation
import KvRaft.Refine.Node
import KvRaft.Refine.Sending
import KvRaft.Refine.Handlers
import KvRaft.Refine.Callbacks
import KvRaft.Refine.Cluster
import KvRaft.Safety
import KvRaft.Reads
import KvRaft.Aligned
import KvRaft.LogTerms
import KvRaft.Overlap
import KvRaft.Install
import KvRaft.BackOff
import KvRaft.Writes
import KvRaft.VoteCount
import KvRaft.Crash
import KvRaft.Reload
import KvRaft.Recovery
import KvRaft.AtMostOnce
import KvRaft.Threads
import KvRaft.SnapshotTrigger
import KvRaft.Refine.Threads
import KvRaft.ThreadEffect
import KvRaft.ThreadedCluster
import KvRaft.ApplyOrder
import KvRaft.SnapshotBytes
import KvRaft.Visible
import KvRaft.CommitQuorum
import KvRaft.CommitCandidate
import KvRaft.AppliedConfig
import KvRaft.MembershipChange
import KvRaft.TermWindows
import KvRaft.SingleVote
import KvRaft.CommitBounds
import KvRaft.MatchProgress
import KvRaft.LeaderHint
import KvRaft.TruthfulReply
import KvRaft.Replicas
import KvRaft.AppendOnly
import KvRaft.FixedConfig
import KvRaft.Electable
import KvRaft.Available
import KvRaft.TestTransport
import KvRaft.Partition
import KvRaft.Atomic
import KvRaft.Service
import KvRaft.Heartbeat
import KvRaft.Timers
import KvRaft.Text
import KvRaft.Main
import KvRaft.Redirect
import KvRaft.WorkQueue
import KvRaft.Workers
