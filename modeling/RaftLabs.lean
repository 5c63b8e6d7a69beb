import RaftLabs.Raft.CommitQuorum
import RaftLabs.Raft.CommitRule
import RaftLabs.Raft.ApplyPipeline
import RaftLabs.Raft.LogMatching
import RaftLabs.Raft.IndexBounds
import RaftLabs.Raft.BackOff
import RaftLabs.Raft.Terms
import RaftLabs.Basis.LedgerSteps
import RaftLabs.Kvraft.Replies
import RaftLabs.Kvraft.Recovery
import RaftLabs.Shardkv.Handoff
import RaftLabs.Shardctrler.Determinism
import RaftLabs.Shardctrler.Balance
import RaftLabs.Shardkv.PulledShard
import RaftLabs.Shardkv.Replicas
import RaftLabs.Shardkv.AtMostOnce
import RaftLabs.Shardkv.Collection
import RaftLabs.Mr.Accounting
import RaftLabs.Mr.Equivalence
import RaftLabs.Kvraft.Checked
import RaftLabs.Mr.Execution
import RaftLabs.Shardkv.Linearizable
