import TinyKVRaft.Eraftpb
import TinyKVRaft.RaftLog
import TinyKVRaft.Raft
import TinyKVRaft.Step
import TinyKVRaft.QuorumCommit
import TinyKVRaft.Effects
import TinyKVRaft.StepCases
import TinyKVRaft.TermVote
import TinyKVRaft.CommittedPrefix
import TinyKVRaft.LeaderAppend
import TinyKVRaft.Votes
import TinyKVRaft.Boot
import TinyKVRaft.Cluster
import TinyKVRaft.ElectionStep
import TinyKVRaft.ElectionSafety
import TinyKVRaft.ProgressBounds
import TinyKVRaft.PendingConf
import TinyKVRaft.SplitRanges
import TinyKVRaft.Applier
import TinyKVRaft.ApplierCallbacks
import TinyKVRaft.RaftCmdpb
import TinyKVRaft.Peer
import TinyKVRaft.PeerProposals
import TinyKVRaft.RegionMeta
import TinyKVRaft.ApplierExec
import TinyKVRaft.ApplierExecRuns
import TinyKVRaft.ApplierRefines
import TinyKVRaft.IndexLookUp
import TinyKVRaft.IndexLookUpRuns
import TinyKVRaft.JoinConditions
