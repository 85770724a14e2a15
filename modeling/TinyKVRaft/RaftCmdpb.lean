import TinyKVRaft.Applier

namespace TinyKVRaft.RaftCmdpb

/-!
# Raft commands as the peer and the applier read them

`raft_cmdpb.RaftCmdRequest` in full: the normal requests of a command (`Get`, `Put`,
`Delete`, `Snap`) and its admin request (`ChangePeer`, `TransferLeader`, `CompactLog`,
`Split`).  `peer.go` reads it to choose how to propose a command, and `applier.go` runs it.
The applier's callback model reads a command only through its `ChangePeer` part
(`Raftstore.RaftCmdRequest`); `RaftCmdRequest.view` is that reading, and `marshal` the
wire form the callback model decodes, so that an entry a peer proposes decodes to the
command it was proposed with.

The request header (its region epoch) is read only by `util.CheckRegionEpoch`, which is
not under src/; the runs of the applier take that check as a parameter.
-/

open Raftstore (Peer ChangePeerRequest)

/--
`raft_cmdpb.CmdType`, an `int32` enum: its five named values, and any other value, which
protobuf decodes as it is.
-/
inductive CmdType where
  | invalid
  | get
  | put
  | delete
  | snap
  | unnamed (value : Int)
  deriving Repr, DecidableEq

/--
`raft_cmdpb.Request`: its type, and the column family, key and value of the `Get`, `Put` or
`Delete` it carries (a missing one reads as empty, as protobuf's getters on `nil` do).
-/
structure Request where
  cmdType : CmdType
  cf : String := ""
  key : List Nat := []
  value : List Nat := []
  deriving Repr, DecidableEq

namespace Request

/-- A `Put` or a `Delete`. -/
def isWrite (req : Request) : Bool :=
  match req.cmdType with
  | .put | .delete => true
  | .get | .snap | .invalid | .unnamed _ => false

/-- A `Get` or a `Snap`. -/
def isRead (req : Request) : Bool :=
  match req.cmdType with
  | .get | .snap => true
  | .put | .delete | .invalid | .unnamed _ => false

/-- A `Snap`. -/
def isSnap (req : Request) : Bool :=
  match req.cmdType with
  | .snap => true
  | .get | .put | .delete | .invalid | .unnamed _ => false

end Request

/-- `raft_cmdpb.AdminCmdType`. -/
inductive AdminCmdType where
  | invalidAdmin
  | changePeer
  | transferLeader
  | compactLog
  | split
  deriving Repr, DecidableEq

/-- `raft_cmdpb.SplitRequest`. -/
structure SplitRequest where
  splitKey : List Nat := []
  newRegionId : Nat := 0
  newPeerIds : List Nat := []
  deriving Repr, DecidableEq

/-- `raft_cmdpb.CompactLogRequest`. -/
structure CompactLogRequest where
  compactIndex : Nat := 0
  compactTerm : Nat := 0
  deriving Repr, DecidableEq

/-- `raft_cmdpb.AdminRequest`; `transferLeader` is the `Peer` of its `TransferLeaderRequest`. -/
structure AdminRequest where
  cmdType : AdminCmdType
  changePeer : Option ChangePeerRequest := none
  transferLeader : Option Peer := none
  compactLog : Option CompactLogRequest := none
  split : Option SplitRequest := none
  deriving Repr, DecidableEq

/-- `raft_cmdpb.RaftCmdRequest`, without the header. -/
structure RaftCmdRequest where
  adminRequest : Option AdminRequest := none
  requests : List Request := []
  deriving Repr, DecidableEq

/-- `GetChangePeerCmd`: the `ChangePeer` request of the admin part, if any. -/
def getChangePeerCmd (msg : RaftCmdRequest) : Option ChangePeerRequest :=
  msg.adminRequest.bind (·.changePeer)

/-- `getTransferLeaderCmd`: the peer of the `TransferLeader` request of the admin part, if any. -/
def getTransferLeaderCmd (req : RaftCmdRequest) : Option Peer :=
  req.adminRequest.bind (·.transferLeader)

/-- The command as the applier's callback model reads it: its `ChangePeer` part. -/
def RaftCmdRequest.view (req : RaftCmdRequest) : Raftstore.RaftCmdRequest :=
  { changePeer := getChangePeerCmd req }

/-- Both readings of a command find the same `ChangePeer` request. -/
@[simp] theorem getChangePeerCmd_view (req : RaftCmdRequest) :
    Raftstore.getChangePeerCmd req.view = getChangePeerCmd req :=
  rfl

end TinyKVRaft.RaftCmdpb

namespace TinyKVRaft.Raftstore

/--
`Marshal` of a command as the callback model reads it: the wire form that
`RaftCmdRequest.unmarshal` decodes.
-/
def RaftCmdRequest.marshal (req : RaftCmdRequest) : List Nat :=
  match req.changePeer with
  | none => [0]
  | some { changeType := .addNode, peer := { id, storeId } } => [1, id, storeId]
  | some { changeType := .removeNode, peer := { id, storeId } } => [2, id, storeId]

/-- What a command is marshalled to decodes back to it. -/
@[simp] theorem RaftCmdRequest.unmarshal_marshal (req : RaftCmdRequest) :
    RaftCmdRequest.unmarshal req.marshal = some req := by
  obtain ⟨_ | ⟨_ | _, _, _⟩⟩ := req <;> rfl

/-- A marshalled command is never empty, so the applier never takes it for a leader's empty entry. -/
theorem RaftCmdRequest.marshal_ne_nil (req : RaftCmdRequest) : req.marshal ≠ [] := by
  obtain ⟨_ | ⟨_ | _, _, _⟩⟩ := req <;> simp [marshal]

end TinyKVRaft.Raftstore
