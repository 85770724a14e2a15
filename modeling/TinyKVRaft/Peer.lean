import TinyKVRaft.RaftCmdpb
import TinyKVRaft.Cluster

namespace TinyKVRaft

/-!
# The raftstore peer: proposing commands

`peer.go` of raftstore, kept to how a command becomes a proposal.  `Propose` asks
`inspect` how to propose a command: a `ChangePeer` admin request as a conf change, a
`TransferLeader` one as a leader transfer (answered at once), anything else as a normal
command, unless its requests are invalid or mix reads and writes.  `ProposeNormal` and
`ProposeConfChange` step a proposal into the raft group and take the next log index as
the proposal's index; a proposal the raft group drops leaves the last index where it was.
`ProposeConfChange` first refuses while a conf change is pending above the applied index
of the peer's storage, and refuses a change after which too few peers would be up to date
(`checkConfChange`).  `PostPropose` records the index, the current term and the callback;
`TakeApplyProposals` hands the recorded proposals to the applier.

The raw node (rawnode.go) is not under src/: `Propose`, `ProposeConfChange` and
`TransferLeader` are steps of local messages as the spec's driver operations describe, and
`GetProgress` reads the leader's peer map.  The peer's storage is kept to its applied and
truncated indices.  A `ConfChange` of the model has no `Context`, so the command of a conf
change does not travel in its entry here.

Two ghost lists record what the peer does to the outside: every proposal `PostPropose`
made, and every callback `Propose` or `Destroy` answered at once.
-/

namespace RawNode

/-- `RawNode.Propose` (not under src/): a `Step` of a local `MsgPropose` with one normal entry. -/
def propose (r : Raft) (data : List Nat) : Except Panic (Raft × Option StepError) :=
  r.step { msgType := .msgPropose, «from» := r.id, entries := [{ data }] }

/-- `RawNode.ProposeConfChange` (not under src/): a `Step` of a local `MsgPropose` with one conf-change entry. -/
def proposeConfChange (r : Raft) (cc : ConfChange) : Except Panic (Raft × Option StepError) :=
  r.step { msgType := .msgPropose, entries := [{ entryType := .entryConfChange, data := cc.encode }] }

/-- `RawNode.TransferLeader` (not under src/): a `Step` of a local `MsgTransferLeader`, its error dropped. -/
def transferLeader (r : Raft) (transferee : Nat) : Except Panic Raft :=
  Prod.fst <$> r.step { msgType := .msgTransferLeader, «from» := transferee }

/-- `RawNode.GetProgress` (not under src/): a copy of the peer map on a leader, empty elsewhere. -/
def getProgress (r : Raft) : ProgressMap :=
  if r.state = .stateLeader then r.prs else ∅

end RawNode

namespace Raftstore

open RaftCmdpb (CmdType Request)

/-- `RequestPolicy`. -/
inductive RequestPolicy where
  | proposeNormal
  | proposeTransferLeader
  | proposeConfChange
  | invalid
  deriving Repr, DecidableEq

/-- The errors `Propose` answers a callback with, each named by its message. -/
inductive ProposeError where
  /-- "invalid cmd type %v, message maybe corrupted". -/
  | invalidCmdType (cmdType : CmdType)
  /-- "read and write can't be mixed in one request.". -/
  | mixedReadWrite
  /-- The error the raft group's `Step` returned: `ErrProposalDropped`. -/
  | step (error : StepError)
  /-- `util.ErrNotLeader`: the proposal left the last index where it was. -/
  | notLeader (regionId : Nat)
  /-- "%v there is a pending conf change, try later". -/
  | pendingConfChange
  /-- "unsafe to perform conf change %v, total %v, healthy %v, quorum after chagne %v". -/
  | unsafeConfChange (changePeer : ChangePeerRequest) (total healthy quorumAfterChange : Nat)
  deriving Repr, DecidableEq

/-- The response a callback gets at once: an error, a leader transfer's, or the region's removal. -/
inductive PeerResp where
  | error (err : ProposeError)
  | transferLeader
  | regionRemoved
  deriving Repr, DecidableEq

/-- The fatal ends of the peer: a panic of its raft group, or a nil request it dereferences. -/
inductive PeerPanic where
  | raft (panic : Panic)
  | nilRequest
  deriving Repr, DecidableEq

/-- The `for` loop of `inspect` over the normal requests, with its two flags. -/
def inspectRequests : Bool → Bool → List Request → Except ProposeError RequestPolicy
  | _, _, [] => .ok .proposeNormal
  | hasRead, hasWrite, r :: rs =>
      let (hasRead, hasWrite) : Bool × Bool :=
        match r.cmdType with
        | .get | .snap => (true, hasWrite)
        | .delete | .put => (hasRead, true)
        | .invalid | .unnamed _ => (hasRead, hasWrite)
      if r.cmdType = .invalid then .error (.invalidCmdType r.cmdType)
      else if hasRead && hasWrite then .error .mixedReadWrite
      else inspectRequests hasRead hasWrite rs

/-- A request raises `hasRead` when it reads and `hasWrite` when it writes. -/
theorem inspectRequests_cons (hasRead hasWrite : Bool) (r : Request) (rs : List Request) :
    inspectRequests hasRead hasWrite (r :: rs) =
      if r.cmdType = .invalid then .error (.invalidCmdType r.cmdType)
      else if (hasRead || r.isRead) && (hasWrite || r.isWrite) then .error .mixedReadWrite
      else inspectRequests (hasRead || r.isRead) (hasWrite || r.isWrite) rs := by
  simp only [inspectRequests]
  cases kind : r.cmdType <;> simp only [kind, Request.isRead, Request.isWrite, Bool.or_true, Bool.or_false]

/--
`inspect`: a conf change or a leader transfer by the admin request (both getters find
nothing without one), else a normal proposal of valid requests that do not mix reads and
writes.
-/
def inspect (req : RaftCmdpb.RaftCmdRequest) : Except ProposeError RequestPolicy :=
  if (RaftCmdpb.getChangePeerCmd req).isSome then .ok .proposeConfChange
  else if (RaftCmdpb.getTransferLeaderCmd req).isSome then .ok .proposeTransferLeader
  else inspectRequests false false req.requests

/-- `Quorum`. -/
def quorum (total : Nat) : Nat :=
  total / 2 + 1

/--
`peer`, kept to what proposing reads and writes: its `Meta`, its region's id, the `Raft`
of its raw node, the applied and truncated indices of its storage, the proposals not yet
handed to the applier, and whether it is stopped; with the two ghost lists.
-/
structure RaftPeer where
  meta : Peer
  regionId : Nat
  raftGroup : Raft
  appliedIndex : Nat
  truncatedIndex : Nat
  applyProposals : List Proposal := []
  stopped : Bool := false
  proposed : List Proposal := []
  done : List (Nat × PeerResp) := []

namespace RaftPeer

/-- `PeerId`. -/
def peerId (p : RaftPeer) : Nat :=
  p.meta.id

/-- `Term`. -/
def term (p : RaftPeer) : Nat :=
  p.raftGroup.term

/-- `nextProposalIndex`. -/
def nextProposalIndex (p : RaftPeer) : Nat :=
  p.raftGroup.raftLog.lastIndex + 1

/-- Answer a callback at once. -/
def answer (p : RaftPeer) (cb : Nat) (resp : PeerResp) : RaftPeer :=
  { p with done := p.done ++ [(cb, resp)] }

/-- `PostPropose`. -/
def postPropose (p : RaftPeer) (index term : Nat) (isConfChange : Bool) (cb : Nat) : RaftPeer :=
  let proposal : Proposal := { isConfChange, index, term, cb }
  { p with applyProposals := p.applyProposals ++ [proposal], proposed := p.proposed ++ [proposal] }

@[simp] theorem postPropose_proposed (p : RaftPeer) (index term : Nat) (isConfChange : Bool) (cb : Nat) :
    (p.postPropose index term isConfChange cb).proposed =
      p.proposed ++ [({ isConfChange, index, term, cb } : Proposal)] :=
  rfl

@[simp] theorem postPropose_raftGroup (p : RaftPeer) (index term : Nat) (isConfChange : Bool) (cb : Nat) :
    (p.postPropose index term isConfChange cb).raftGroup = p.raftGroup :=
  rfl

@[simp] theorem postPropose_appliedIndex (p : RaftPeer) (index term : Nat) (isConfChange : Bool) (cb : Nat) :
    (p.postPropose index term isConfChange cb).appliedIndex = p.appliedIndex :=
  rfl

/-- `countHealthyNode`: the peers whose `Match` has reached the truncated index. -/
def countHealthyNode (p : RaftPeer) (progress : ProgressMap) : Nat :=
  progress.entries.countP fun pr => p.truncatedIndex ≤ pr.2.match

/--
`checkConfChange`: with more than one peer, the change must leave a quorum of the changed
peer map healthy; an added peer counts with a zero `Match`, and removing an absent peer
is safe.
-/
def checkConfChange (p : RaftPeer) (changePeer : ChangePeerRequest) : Except ProposeError Unit :=
  let progress := RawNode.getProgress p.raftGroup
  let total := progress.entries.length
  if total ≤ 1 then .ok ()
  else
    let changed : Option ProgressMap :=
      match changePeer.changeType with
      | .addNode => some (progress.insert changePeer.peer.id {})
      | .removeNode =>
          if changePeer.peer.id ∈ progress then some (progress.erase changePeer.peer.id) else none
    match changed with
    | none => .ok ()
    | some progress =>
        let healthy := p.countHealthyNode progress
        let quorumAfterChange := quorum progress.entries.length
        if healthy ≥ quorumAfterChange then .ok ()
        else .error (.unsafeConfChange changePeer total healthy quorumAfterChange)

/-- `ProposeNormal`: step the marshalled command in, and take the next index if the log grew. -/
def proposeNormal (p : RaftPeer) (req : RaftCmdpb.RaftCmdRequest) :
    Except PeerPanic (RaftPeer × Except ProposeError Nat) := do
  let data := req.view.marshal
  let proposeIndex := p.nextProposalIndex
  let (raftGroup, err) ← (RawNode.propose p.raftGroup data).mapError .raft
  let p := { p with raftGroup }
  match err with
  | some err => pure (p, .error (.step err))
  | none =>
      if proposeIndex = p.nextProposalIndex then pure (p, .error (.notLeader p.regionId))
      else pure (p, .ok proposeIndex)

/--
`ProposeConfChange`: refuse while a conf change is pending above the storage's applied
index or the change is unsafe, else step the conf change in as `ProposeNormal` does.
-/
def proposeConfChange (p : RaftPeer) (req : RaftCmdpb.RaftCmdRequest) :
    Except PeerPanic (RaftPeer × Except ProposeError Nat) := do
  if p.raftGroup.pendingConfIndex > p.appliedIndex then return (p, .error .pendingConfChange)
  let some changePeer := RaftCmdpb.getChangePeerCmd req | throw .nilRequest
  if let .error err := p.checkConfChange changePeer then return (p, .error err)
  let cc : ConfChange := { changeType := changePeer.changeType, nodeId := changePeer.peer.id }
  let proposeIndex := p.nextProposalIndex
  let (raftGroup, err) ← (RawNode.proposeConfChange p.raftGroup cc).mapError .raft
  let p := { p with raftGroup }
  match err with
  | some err => pure (p, .error (.step err))
  | none =>
      if p.nextProposalIndex = proposeIndex then pure (p, .error (.notLeader p.regionId))
      else pure (p, .ok proposeIndex)

/-- `ProposeTransferLeader`: ask the raft group to transfer, and answer at once. -/
def proposeTransferLeader (p : RaftPeer) (cb : Nat) (req : RaftCmdpb.RaftCmdRequest) :
    Except PeerPanic (RaftPeer × Bool) := do
  let some peer := RaftCmdpb.getTransferLeaderCmd req | throw .nilRequest
  let raftGroup ← (RawNode.transferLeader p.raftGroup peer.id).mapError .raft
  pure ({ p with raftGroup }.answer cb .transferLeader, true)

/-- The end of `Propose` after its switch: answer the callback with the error, or record the proposal. -/
def settle (p : RaftPeer) (cb : Nat) (isConfChange : Bool) : Except ProposeError Nat → RaftPeer × Bool
  | .error err => (p.answer cb (.error err), false)
  | .ok idx => (p.postPropose idx p.term isConfChange cb, true)

/--
`Propose`: nothing on a stopped peer; otherwise inspect the command and propose it by its
policy.  A policy `inspect` never returns without an error, `RequestPolicy_Invalid`, falls
through the switch with index 0.
-/
def propose (p : RaftPeer) (cb : Nat) (req : RaftCmdpb.RaftCmdRequest) :
    Except PeerPanic (RaftPeer × Bool) := do
  if p.stopped then return (p, false)
  match inspect req with
  | .error err => return (p.answer cb (.error err), false)
  | .ok .proposeNormal =>
      let (p, result) ← p.proposeNormal req
      return p.settle cb false result
  | .ok .proposeTransferLeader => p.proposeTransferLeader cb req
  | .ok .proposeConfChange =>
      let (p, result) ← p.proposeConfChange req
      return p.settle cb true result
  | .ok .invalid => return p.settle cb false (.ok 0)

/-- `TakeApplyProposals`: hand the recorded proposals to the applier, if there are any. -/
def takeApplyProposals (p : RaftPeer) : Option MsgApplyProposal × RaftPeer :=
  if p.applyProposals.isEmpty then (none, p)
  else (some { id := p.peerId, props := p.applyProposals }, { p with applyProposals := [] })

/-- `Destroy`, kept to its callbacks: every proposal not handed over learns the region is removed. -/
def destroy (p : RaftPeer) : RaftPeer :=
  { p with
    done := p.done ++ p.applyProposals.map fun prop => (prop.cb, .regionRemoved)
    applyProposals := [] }

end RaftPeer

/-! ## The peer's driver -/

/--
What the raftstore does to a peer next (its message handler, peer_msg_handler.go, is not
under src/): a client command, a call of its message handler on the raft group, the
applier's report of the storage's applied index, or a hand-over of its proposals.
-/
inductive PeerEvent where
  /-- A client command with its callback, through `Propose`. -/
  | propose (cb : Nat) (req : RaftCmdpb.RaftCmdRequest)
  /-- A message stepped into the raft group. -/
  | step (m : Message)
  /-- A tick of the raft group. -/
  | tick
  /-- The raft group hands out its next committed entry (`Ready` and `Advance`). -/
  | applyNext
  /-- The storage's applied index moves to what the applier has applied. -/
  | applied (index : Nat)
  /-- `TakeApplyProposals`. -/
  | takeApplyProposals
  /-- `Destroy`. -/
  | destroy
  deriving Repr, DecidableEq

namespace PeerEvent

/--
What the world around a peer guarantees of an event: a stepped message has its term set
as `send` sets it, and the applier applies only entries the raft group handed out.
-/
def Allowed (p : RaftPeer) : PeerEvent → Prop
  | .step m => m.TermSet
  | .applied index => index ≤ p.raftGroup.raftLog.applied
  | _ => True

instance (p : RaftPeer) : DecidablePred (Allowed p) := fun
  | .step m => inferInstanceAs (Decidable m.TermSet)
  | .applied index => inferInstanceAs (Decidable (index ≤ p.raftGroup.raftLog.applied))
  | .propose .. | .tick | .applyNext | .takeApplyProposals | .destroy => isTrue trivial

end PeerEvent

namespace RaftPeer

/-- One event on the peer; a panic of the raft group or of `Propose` ends the run. -/
def handle (p : RaftPeer) : PeerEvent → Except PeerPanic RaftPeer
  | .propose cb req => Prod.fst <$> p.propose cb req
  | .step m => do
      let (raftGroup, _) ← (p.raftGroup.step m).mapError .raft
      pure { p with raftGroup }
  | .tick => do pure { p with raftGroup := ← p.raftGroup.tick.mapError .raft }
  | .applyNext => do pure { p with raftGroup := ← p.raftGroup.applyNext.mapError .raft }
  | .applied index => pure { p with appliedIndex := index }
  | .takeApplyProposals => pure p.takeApplyProposals.2
  | .destroy => pure p.destroy

/-- The events of a run, one after another; `none` once one is not allowed or panics. -/
def run (p : RaftPeer) : List PeerEvent → Option RaftPeer
  | [] => some p
  | ev :: evs =>
      if ev.Allowed p then
        match p.handle ev with
        | .ok p' => p'.run evs
        | .error _ => none
      else none

/-- The peers that runs from `p₀` reach. -/
inductive Reachable (p₀ : RaftPeer) : RaftPeer → Prop
  | start : Reachable p₀ p₀
  | step {p p' : RaftPeer} {ev : PeerEvent} :
      Reachable p₀ p → ev.Allowed p → p.handle ev = .ok p' → Reachable p₀ p'

/-- Whatever a run of events ends in is reachable. -/
theorem Reachable.run {p₀ p p' : RaftPeer} (reached : Reachable p₀ p) :
    ∀ {evs : List PeerEvent}, p.run evs = some p' → Reachable p₀ p'
  | [], ran => by cases ran; exact reached
  | ev :: evs, ran => by
      unfold RaftPeer.run at ran
      split_ifs at ran with allowed
      split at ran
      · rename_i p₁ handled
        exact (reached.step allowed handled).run ran
      · cases ran

end RaftPeer

end Raftstore

end TinyKVRaft
