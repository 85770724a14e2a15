import TinyKVRaft.Raft

namespace TinyKVRaft

/-!
# Message handling

`Step` and the three role handlers it dispatches to, the follower-side handlers of
replication messages, snapshot restore, membership changes, and `tick`.
A write to the peer map puts the key first in the association list; Go leaves the
iteration order of a map unspecified, and nothing below depends on it.
-/

namespace Raft

/-- `setProgress`. -/
def setProgress (r : Raft) (id «match» next : Nat) : Raft :=
  { r with prs := r.prs.insert id { «match», next } }

/-- `handleAppendEntries`: answer a stale prefix with `committed`, else try the append. -/
def handleAppendEntries (r : Raft) (m : Message) : Except Panic Raft := do
  if m.index < r.raftLog.committed then
    return ← r.send { «to» := m.from, msgType := .msgAppendResponse, index := r.raftLog.committed }
  match ← r.raftLog.maybeAppend m.index m.logTerm m.commit m.entries with
  | some (raftLog, mlastIndex) =>
      let r := { r with raftLog }
      r.send { «to» := m.from, msgType := .msgAppendResponse, index := mlastIndex }
  | none =>
      r.send
        { «to» := m.from, msgType := .msgAppendResponse, index := m.index, reject := true
          rejectHint := r.raftLog.lastIndex }

/-- `handleHeartbeat`: commit to the index the leader attached, and answer. -/
def handleHeartbeat (r : Raft) (m : Message) : Except Panic Raft := do
  let raftLog ← r.raftLog.commitTo m.commit
  let r := { r with raftLog }
  r.send { «to» := m.from, msgType := .msgHeartbeatResponse }

/-- `restoreNode`: progress for every node of the snapshot's membership. -/
def restoreNode (r : Raft) : List Nat → Raft
  | [] => r
  | n :: nodes =>
      let next := r.raftLog.lastIndex + 1
      let «match» := if n = r.id then next - 1 else 0
      (r.setProgress n «match» next).restoreNode nodes

/--
`restore`: ignore a snapshot at or below `committed`, fast-forward the commit onto a
matching entry, and otherwise reset the log and the membership to the snapshot's.
-/
def restore (r : Raft) (s : Snapshot) : Except Panic (Raft × Bool) := do
  if s.metadata.index ≤ r.raftLog.committed then return (r, false)
  if r.raftLog.matchTerm s.metadata.index s.metadata.term then
    let raftLog ← r.raftLog.commitTo s.metadata.index
    return ({ r with raftLog }, false)
  let r := { r with raftLog := r.raftLog.restore s, prs := ∅ }
  return (r.restoreNode s.metadata.confState.nodes, true)

/-- `handleSnapshot`: restore, and answer with the index the log now stands on. -/
def handleSnapshot (r : Raft) (m : Message) : Except Panic Raft := do
  let some s := m.snapshot | throw .nilSnapshot
  let (r, restored) ← r.restore s
  if restored then
    r.send { «to» := m.from, msgType := .msgAppendResponse, index := r.raftLog.lastIndex }
  else r.send { «to» := m.from, msgType := .msgAppendResponse, index := r.raftLog.committed }

/-- `addNode`: a new peer starts with `Match` 0 and `Next` past the last index. -/
def addNode (r : Raft) (id : Nat) : Raft :=
  match r.getProgress id with
  | none => r.setProgress id 0 (r.raftLog.lastIndex + 1)
  | some _ => r

/--
`removeNode`: drop the peer; as the quorum shrank, try to commit and broadcast if the
commit index moved, and abort a transfer to the removed node.
-/
def removeNode (r : Raft) (id : Nat) : Except Panic Raft := do
  let r := { r with prs := r.prs.erase id }
  if r.prs.entries.length = 0 then return r
  let (r, committed) ← r.maybeCommit
  let r ← if committed then r.bcastAppend else pure r
  if r.state = .stateLeader ∧ r.leadTransferee = id then return r.abortLeaderTransfer
  return r

/--
The loop of `stepLeader` over a proposal: a conf change while one is pending
(`PendingConfIndex > applied`) becomes an empty normal entry; otherwise
`PendingConfIndex` moves to its index `LastIndex + i + 1`.
-/
def proposalEntries (applied lastIndex : Nat) :
    Nat → Nat → List Entry → List Entry × Nat
  | pendingConfIndex, _, [] => ([], pendingConfIndex)
  | pendingConfIndex, i, e :: es =>
      if e.entryType = .entryConfChange then
        if applied < pendingConfIndex then
          let (es, p) := proposalEntries applied lastIndex pendingConfIndex (i + 1) es
          ({ entryType := .entryNormal } :: es, p)
        else
          let (es, p) := proposalEntries applied lastIndex (lastIndex + i + 1) (i + 1) es
          (e :: es, p)
      else
        let (es, p) := proposalEntries applied lastIndex pendingConfIndex (i + 1) es
        (e :: es, p)

/--
`stepLeader`, with the placeholder `Replication_Step3` filled in: when an
acknowledgement moves `Match`, try to commit and broadcast if the commit index moved.
-/
def stepLeader (r : Raft) (m : Message) : Except Panic (Raft × Option StepError) := do
  let pr? := r.getProgress m.from
  if pr?.isNone ∧ m.msgType ≠ .msgBeat ∧ m.msgType ≠ .msgPropose then return (r, none)
  match m.msgType with
  | .msgBeat => return (← r.bcastHeartbeat, none)
  | .msgPropose =>
      if m.entries.isEmpty then throw .steppedEmptyPropose
      if r.id ∉ r.prs then return (r, some .errProposalDropped)
      if r.leadTransferee ≠ None then return (r, some .errProposalDropped)
      let (es, pendingConfIndex) :=
        proposalEntries r.raftLog.applied r.raftLog.lastIndex r.pendingConfIndex 0 m.entries
      let r ← { r with pendingConfIndex }.appendEntry es
      return (← r.bcastAppend, none)
  | .msgAppendResponse =>
      let some pr := pr? | throw (.nilProgress m.from)
      if m.reject then
        let (pr, decreased) := pr.maybeDecrTo m.index m.rejectHint
        let r := { r with prs := r.prs.insert m.from pr }
        if decreased then return ((← r.sendAppend m.from).1, none)
        return (r, none)
      let (pr, updated) := pr.maybeUpdate m.index
      let r := { r with prs := r.prs.insert m.from pr }
      if !updated then return (r, none)
      let (r, committed) ← r.maybeCommit
      let r ← if committed then r.bcastAppend else pure r
      if m.from = r.leadTransferee ∧ pr.match = r.raftLog.lastIndex then
        return (← r.sendTimeoutNow m.from, none)
      return (r, none)
  | .msgHeartbeatResponse =>
      let some pr := pr? | throw (.nilProgress m.from)
      if pr.match < r.raftLog.lastIndex then return ((← r.sendAppend m.from).1, none)
      return (r, none)
  | .msgTransferLeader =>
      let some pr := pr? | throw (.nilProgress m.from)
      let leadTransferee := m.from
      let lastLeadTransferee := r.leadTransferee
      if lastLeadTransferee ≠ None ∧ lastLeadTransferee = leadTransferee then return (r, none)
      let r := if lastLeadTransferee ≠ None then r.abortLeaderTransfer else r
      if leadTransferee = r.id then return (r, none)
      let r := { r with electionElapsed := 0, leadTransferee }
      if pr.match = r.raftLog.lastIndex then return (← r.sendTimeoutNow leadTransferee, none)
      return ((← r.sendAppend leadTransferee).1, none)
  | _ => return (r, none)

/--
`stepCandidate`, with the placeholder `Leader_Election_Step6` filled in: a quorum of
grants makes the candidate leader, a quorum of rejections makes it follower.
-/
def stepCandidate (r : Raft) (m : Message) : Except Panic (Raft × Option StepError) := do
  match m.msgType with
  | .msgPropose => return (r, some .errProposalDropped)
  | .msgAppend => return (← (r.becomeFollower m.term m.from).handleAppendEntries m, none)
  | .msgHeartbeat => return (← (r.becomeFollower m.term m.from).handleHeartbeat m, none)
  | .msgSnapshot => return (← (r.becomeFollower m.term m.from).handleSnapshot m, none)
  | .msgRequestVoteResponse =>
      let (r, gr) := r.poll m.from !m.reject
      if r.quorum = gr then return (← (← r.becomeLeader).bcastAppend, none)
      if r.quorum = r.votes.entries.length - gr then return (r.becomeFollower r.term None, none)
      return (r, none)
  | _ => return (r, none)

/-- `stepFollower`. -/
def stepFollower (r : Raft) (m : Message) : Except Panic (Raft × Option StepError) := do
  match m.msgType with
  | .msgPropose => return (r, some .errProposalDropped)
  | .msgAppend =>
      let r := { r with electionElapsed := 0, lead := m.from }
      return (← r.handleAppendEntries m, none)
  | .msgHeartbeat =>
      let r := { r with electionElapsed := 0, lead := m.from }
      return (← r.handleHeartbeat m, none)
  | .msgSnapshot =>
      let r := { r with electionElapsed := 0, lead := m.from }
      return (← r.handleSnapshot m, none)
  | .msgTransferLeader =>
      if r.lead = None then return (r, none)
      return (← r.send { m with «to» := r.lead }, none)
  | .msgTimeoutNow =>
      if r.promotable then return (← r.campaign, none)
      return (r, none)
  | _ => return (r, none)

/--
The term switch that opens `Step`: a message of a later term makes the node follower
first, adopting the sender as leader for replication messages; `none` is the silent
drop of a message of an earlier term.
-/
def stepTerm (r : Raft) (m : Message) : Option Raft :=
  if m.term = 0 then some r
  else if r.term < m.term then
    if m.msgType = .msgAppend ∨ m.msgType = .msgHeartbeat ∨ m.msgType = .msgSnapshot then
      some (r.becomeFollower m.term m.from)
    else some (r.becomeFollower m.term None)
  else if m.term < r.term then none
  else some r

/--
`Step`, with the placeholder `Leader_Election_Step5` filled in: a vote goes to a repeat
candidate, or to anyone while the node has neither voted nor seen a leader this term,
and only to a candidate whose log is at least as up to date.
-/
def step (r : Raft) (m : Message) : Except Panic (Raft × Option StepError) := do
  let some r := r.stepTerm m | return (r, none)
  match m.msgType with
  | .msgHup =>
      if r.state ≠ .stateLeader then
        let .ok ents := r.raftLog.slice (r.raftLog.applied + 1) (r.raftLog.committed + 1)
          | throw .unexpectedUnappliedError
        if numOfPendingConf ents ≠ 0 ∧ r.raftLog.applied < r.raftLog.committed then
          return (r, none)
        return (← r.campaign, none)
      return (r, none)
  | .msgRequestVote =>
      let canVote := r.vote = m.from ∨ (r.vote = None ∧ r.lead = None)
      if canVote ∧ r.raftLog.isUpToDate m.index m.logTerm then
        let r ← r.send { «to» := m.from, term := m.term, msgType := .msgRequestVoteResponse }
        return ({ r with electionElapsed := 0, vote := m.from }, none)
      let r ← r.send
        { «to» := m.from, term := r.term, msgType := .msgRequestVoteResponse, reject := true }
      return (r, none)
  | _ =>
      match r.state with
      | .stateFollower => r.stepFollower m
      | .stateCandidate => r.stepCandidate m
      | .stateLeader => r.stepLeader m

/--
`tickElection`, with the placeholders `Leader_Election_Step1` and `Step2` filled in:
count the tick, and past the randomized timeout a voting member steps a `MsgHup`.
-/
def tickElection (r : Raft) : Except Panic Raft := do
  let r := { r with electionElapsed := r.electionElapsed + 1 }
  if r.promotable ∧ r.pastElectionTimeout then
    let r := { r with electionElapsed := 0 }
    return (← r.step { «from» := r.id, msgType := .msgHup }).1
  return r

/-- `tickHeartbeat`: abort an overdue transfer, and step a `MsgBeat` on heartbeat timeout. -/
def tickHeartbeat (r : Raft) : Except Panic Raft := do
  let r : Raft :=
    { r with heartbeatElapsed := r.heartbeatElapsed + 1, electionElapsed := r.electionElapsed + 1 }
  let r : Raft :=
    if r.electionTimeout ≤ r.electionElapsed then
      let r := { r with electionElapsed := 0 }
      if r.state = .stateLeader ∧ r.leadTransferee ≠ None then r.abortLeaderTransfer else r
    else r
  if r.state ≠ .stateLeader then return r
  if r.heartbeatTimeout ≤ r.heartbeatElapsed then
    let r := { r with heartbeatElapsed := 0 }
    return (← r.step { «from» := r.id, msgType := .msgBeat }).1
  return r

/-- `tick`. -/
def tick (r : Raft) : Except Panic Raft :=
  match r.state with
  | .stateFollower | .stateCandidate => r.tickElection
  | .stateLeader => r.tickHeartbeat

end Raft

end TinyKVRaft
