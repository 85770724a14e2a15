import Mathlib.Data.List.Sort
import TinyKVRaft.RaftLog

namespace TinyKVRaft

/-!
# The Raft state and its helpers

The `Raft` record of `raft.go` and the helpers `Step` builds on: `send`, the replication
messages, commit advancement, `reset` and the three role changes, `appendEntry`,
`campaign` and `poll`.  Each Go method that mutates `r` is a function from the old
state to the new one, in `Except Panic` where the code can panic.  The placeholders of
the lab scaffold (`panic("...Your code here.")`) are filled in as their comments and
spec §4.3 describe; each such body says so in its docstring.  Logging is left out: it
changes no state.
-/

/-!
## Replication progress

`Progress` is the leader's view of one follower, and the peer map `Prs` a Go map from
node id to `*Progress`.  The map is an association list with duplicate-free keys, so an
invalid map cannot be built; its iteration order is the order of that list, and every
result below that depends on iteration holds for every list.

`maybeUpdate` and `maybeDecrTo` add one to a `uint64` that arrives in a message, so they
keep the wrap-around of Go's `n + 1`.
-/

/-- `Progress`: the follower's `Match` and the `Next` index to send it. -/
structure Progress where
  «match» : Nat := 0
  next : Nat := 0
  deriving Repr, DecidableEq

/-- Go's `uint64` successor, which wraps `2⁶⁴ − 1` to `0`. -/
def succ64 (n : Nat) : Nat :=
  (n + 1) % 2 ^ 64

namespace Progress

/--
`maybeUpdate`: raise `Match` to `n` and `Next` past it; the flag says whether `Match`
moved, `false` meaning the acknowledgement was stale.
-/
def maybeUpdate (pr : Progress) (n : Nat) : Progress × Bool :=
  let updated := decide (pr.match < n)
  let «match» := if pr.match < n then n else pr.match
  let next := if pr.next < succ64 n then succ64 n else pr.next
  ({ «match», next }, updated)

/--
`maybeDecrTo`: after a rejection of index `rejected`, move `Next` back to
`min(rejected, last + 1)`, at least `1`; a rejection at or below `Match` is stale.
-/
def maybeDecrTo (pr : Progress) (rejected last : Nat) : Progress × Bool :=
  if rejected ≤ pr.match then (pr, false)
  else
    let next := min rejected (succ64 last)
    ({ pr with next := if next < 1 then 1 else next }, true)

end Progress

/-- `Prs`, the Go map from node id to progress. -/
abbrev ProgressMap := AList (fun _ : Nat => Progress)

/-- `votes`, the Go map from node id to the vote it returned. -/
abbrev VoteMap := AList (fun _ : Nat => Bool)

/-! ## The Raft record -/

/-- `StateType`, the role of a node. -/
inductive StateType where
  | stateFollower
  | stateCandidate
  | stateLeader
  deriving Repr, DecidableEq

/-- `None`, the node id that stands for no node. -/
def None : Nat := 0

/--
`globalRand`, a generator standing for Go's `math/rand` source: `intn n` draws from
`[0, n)` and moves to the next seed.
-/
structure LockedRand where
  seed : Nat := 0
  deriving Repr, DecidableEq

/-- `lockedRand.Intn`. -/
def LockedRand.intn (rand : LockedRand) (n : Nat) : Nat × LockedRand :=
  (rand.seed % n, ⟨(rand.seed * 6364136223846793005 + 1442695040888963407) % 2 ^ 64⟩)

/--
`Raft`, one node.  The three proof fields are what `Config.validate` checks before
`newRaft` builds a node; nothing changes them afterwards.
-/
structure Raft where
  id : Nat
  term : Nat := 0
  vote : Nat := None
  raftLog : RaftLog := {}
  prs : ProgressMap := ∅
  state : StateType := .stateFollower
  votes : VoteMap := ∅
  msgs : List Message := []
  lead : Nat := None
  heartbeatTimeout : Nat
  electionTimeout : Nat
  randomizedElectionTimeout : Nat := 0
  leadTransferee : Nat := None
  pendingConfIndex : Nat := 0
  electionElapsed : Nat := 0
  heartbeatElapsed : Nat := 0
  globalRand : LockedRand := {}
  id_ne_none : id ≠ None
  heartbeatTimeout_pos : 0 < heartbeatTimeout
  heartbeat_lt_election : heartbeatTimeout < electionTimeout
  deriving DecidableEq

namespace Raft

/-- `quorum`, a strict majority of the peer map. -/
def quorum (r : Raft) : Nat :=
  r.prs.entries.length / 2 + 1

/-- `promotable`: the node's own id is a key of the peer map. -/
def promotable (r : Raft) : Bool :=
  decide (r.id ∈ r.prs)

/-- `pastElectionTimeout`. -/
def pastElectionTimeout (r : Raft) : Bool :=
  r.randomizedElectionTimeout ≤ r.electionElapsed

/-- `resetRandomizedElectionTimeout`: a fresh draw from `[electionTimeout, 2·electionTimeout)`. -/
def resetRandomizedElectionTimeout (r : Raft) : Raft :=
  let (draw, rand) := r.globalRand.intn r.electionTimeout
  { r with randomizedElectionTimeout := r.electionTimeout + draw, globalRand := rand }

/-- `abortLeaderTransfer`. -/
def abortLeaderTransfer (r : Raft) : Raft :=
  { r with leadTransferee := None }

/--
`send`: stamp the sender, check the term rule of campaign messages, stamp every other
non-proposal message with the current term, and queue it.
-/
def send (r : Raft) (m : Message) : Except Panic Raft :=
  let m := { m with «from» := r.id }
  if m.msgType = .msgRequestVote ∨ m.msgType = .msgRequestVoteResponse then
    if m.term = 0 then throw (.termShouldBeSet m.msgType)
    else pure { r with msgs := r.msgs ++ [m] }
  else if m.term ≠ 0 then throw (.termShouldNotBeSet m.msgType m.term)
  else
    let m := if m.msgType ≠ .msgPropose then { m with term := r.term } else m
    pure { r with msgs := r.msgs ++ [m] }

/-- `getProgress`; `none` is the nil pointer of an absent peer. -/
def getProgress (r : Raft) (id : Nat) : Option Progress :=
  r.prs.lookup id

/-- Go's `uint64` predecessor, which wraps `0` to `2⁶⁴ − 1`. -/
def pred64 (n : Nat) : Nat :=
  (n + (2 ^ 64 - 1)) % 2 ^ 64

/--
`sendAppend`, with the placeholder `Replication_Step2` filled in: the entries from
`Next`, after the entry at `Next − 1` and its term, and the commit index.  When either
lookup fails the snapshot goes instead, or nothing while it is being generated; the
flag says whether a message was sent.
-/
def sendAppend (r : Raft) («to» : Nat) : Except Panic (Raft × Bool) := do
  let some pr := r.getProgress «to» | throw (.nilProgress «to»)
  match r.raftLog.term (pred64 pr.next), r.raftLog.entries pr.next with
  | .ok term, .ok ents =>
      let r ← r.send
        { msgType := .msgAppend, «to» := «to», index := pred64 pr.next, logTerm := term
          entries := ents, commit := r.raftLog.committed }
      pure (r, true)
  | _, _ =>
      match r.raftLog.snapshot with
      | .error _ => pure (r, false)
      | .ok snapshot =>
          let r ← r.send { msgType := .msgSnapshot, «to» := «to», snapshot := some snapshot }
          pure (r, true)

/--
`sendHeartbeat`, with the placeholder `Leader_Election_Step7` filled in: the commit
index it carries is `min(Match, committed)`, so a follower is never told to commit past
what it is known to hold.
-/
def sendHeartbeat (r : Raft) («to» : Nat) : Except Panic Raft := do
  let some pr := r.getProgress «to» | throw (.nilProgress «to»)
  r.send { msgType := .msgHeartbeat, «to» := «to», commit := min pr.match r.raftLog.committed }

/-- `forEachProgress`, in the iteration order of the peer map. -/
def forEachProgress (r : Raft) (f : Raft → Nat → Progress → Except Panic Raft) :
    Except Panic Raft :=
  r.prs.entries.foldlM (fun r' p => f r' p.1 p.2) r

/-- `bcastAppend`: `sendAppend` to every other peer. -/
def bcastAppend (r : Raft) : Except Panic Raft :=
  r.forEachProgress fun r' id _ => if id = r'.id then pure r' else Prod.fst <$> r'.sendAppend id

/-- `bcastHeartbeat`: `sendHeartbeat` to every other peer. -/
def bcastHeartbeat (r : Raft) : Except Panic Raft :=
  r.forEachProgress fun r' id _ => if id = r'.id then pure r' else r'.sendHeartbeat id

/--
`maybeCommit`: sort the `Match` of every peer and commit the one at position
`len − quorum`, the largest index held by a quorum, if it is of the current term.
-/
def maybeCommit (r : Raft) : Except Panic (Raft × Bool) := do
  let matchIndex := (r.prs.entries.map fun p => p.2.match).insertionSort (· ≤ ·)
  let some mci := matchIndex[matchIndex.length - r.quorum]? | throw .indexOutOfRange
  let (raftLog, committed) ← r.raftLog.maybeCommit mci r.term
  pure ({ r with raftLog }, committed)

/-- Every progress of `reset`: `Next` one past the last index, `Match` there for self. -/
def resetProgress (id lastIndex : Nat) (prs : ProgressMap) : ProgressMap :=
  ⟨prs.entries.map fun p =>
      ⟨p.1, if p.1 = id then { «match» := lastIndex, next := lastIndex + 1 }
        else { next := lastIndex + 1 }⟩,
    by
      simpa [List.NodupKeys, List.keys, Function.comp_def] using prs.nodupKeys⟩

/-- `reset`: a new term clears the vote; timers, votes, transfer and progress start over. -/
def reset (r : Raft) (term : Nat) : Raft :=
  let r := if r.term ≠ term then { r with term, vote := None } else r
  let r := { r with lead := None, electionElapsed := 0, heartbeatElapsed := 0 }
  let r := r.resetRandomizedElectionTimeout.abortLeaderTransfer
  { r with
    votes := ∅
    prs := resetProgress r.id r.raftLog.lastIndex r.prs
    pendingConfIndex := 0 }

/-- `becomeFollower`. -/
def becomeFollower (r : Raft) (term lead : Nat) : Raft :=
  { r.reset term with lead, state := .stateFollower }

/--
`becomeCandidate`, with the placeholder `Leader_Election_Step3` filled in as spec §4.3
gives it: never from leader; a new term, a vote for self, the candidate role.
-/
def becomeCandidate (r : Raft) : Except Panic Raft :=
  if r.state = .stateLeader then throw .invalidTransition
  else pure { r.reset (r.term + 1) with vote := r.id, state := .stateCandidate }

/--
The loop of `appendEntry`, with the placeholder `Replication_Step1` filled in: the
`i`-th new entry gets the current term and index `li + 1 + i`.
-/
def stampEntries (term : Nat) : Nat → List Entry → List Entry
  | _, [] => []
  | index, e :: es => { e with term, index } :: stampEntries term (index + 1) es

/--
`appendEntry`: stamp the entries, append them, advance the leader's own progress and
try to commit.
-/
def appendEntry (r : Raft) (es : List Entry) : Except Panic Raft := do
  let li := r.raftLog.lastIndex
  let raftLog ← r.raftLog.append (stampEntries r.term (li + 1) es)
  let li := raftLog.lastIndex
  let some pr := r.getProgress r.id | throw (.nilProgress r.id)
  let r := { r with raftLog, prs := r.prs.insert r.id (pr.maybeUpdate li).1 }
  Prod.fst <$> r.maybeCommit

/--
`becomeLeader`: the leader role, `PendingConfIndex` at the last index, and an empty
entry of the new term appended at once.
-/
def becomeLeader (r : Raft) : Except Panic Raft :=
  let r := { r.reset r.term with lead := r.id, state := .stateLeader }
  let r := { r with pendingConfIndex := r.raftLog.lastIndex }
  r.appendEntry [{ data := [] }]

/-- `poll`: record the first answer of `id` only, and count the grants recorded. -/
def poll (r : Raft) (id : Nat) (v : Bool) : Raft × Nat :=
  let votes := if id ∈ r.votes then r.votes else r.votes.insert id v
  ({ r with votes }, votes.entries.countP fun vote => vote.2)

/-- The loop of `campaign` sending `MsgRequestVote` to every other peer. -/
def requestVotes (term : Nat) (r : Raft) : List Nat → Except Panic Raft
  | [] => pure r
  | id :: ids =>
      if id = r.id then requestVotes term r ids
      else do
        let r ← r.send
          { term := term, «to» := id, msgType := .msgRequestVote
            index := r.raftLog.lastIndex, logTerm := r.raftLog.lastTerm }
        requestVotes term r ids

/--
`campaign`, with the placeholder `Leader_Election_Step4` filled in: a candidate whose own
vote is already a quorum becomes leader; any other asks every other peer for a vote.
-/
def campaign (r : Raft) : Except Panic Raft := do
  let r ← r.becomeCandidate
  let term := r.term
  let (r, granted) := r.poll r.id true
  if r.quorum = granted then r.becomeLeader
  else requestVotes term r r.prs.keys

/-- `sendTimeoutNow`. -/
def sendTimeoutNow (r : Raft) («to» : Nat) : Except Panic Raft :=
  r.send { «to» := «to», msgType := .msgTimeoutNow }

/-- `numOfPendingConf`: how many of the entries are conf changes. -/
def numOfPendingConf (ents : List Entry) : Nat :=
  ents.countP fun e => e.entryType = .entryConfChange

end Raft

end TinyKVRaft
