import TinyKVRaft.Effects

namespace TinyKVRaft

/-!
# Starting a node

`Config`, its `validate`, `loadState` and `newRaft`, which builds a follower from a
configuration and what its storage holds.  `storage.go` and `log.go` are not in the
repository: a `Storage` is the record of what `InitialState`, `FirstIndex` and `Entries`
read from it, and `newLog` starts the log at the storage's snapshot, as the spec's
lifecycle paragraph describes.
-/

/-- Modelled from the spec: what a `Storage` holds when a node starts. -/
structure Storage where
  hardState : HardState := {}
  confState : ConfState := {}
  snapshot : Snapshot := {}
  ents : List Entry := []
  deriving Repr, DecidableEq

/--
Modelled from the spec: `newLog`, the log over a storage, committed and applied up to
the storage's snapshot.
-/
def newLog (storage : Storage) : RaftLog where
  storageSnapshot := storage.snapshot
  ents := storage.ents
  committed := storage.snapshot.metadata.index
  applied := storage.snapshot.metadata.index

/--
`Config`.  A `Storage` here is a value and never nil, so the fourth check of `validate`
has nothing to reject.
-/
structure Config where
  id : Nat
  peers : List Nat := []
  electionTick : Nat
  heartbeatTick : Nat
  storage : Storage := {}
  applied : Nat := 0
  deriving Repr, DecidableEq

/-- What `validate` establishes, the three facts every `Raft` carries. -/
structure Config.Valid (c : Config) : Prop where
  id_ne_none : c.id ≠ None
  heartbeatTick_pos : 0 < c.heartbeatTick
  heartbeat_lt_election : c.heartbeatTick < c.electionTick

/-- `validate`, returning on success the facts it checked. -/
def Config.validate (c : Config) : Except ConfigError (PLift c.Valid) :=
  if noneId : c.id = None then throw .noneId
  else if noHeartbeat : c.heartbeatTick = 0 then throw .heartbeatTick
  else if shortElection : c.electionTick ≤ c.heartbeatTick then throw .electionTick
  else pure ⟨⟨noneId, Nat.pos_of_ne_zero noHeartbeat, Nat.lt_of_not_le shortElection⟩⟩

namespace Raft

/-- `loadState`: take term, vote and commit from a `HardState` whose commit is in range. -/
def loadState (r : Raft) (state : HardState) : Except Panic Raft :=
  if state.commit < r.raftLog.committed ∨ state.commit > r.raftLog.lastIndex then
    throw (.stateCommitOutOfRange r.id state.commit r.raftLog.committed r.raftLog.lastIndex)
  else
    pure { r with
      raftLog := { r.raftLog with committed := state.commit }
      term := state.term
      vote := state.vote }

end Raft

/--
`newRaft`: validate, take the peers from the storage's `ConfState` or else from the
configuration, load the hard state, move `applied`, and start as a follower of the
stored term with no leader.
-/
def newRaft (c : Config) : Except Panic Raft := do
  let ⟨valid⟩ ← c.validate.mapError .invalidConfig
  let hs := c.storage.hardState
  let cs := c.storage.confState
  let peers ← (if cs.nodes.length > 0 then
      if c.peers.length > 0 then throw .peersAndConfState else pure cs.nodes
    else pure c.peers)
  let r : Raft :=
    { id := c.id
      lead := None
      raftLog := newLog c.storage
      prs := peers.foldl (fun prs p => prs.insert p { next := 1 }) ∅
      electionTimeout := c.electionTick
      heartbeatTimeout := c.heartbeatTick
      id_ne_none := valid.id_ne_none
      heartbeatTimeout_pos := valid.heartbeatTick_pos
      heartbeat_lt_election := valid.heartbeat_lt_election }
  let r ← (if hs ≠ {} then r.loadState hs else pure r)
  let r ← (if c.applied > 0 then do
      let raftLog ← r.raftLog.appliedTo c.applied
      pure { r with raftLog }
    else pure r)
  pure (r.becomeFollower r.term None)

/--
A node `newRaft` starts is a follower of the stored term, with the stored vote, no
leader and nothing to send.
-/
theorem newRaft_eq_ok {c : Config} {r : Raft} (started : newRaft c = .ok r) :
    r.state = .stateFollower ∧ r.lead = None ∧ r.term = c.storage.hardState.term ∧
      r.vote = c.storage.hardState.vote ∧ r.id = c.id ∧ r.msgs = [] := by
  unfold newRaft at started
  simp only [bind_eq_ok] at started
  obtain ⟨⟨valid⟩, -, peers, -, r₁, loaded, r₂, applied, done⟩ := started
  have stored : r₁.term = c.storage.hardState.term ∧ r₁.vote = c.storage.hardState.vote ∧
      r₁.id = c.id ∧ r₁.msgs = [] := by
    split at loaded
    · unfold Raft.loadState at loaded
      split at loaded
      · cases throw_ne_ok loaded
      · cases pure_eq_ok.mp loaded
        exact ⟨rfl, rfl, rfl, rfl⟩
    · cases pure_eq_ok.mp loaded
      simp_all [None]
  have kept : r₂.term = r₁.term ∧ r₂.vote = r₁.vote ∧ r₂.id = r₁.id ∧ r₂.msgs = r₁.msgs := by
    split at applied
    · obtain ⟨raftLog, -, moved⟩ := bind_eq_ok.mp applied
      cases pure_eq_ok.mp moved
      exact ⟨rfl, rfl, rfl, rfl⟩
    · cases pure_eq_ok.mp applied
      exact ⟨rfl, rfl, rfl, rfl⟩
  cases pure_eq_ok.mp done
  simp [kept, stored]

/-- The keys of a peer map `newRaft` builds are the ids it started from and the listed peers. -/
theorem mem_foldl_insert {p : Progress} {id : Nat} :
    ∀ (peers : List Nat) (prs : ProgressMap),
      id ∈ peers.foldl (fun prs q => prs.insert q p) prs ↔ id ∈ prs ∨ id ∈ peers
  | [], prs => by simp
  | q :: peers, prs => by
      rw [List.foldl_cons, mem_foldl_insert peers, AList.mem_insert, List.mem_cons]
      tauto

/--
A node `newRaft` starts on empty storage with nothing applied is a follower with nothing
to send, whose peers are the configured ones and whose log offers no snapshot.
-/
theorem newRaft_empty {c : Config} {r : Raft} (empty : c.storage = {}) (fresh : c.applied = 0)
    (started : newRaft c = .ok r) :
    r.id = c.id ∧ r.msgs = [] ∧ r.state = .stateFollower ∧ (∀ id, id ∈ r.prs ↔ id ∈ c.peers) ∧
      r.raftLog.snapshot = .error .errSnapshotTemporarilyUnavailable := by
  unfold newRaft at started
  simp only [bind_eq_ok] at started
  obtain ⟨⟨valid⟩, -, peers, configured, r₁, loaded, r₂, applied, done⟩ := started
  simp [empty, fresh] at configured loaded applied
  subst configured loaded applied
  cases pure_eq_ok.mp done
  refine ⟨rfl, rfl, rfl, fun id => ?_, ?_⟩
  · simp [Raft.becomeFollower, mem_foldl_insert]
  · simp [Raft.becomeFollower, newLog, empty, RaftLog.snapshot]

end TinyKVRaft
