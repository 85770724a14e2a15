import Mathlib.Algebra.Group.Nat.Basic
import Mathlib.Data.List.AList

namespace TinyKVRaft

/-!
# Wire types and fatal ends

The `eraftpb` records that `raft.go` reads and writes, kept to the fields the code
touches.  Terms and log indices are `uint64` counters that the code only ever advances
by one per election or per entry, so they are `Nat` here; the two `+ 1`s of `Progress`
that act on values taken straight from a message keep their 64-bit wrap-around (see
`TinyKVRaft.Progress`).

Every way a call can end without returning (a `panic`, `log.Panicf`, `log.Fatal`, a nil
dereference or an index out of range) is one constructor of `Panic`, so that fallible
code is a function into `Except Panic`.
-/

/-- `eraftpb.EntryType`. -/
inductive EntryType where
  | entryNormal
  | entryConfChange
  deriving Repr, DecidableEq

/-- `eraftpb.Entry`, the payload being opaque bytes. -/
structure Entry where
  entryType : EntryType := .entryNormal
  term : Nat := 0
  index : Nat := 0
  data : List Nat := []
  deriving Repr, DecidableEq

/-- `eraftpb.ConfState`: the membership a snapshot carries. -/
structure ConfState where
  nodes : List Nat := []
  deriving Repr, DecidableEq

/-- `eraftpb.SnapshotMetadata`. -/
structure SnapshotMetadata where
  confState : ConfState := {}
  index : Nat := 0
  term : Nat := 0
  deriving Repr, DecidableEq

/-- `eraftpb.Snapshot`. -/
structure Snapshot where
  data : List Nat := []
  metadata : SnapshotMetadata := {}
  deriving Repr, DecidableEq

/-- `eraftpb.HardState`, the state a node persists before it speaks. -/
structure HardState where
  term : Nat := 0
  vote : Nat := 0
  commit : Nat := 0
  deriving Repr, DecidableEq

/-- `eraftpb.MessageType`. -/
inductive MessageType where
  | msgHup
  | msgBeat
  | msgPropose
  | msgAppend
  | msgAppendResponse
  | msgRequestVote
  | msgRequestVoteResponse
  | msgSnapshot
  | msgHeartbeat
  | msgHeartbeatResponse
  | msgTransferLeader
  | msgTimeoutNow
  deriving Repr, DecidableEq

/-- `eraftpb.Message`; `snapshot` is the Go pointer, `none` being `nil`. -/
structure Message where
  msgType : MessageType := .msgHup
  «to» : Nat := 0
  «from» : Nat := 0
  term : Nat := 0
  logTerm : Nat := 0
  index : Nat := 0
  entries : List Entry := []
  commit : Nat := 0
  snapshot : Option Snapshot := none
  reject : Bool := false
  rejectHint : Nat := 0
  deriving Repr, DecidableEq

/-- `eraftpb.ConfChangeType`. -/
inductive ConfChangeType where
  | addNode
  | removeNode
  deriving Repr, DecidableEq

/-- `eraftpb.ConfChange`, as the driver decodes it from a conf-change entry. -/
structure ConfChange where
  changeType : ConfChangeType
  nodeId : Nat
  deriving Repr, DecidableEq

/-- The errors of `Config.validate`, each named by its message. -/
inductive ConfigError where
  /-- "cannot use none as id". -/
  | noneId
  /-- "heartbeat tick must be greater than 0". -/
  | heartbeatTick
  /-- "election tick must be greater than heartbeat tick". -/
  | electionTick
  deriving Repr, DecidableEq

/-- The fatal ends of the Raft code, one per site. -/
inductive Panic where
  /-- `newRaft`: `panic(err.Error())` on a configuration `validate` rejects. -/
  | invalidConfig (error : ConfigError)
  /-- `newRaft`: "cannot specify both newRaft (peers) and ConfState.(Nodes)". -/
  | peersAndConfState
  /-- `loadState`: "%d state.commit %d is out of range [%d, %d]". -/
  | stateCommitOutOfRange (id commit committed lastIndex : Nat)
  /-- `send`: "term should be set when sending %s". -/
  | termShouldBeSet (msgType : MessageType)
  /-- `send`: "term should not be set when sending %s (was %d)". -/
  | termShouldNotBeSet (msgType : MessageType) (term : Nat)
  /-- A method called through the nil `*Progress` of an absent peer. -/
  | nilProgress (id : Nat)
  /-- `handleSnapshot` dereferencing a nil `m.Snapshot`. -/
  | nilSnapshot
  /-- `maybeCommit` indexing `matchIndex[len − quorum]` of an empty peer map. -/
  | indexOutOfRange
  /-- `becomeCandidate`: "invalid transition [leader -> candidate]". -/
  | invalidTransition
  /-- `stepLeader`: "stepped empty MessageType_MsgPropose". -/
  | steppedEmptyPropose
  /-- `Step` on `MsgHup`: "unexpected error getting unapplied entries". -/
  | unexpectedUnappliedError
  /-- `RaftLog.commitTo`: "tocommit(%d) is out of range [lastIndex(%d)]". -/
  | commitOutOfRange (tocommit lastIndex : Nat)
  /-- `RaftLog.maybeAppend`: "entry %d conflict with committed entry [committed(%d)]". -/
  | conflictWithCommitted (index committed : Nat)
  /-- `RaftLog.append`: "after(%d) is out of range [committed(%d)]". -/
  | appendOutOfRange (after committed : Nat)
  /-- `RaftLog.append`: the first new entry is not at `lastIndex + 1` after truncation. -/
  | appendNotContiguous (index lastIndex : Nat)
  /-- `ents[ci-offset:]` in `RaftLog.maybeAppend` with a conflict index outside `ents`. -/
  | sliceBoundsOutOfRange
  /-- `RaftLog.appliedTo`: "applied(%d) is out of range [prevApplied(%d), committed(%d)]". -/
  | appliedOutOfRange (applied prevApplied committed : Nat)
  deriving Repr, DecidableEq

/-- `ErrProposalDropped`, the one error `Step` returns to its caller. -/
inductive StepError where
  | errProposalDropped
  deriving Repr, DecidableEq

/-- The message types a node's own driver hands to `Step` unstamped. -/
def MessageType.isLocal : MessageType → Bool
  | .msgHup | .msgBeat | .msgPropose | .msgTransferLeader => true
  | _ => false

/-- Only a local message has term 0: `send` stamps every other one with a term. -/
def Message.TermSet (m : Message) : Prop :=
  m.term = 0 → m.msgType.isLocal

instance : DecidablePred Message.TermSet :=
  fun m => inferInstanceAs (Decidable (m.term = 0 → m.msgType.isLocal))

section Except

variable {ε α β : Type}

/-- A sequenced computation succeeds exactly when each part succeeds in turn. -/
@[simp] theorem bind_eq_ok {x : Except ε α} {f : α → Except ε β} {b : β} :
    (x >>= f) = .ok b ↔ ∃ a, x = .ok a ∧ f a = .ok b := by
  cases x <;> simp [bind, Except.bind]

/-- `pure` succeeds with exactly its value. -/
@[simp] theorem pure_eq_ok {a b : α} : (pure a : Except ε α) = .ok b ↔ a = b := by
  simp [pure, Except.pure]

/-- A thrown panic is never a normal return. -/
@[simp] theorem throw_ne_ok {e : ε} {a : α} : (throw e : Except ε α) ≠ .ok a := by
  simp [throw, throwThe, MonadExceptOf.throw]

/-- A sequenced computation panics when its first part does, or the rest after it succeeds. -/
@[simp] theorem bind_eq_error {x : Except ε α} {f : α → Except ε β} {e : ε} :
    (x >>= f) = .error e ↔ x = .error e ∨ ∃ a, x = .ok a ∧ f a = .error e := by
  cases x <;> simp [bind, Except.bind]

/-- `pure` never panics. -/
@[simp] theorem pure_ne_error {a : α} {e : ε} : (pure a : Except ε α) ≠ .error e := by
  simp [pure, Except.pure]

/-- A `throw` panics with exactly its panic. -/
@[simp] theorem throw_eq_error {e e' : ε} {α : Type} : (throw e : Except ε α) = .error e' ↔ e = e' := by
  simp [throw, throwThe, MonadExceptOf.throw]

/-- A panic ends the rest of a `do` block. -/
@[simp] theorem throw_bind {e : ε} {f : α → Except ε β} : (throw e >>= f : Except ε β) = throw e :=
  rfl

/-- A mapped success is the image of a success. -/
@[simp] theorem map_eq_ok {x : Except ε α} {f : α → β} {b : β} :
    f <$> x = .ok b ↔ ∃ a, x = .ok a ∧ f a = b := by
  cases x <;> simp [Functor.map, Except.map]

end Except

end TinyKVRaft
