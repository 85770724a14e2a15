import TinyKVRaft.Eraftpb

namespace TinyKVRaft.Raftstore

/-!
# The applier of a region

`applier.go` of raftstore, kept to what decides which callback is completed and with what.
The peer hands its applier three kinds of task: the proposals it made (index, term and
callback of each, and whether it is a conf change), batches of committed entries, and a
refresh after a snapshot; `destroy` ends it.  A proposal waits in `pendingCmds`, normal
commands in a queue and a conf change in a slot of its own, until the entry at its index
is applied; `findCallback` then pops the queue from the front, completing every command
it passes as stale, and an empty entry of a new leader completes every command of an
earlier term as stale.

Three ghost lists record what the code does to the outside: the proposals the applier
was handed, every completion of a callback with its response, and every command it
applied.  A callback's `Done` is called at once for a stale command and at the next
`commit` (after the entry) for an applied one; both are recorded when they are decided.

What executing a command writes to the engine, the `applyContext` and its write batch,
and the results sent back to the peer are not modelled; of the execution only the epoch
check, which util.go holds and which the model takes as a parameter, and the membership
change of a `ChangePeer` command are, since removing the applier's own peer sets
`pendingRemove`, which stops the applier.
-/

/-- `metapb.Peer`. -/
structure Peer where
  id : Nat
  storeId : Nat
  deriving Repr, DecidableEq

/-- `metapb.Region`, kept to its peers. -/
structure Region where
  peers : List Peer := []
  deriving Repr, DecidableEq

namespace Region

/-- `util.FindPeer` (the util package is not under src/): the region's peer on a store. -/
def findPeer (region : Region) (storeId : Nat) : Option Peer :=
  region.peers.find? (·.storeId == storeId)

/-- `util.RemovePeer` (not under src/): drops the region's peer on a store and returns it. -/
def removePeer (region : Region) (storeId : Nat) : Option Peer × Region :=
  match region.findPeer storeId with
  | some p => (some p, { peers := region.peers.erase p })
  | none => (none, region)

end Region

/-- `raft_cmdpb.ChangePeerRequest`. -/
structure ChangePeerRequest where
  changeType : ConfChangeType
  peer : Peer
  deriving Repr, DecidableEq

/--
`raft_cmdpb.RaftCmdRequest`, kept to the `ChangePeer` request of its admin part: what its
other requests read and write reaches a callback only as the response's content.
-/
structure RaftCmdRequest where
  changePeer : Option ChangePeerRequest := none
  deriving Repr, DecidableEq

/--
Modelled: the wire form of a command, which is protobuf's and not under src/.  `[0]` is a
command without a conf change, `[1, id, storeId]` and `[2, id, storeId]` add and remove
a peer.  A conf-change entry carries its command in the `Context` of its `ConfChange`;
the model reads that command from the entry's data in the same form.
-/
def RaftCmdRequest.unmarshal : List Nat → Option RaftCmdRequest
  | [0] => some {}
  | [1, id, storeId] => some { changePeer := some { changeType := .addNode, peer := { id, storeId } } }
  | [2, id, storeId] => some { changePeer := some { changeType := .removeNode, peer := { id, storeId } } }
  | _ => none

/-- `GetChangePeerCmd` of peer.go. -/
def getChangePeerCmd (msg : RaftCmdRequest) : Option ChangePeerRequest :=
  msg.changePeer

/-- The errors of `execRaftCmd`: the epoch check's, and those of `execChangePeer`, each named by its message. -/
inductive ExecError where
  /-- An error of `util.CheckRegionEpoch`. -/
  | epochNotMatch
  /-- "%s can't add duplicated peer, peer %s, region %s". -/
  | duplicatedPeer (peer : Peer)
  /-- "%s ignore remove unmatched peer, expected_peer %s, got_peer %s". -/
  | unmatchedPeer (expected got : Peer)
  /-- "%s removing missing peers, peer %s, region %s". -/
  | missingPeer (peer : Peer)
  deriving Repr, DecidableEq

/-- What a callback is completed with. -/
inductive Resp where
  /-- The response `processRaftCmd` builds for the entry at `index`, bound to `term`,
  with the execution's error if it failed. -/
  | exec (index term : Nat) (error : Option ExecError)
  /-- `ErrRespStaleCommand(term)`. -/
  | staleCommand (term : Nat)
  /-- `ErrRespRegionNotFound(regionID)`. -/
  | regionNotFound
  deriving Repr, DecidableEq

/-- The fatal ends of the applier, one per site. -/
inductive ApplierPanic where
  /-- `y.Assert(a.id == regionProposal.Id)` of `handleProposal`, `reg.id` of `handleRefresh`. -/
  | idMismatch (id got : Nat)
  /-- `panic(err)` on entry data that does not unmarshal. -/
  | unmarshal
  /-- `y.Assert(term > 0)` on an empty entry. -/
  | zeroTerm
  /-- "%s process raft cmd need a none zero index". -/
  | zeroIndex
  /-- "%s expect index %d, but got %d". -/
  | expectIndex (expected got : Nat)
  deriving Repr, DecidableEq

/-- `proposal`: a command the peer proposed, with its callback by identity. -/
structure Proposal where
  isConfChange : Bool
  index : Nat
  term : Nat
  cb : Nat
  deriving Repr, DecidableEq

/-- `MsgApplyProposal`. -/
structure MsgApplyProposal where
  id : Nat
  props : List Proposal
  deriving Repr, DecidableEq

/-- `MsgApplyCommitted`. -/
structure MsgApplyCommitted where
  term : Nat
  entries : List Entry
  deriving Repr, DecidableEq

/-- `MsgApplyRefresh`. -/
structure MsgApplyRefresh where
  id : Nat
  term : Nat
  region : Region
  deriving Repr, DecidableEq

/-- `pendingCmd`. -/
structure PendingCmd where
  index : Nat
  term : Nat
  cb : Nat
  deriving Repr, DecidableEq

/-- The pending command a proposal becomes. -/
def Proposal.cmd (p : Proposal) : PendingCmd :=
  { index := p.index, term := p.term, cb := p.cb }

/-- The proposal a pending command was made from, given whether it waits as a conf change. -/
def PendingCmd.toProposal (c : PendingCmd) (isConfChange : Bool) : Proposal :=
  { isConfChange, index := c.index, term := c.term, cb := c.cb }

/-- `pendingCmdQueue`. -/
structure PendingCmdQueue where
  normals : List PendingCmd := []
  confChange : Option PendingCmd := none
  deriving Repr, DecidableEq

namespace PendingCmdQueue

/-- `popNormal`: the first normal command, unless it is of a later term than `term`. -/
def popNormal (q : PendingCmdQueue) (term : Nat) : Option PendingCmd × PendingCmdQueue :=
  match q.normals with
  | [] => (none, q)
  | cmd :: rest => if cmd.term > term then (none, q) else (some cmd, { q with normals := rest })

/-- `appendNormal`. -/
def appendNormal (q : PendingCmdQueue) (cmd : PendingCmd) : PendingCmdQueue :=
  { q with normals := q.normals ++ [cmd] }

/-- `takeConfChange`. -/
def takeConfChange (q : PendingCmdQueue) : Option PendingCmd × PendingCmdQueue :=
  (q.confChange, { q with confChange := none })

/-- `setConfChange`. -/
def setConfChange (q : PendingCmdQueue) (cmd : PendingCmd) : PendingCmdQueue :=
  { q with confChange := some cmd }

/-- The callbacks waiting in the queue. -/
def cbs (q : PendingCmdQueue) : List Nat :=
  q.normals.map (·.cb) ++ q.confChange.toList.map (·.cb)

theorem popNormal_eq_some {q q' : PendingCmdQueue} {term : Nat} {c : PendingCmd}
    (popped : q.popNormal term = (some c, q')) :
    ∃ rest, q.normals = c :: rest ∧ c.term ≤ term ∧ q' = { q with normals := rest } := by
  unfold popNormal at popped
  split at popped
  · cases popped
  · split at popped
    · cases popped
    · cases popped
      exact ⟨_, ‹_›, by omega, rfl⟩

theorem popNormal_eq_none {q q' : PendingCmdQueue} {term : Nat}
    (popped : q.popNormal term = (none, q')) : q' = q := by
  unfold popNormal at popped
  split at popped
  · cases popped; rfl
  · split at popped <;> cases popped
    rfl

end PendingCmdQueue

/-- `applier`, kept to the fields the callbacks depend on, with three ghost records. -/
structure Applier where
  id : Nat
  term : Nat
  region : Region
  pendingRemove : Bool := false
  pendingCmds : PendingCmdQueue := {}
  /-- `applyState.AppliedIndex`, which `prepareFor` reads back from the engine before
  each batch and `commit` writes after each entry. -/
  appliedIndex : Nat := 0
  /-- Ghost: every proposal handed to `handleProposal`, in order. -/
  proposals : List Proposal := []
  /-- Ghost: every completion of a callback, in order, with its response. -/
  done : List (Nat × Resp) := []
  /-- Ghost: every command `processRaftCmd` applied: index, term, whether a conf change. -/
  applied : List (Nat × Nat × Bool) := []
  deriving Repr

/--
`newApplierFromPeer`: an applier for the peer's id, term and region, which starts from the
applied index on disk.
-/
def newApplierFromPeer (id term : Nat) (region : Region) (appliedIndex : Nat) : Applier :=
  { id, term, region, appliedIndex }

namespace Applier

/-- `notifyStaleCommand`. -/
def notifyStaleCommand (a : Applier) (term : Nat) (cmd : PendingCmd) : Applier :=
  { a with done := a.done ++ [(cmd.cb, .staleCommand term)] }

/-- `notifyRegionRemoved`. -/
def notifyRegionRemoved (a : Applier) (cmd : PendingCmd) : Applier :=
  { a with done := a.done ++ [(cmd.cb, .regionNotFound)] }

/-! ## Proposals -/

/-- One round of `handleProposal`'s loop on an applier that is not being removed. -/
def addProposal (a : Applier) (p : Proposal) : Applier :=
  let a := { a with proposals := a.proposals ++ [p] }
  if p.isConfChange then
    let (confCmd, pendingCmds) := a.pendingCmds.takeConfChange
    let a := { a with pendingCmds }
    let a := match confCmd with
      | some confCmd => a.notifyStaleCommand a.term confCmd
      | none => a
    { a with pendingCmds := a.pendingCmds.setConfChange p.cmd }
  else
    { a with pendingCmds := a.pendingCmds.appendNormal p.cmd }

/-- One round of `handleProposal`'s loop on an applier being removed. -/
def rejectProposal (a : Applier) (p : Proposal) : Applier :=
  { a with proposals := a.proposals ++ [p] }.notifyStaleCommand a.term p.cmd

/-- `handleProposal`. -/
def handleProposal (a : Applier) (regionProposal : MsgApplyProposal) :
    Except ApplierPanic Applier :=
  if a.id ≠ regionProposal.id then throw (.idMismatch a.id regionProposal.id)
  else if a.pendingRemove then pure (regionProposal.props.foldl rejectProposal a)
  else pure (regionProposal.props.foldl addProposal a)

/-! ## Applying committed entries -/

/-- The loop of `findCallback` over the normal commands, for at most `fuel` rounds. -/
def findNormal (index term : Nat) : Nat → Applier → Option Nat × Applier
  | 0, a => (none, a)
  | fuel + 1, a =>
    match a.pendingCmds.popNormal term with
    | (none, _) => (none, a)
    | (some head, pendingCmds) =>
      if head.index = index ∧ head.term = term then (some head.cb, { a with pendingCmds })
      else findNormal index term fuel ({ a with pendingCmds }.notifyStaleCommand term head)

/-- `findCallback`: the callback of the command proposed at `index` and `term`, if any. -/
def findCallback (a : Applier) (index term : Nat) (isConfChange : Bool) : Option Nat × Applier :=
  if isConfChange then
    let (cmd, pendingCmds) := a.pendingCmds.takeConfChange
    let a := { a with pendingCmds }
    match cmd with
    | none => (none, a)
    | some cmd =>
      if cmd.index = index ∧ cmd.term = term then (some cmd.cb, a)
      else (none, a.notifyStaleCommand term cmd)
  else findNormal index term a.pendingCmds.normals.length a

/-- `execChangePeer`: the membership change, and `pendingRemove` if it removes this peer. -/
def execChangePeer (a : Applier) (request : ChangePeerRequest) : Except ExecError Applier :=
  let peer := request.peer
  match request.changeType with
  | .addNode =>
    match a.region.findPeer peer.storeId with
    | some p => throw (.duplicatedPeer p)
    | none => pure { a with region := { peers := a.region.peers ++ [peer] } }
  | .removeNode =>
    match a.region.removePeer peer.storeId with
    | (some p, region) =>
      if p ≠ peer then throw (.unmatchedPeer peer p)
      else pure { a with region, pendingRemove := if a.id = peer.id then true else a.pendingRemove }
    | (none, _) => throw (.missingPeer peer)

/-- `execRaftCmd`, with `util.CheckRegionEpoch`, which is not under src/, as `checkRegionEpoch`. -/
def execRaftCmd (a : Applier) (checkRegionEpoch : RaftCmdRequest → Region → Bool) (req : RaftCmdRequest) :
    Except ExecError Applier :=
  if !checkRegionEpoch req a.region then throw .epochNotMatch
  else
    match getChangePeerCmd req with
    | some request => a.execChangePeer request
    | none => pure a

/-- `applyRaftCmd`: a failed execution leaves the applier as it was; the index is applied. -/
def applyRaftCmd (a : Applier) (checkRegionEpoch : RaftCmdRequest → Region → Bool) (index : Nat) (req : RaftCmdRequest) :
    Option ExecError × Applier :=
  let (error, a) : Option ExecError × Applier :=
    match a.execRaftCmd checkRegionEpoch req with
    | .ok a' => (none, a')
    | .error e => (some e, a)
  (error, { a with appliedIndex := index })

/-- `processRaftCmd`: applies the command and completes its callback with the response. -/
def processRaftCmd (a : Applier) (checkRegionEpoch : RaftCmdRequest → Region → Bool) (index term : Nat)
    (cmd : RaftCmdRequest) : Except ApplierPanic Applier :=
  if index = 0 then throw .zeroIndex
  else
    let isConfChange := (getChangePeerCmd cmd).isSome
    let (error, a) := a.applyRaftCmd checkRegionEpoch index cmd
    let (cmdCB, a) := a.findCallback index term isConfChange
    let a := { a with applied := a.applied ++ [(index, term, isConfChange)] }
    match cmdCB with
    | some cb => pure { a with done := a.done ++ [(cb, .exec index term error)] }
    | none => pure a

/-- The loop of `handleRaftEntryNormal` that completes the commands of earlier terms as
stale, for at most `fuel` rounds. -/
def popStaleNormals (term : Nat) : Nat → Applier → Applier
  | 0, a => a
  | fuel + 1, a =>
    match a.pendingCmds.popNormal (term - 1) with
    | (none, _) => a
    | (some cmd, pendingCmds) =>
      popStaleNormals term fuel ({ a with pendingCmds }.notifyStaleCommand term cmd)

/-- `handleRaftEntryNormal`: a command, or the empty entry a new leader appends. -/
def handleRaftEntryNormal (a : Applier) (checkRegionEpoch : RaftCmdRequest → Region → Bool)
    (entry : Entry) : Except ApplierPanic Applier :=
  if entry.data ≠ [] then
    match RaftCmdRequest.unmarshal entry.data with
    | some cmd => a.processRaftCmd checkRegionEpoch entry.index entry.term cmd
    | none => throw .unmarshal
  else
    let a := { a with appliedIndex := entry.index }
    if entry.term = 0 then throw .zeroTerm
    else pure (a.popStaleNormals entry.term a.pendingCmds.normals.length)

/-- `handleRaftEntryConfChange`. -/
def handleRaftEntryConfChange (a : Applier) (checkRegionEpoch : RaftCmdRequest → Region → Bool)
    (entry : Entry) : Except ApplierPanic Applier :=
  match RaftCmdRequest.unmarshal entry.data with
  | some cmd => a.processRaftCmd checkRegionEpoch entry.index entry.term cmd
  | none => throw .unmarshal

/-- The `switch entry.EntryType` of `handleRaftCommittedEntries`. -/
def handleRaftEntry (a : Applier) (checkRegionEpoch : RaftCmdRequest → Region → Bool) (entry : Entry) :
    Except ApplierPanic Applier :=
  match entry.entryType with
  | .entryNormal => a.handleRaftEntryNormal checkRegionEpoch entry
  | .entryConfChange => a.handleRaftEntryConfChange checkRegionEpoch entry

/--
The command that applying `entry` runs: none for the empty entry a new leader appends,
and none for data that does not unmarshal, on which the applier panics.
-/
def commandOf (entry : Entry) : Option RaftCmdRequest :=
  match entry.entryType with
  | .entryNormal => if entry.data ≠ [] then RaftCmdRequest.unmarshal entry.data else none
  | .entryConfChange => RaftCmdRequest.unmarshal entry.data

/-- `handleRaftCommittedEntries`: the entries in order, until this peer is removed. -/
def handleRaftCommittedEntries (a : Applier) (checkRegionEpoch : RaftCmdRequest → Region → Bool) :
    List Entry → Except ApplierPanic Applier
  | [] => pure a
  | entry :: rest =>
    if a.pendingRemove then pure a
    else if a.appliedIndex + 1 ≠ entry.index then
      throw (.expectIndex (a.appliedIndex + 1) entry.index)
    else do
      let a ← a.handleRaftEntry checkRegionEpoch entry
      a.handleRaftCommittedEntries checkRegionEpoch rest

/-- `handleApply`. -/
def handleApply (a : Applier) (checkRegionEpoch : RaftCmdRequest → Region → Bool) (apply : MsgApplyCommitted) :
    Except ApplierPanic Applier :=
  if apply.entries = [] ∨ a.pendingRemove then pure a
  else { a with term := apply.term }.handleRaftCommittedEntries checkRegionEpoch apply.entries

/-! ## Refresh and destroy -/

/--
`handleRefresh`: every pending command is stale, and the applier starts afresh from the
applied index the snapshot wrote, which `prepareFor` reads back.
-/
def handleRefresh (a : Applier) (reg : MsgApplyRefresh) (appliedIndex : Nat) :
    Except ApplierPanic Applier :=
  if a.id ≠ reg.id then throw (.idMismatch a.id reg.id)
  else
    let a := { a with term := reg.term }
    let a := a.pendingCmds.normals.foldl (fun b cmd => b.notifyStaleCommand reg.term cmd) a
    let a := { a with pendingCmds := { a.pendingCmds with normals := [] } }
    let (cmd, pendingCmds) := a.pendingCmds.takeConfChange
    let a := { a with pendingCmds }
    let a := match cmd with
      | some cmd => a.notifyStaleCommand reg.term cmd
      | none => a
    pure { a with term := reg.term, region := reg.region, pendingRemove := false,
                  pendingCmds := {}, appliedIndex }

/-- `destroy`. -/
def destroy (a : Applier) : Applier :=
  let a := a.pendingCmds.normals.foldl (fun b cmd => b.notifyRegionRemoved cmd) a
  let a := { a with pendingCmds := { a.pendingCmds with normals := [] } }
  let (cmd, pendingCmds) := a.pendingCmds.takeConfChange
  let a := { a with pendingCmds }
  match cmd with
  | some cmd => a.notifyRegionRemoved cmd
  | none => a

end Applier

/-- Modelled: what the apply worker does next with an applier, a task or `destroy`. -/
inductive Event where
  | proposal (m : MsgApplyProposal)
  | committed (m : MsgApplyCommitted)
  /-- A refresh, with the applied index the snapshot wrote. -/
  | refresh (m : MsgApplyRefresh) (appliedIndex : Nat)
  | destroy
  deriving Repr

/-- `handleTask`, and `destroy`. -/
def Applier.handleEvent (a : Applier) (checkRegionEpoch : RaftCmdRequest → Region → Bool) :
    Event → Except ApplierPanic Applier
  | .proposal m => a.handleProposal m
  | .committed m => a.handleApply checkRegionEpoch m
  | .refresh m appliedIndex => a.handleRefresh m appliedIndex
  | .destroy => pure a.destroy

/-! ## What each call does -/

namespace PendingCmdQueue

/-- The queue `q'` is `q` after `taken` left it from the front of the normal commands, or
from the conf-change slot. -/
def Takes (isConfChange : Bool) (q : PendingCmdQueue) (taken : List PendingCmd)
    (q' : PendingCmdQueue) : Prop :=
  if isConfChange then q.confChange.toList = taken ∧ q' = { q with confChange := none }
  else ∃ rest, q.normals = taken ++ rest ∧ q' = { q with normals := rest }

variable {k : Bool} {q q' : PendingCmdQueue} {taken : List PendingCmd}

theorem Takes.cbs_perm (takes : q.Takes k taken q') : q.cbs.Perm (taken.map (·.cb) ++ q'.cbs) := by
  unfold Takes at takes
  split at takes
  · obtain ⟨slot, rfl⟩ := takes
    simpa [cbs, ← slot] using List.perm_append_comm
  · obtain ⟨rest, normals, rfl⟩ := takes
    simp [cbs, normals]

theorem Takes.normals_sublist (takes : q.Takes k taken q') : q'.normals.Sublist q.normals := by
  unfold Takes at takes
  split at takes
  · obtain ⟨-, rfl⟩ := takes
    exact .refl _
  · obtain ⟨rest, normals, rfl⟩ := takes
    simp [normals]

theorem Takes.confChange_mem (takes : q.Takes k taken q') {c : PendingCmd}
    (mem : c ∈ q'.confChange) : c ∈ q.confChange := by
  unfold Takes at takes
  split at takes
  · obtain ⟨-, rfl⟩ := takes
    cases mem
  · obtain ⟨rest, -, rfl⟩ := takes
    exact mem

theorem Takes.mem (takes : q.Takes k taken q') {c : PendingCmd} (mem : c ∈ taken) :
    k = false ∧ c ∈ q.normals ∨ k = true ∧ q.confChange = some c := by
  unfold Takes at takes
  split at takes
  · obtain ⟨slot, -⟩ := takes
    rw [← slot] at mem
    exact .inr ⟨‹_›, Option.mem_toList.mp mem⟩
  · obtain ⟨rest, normals, -⟩ := takes
    exact .inl ⟨by simpa using ‹¬k = true›, by simp [normals, mem]⟩

theorem Takes.normals_eq (takes : q.Takes false taken q') :
    ∃ rest, q.normals = taken ++ rest ∧ q' = { q with normals := rest } :=
  takes

/-- A command stays or is taken. -/
theorem Takes.normal_mem (takes : q.Takes k taken q') {c : PendingCmd} (mem : c ∈ q.normals) :
    c ∈ taken ∨ c ∈ q'.normals := by
  unfold Takes at takes
  split at takes
  · obtain ⟨-, rfl⟩ := takes
    exact .inr mem
  · obtain ⟨rest, normals, rfl⟩ := takes
    rw [normals] at mem
    exact List.mem_append.mp mem

theorem Takes.slot_mem (takes : q.Takes k taken q') {c : PendingCmd}
    (slot : q.confChange = some c) : c ∈ taken ∨ q'.confChange = some c := by
  unfold Takes at takes
  split at takes
  · obtain ⟨taken, -⟩ := takes
    exact .inl (taken ▸ by simp [slot])
  · obtain ⟨rest, -, rfl⟩ := takes
    exact .inr slot

end PendingCmdQueue

namespace Applier

open PendingCmdQueue

/-- The loop of `findCallback` completes as stale the normal commands it passes, all of a
term up to `term`, and stops after the one proposed at `index` and `term`, if it finds it. -/
theorem findNormal_spec (index term : Nat) : ∀ (fuel : Nat) (a : Applier),
    ∃ (popped : List PendingCmd) (found : Option PendingCmd) (q : PendingCmdQueue),
      a.pendingCmds.Takes false (popped ++ found.toList) q ∧
      (∀ c ∈ popped, c.term ≤ term ∧ ¬(c.index = index ∧ c.term = term)) ∧
      (∀ c ∈ found, c.index = index ∧ c.term = term) ∧
      findNormal index term fuel a = (found.map (·.cb),
        { a with pendingCmds := q, done := a.done ++ popped.map fun c => (c.cb, .staleCommand term) })
  | 0, a => ⟨[], none, a.pendingCmds, ⟨_, by simp, rfl⟩, by simp, by simp, by simp [findNormal]⟩
  | fuel + 1, a => by
    unfold findNormal
    split
    · exact ⟨[], none, a.pendingCmds, ⟨_, by simp, rfl⟩, by simp, by simp, by simp⟩
    · rename_i head _ popped
      obtain ⟨rest, normals, le, rfl⟩ := popNormal_eq_some popped
      split
      · exact ⟨[], some head, _, ⟨rest, by simp [normals], rfl⟩, by simp, by simpa, by simp⟩
      · rename_i mismatch
        obtain ⟨popped', found, q, ⟨rest', split, rfl⟩, stale, matched, result⟩ :=
          findNormal_spec index term fuel
            ({ a with pendingCmds := { a.pendingCmds with normals := rest } }.notifyStaleCommand term head)
        have split : rest = popped' ++ found.toList ++ rest' := split
        refine ⟨head :: popped', found, _, ⟨rest', by simp [normals, split], rfl⟩, ?_, matched, ?_⟩
        · simp only [List.mem_cons, forall_eq_or_imp]
          exact ⟨⟨le, mismatch⟩, stale⟩
        · rw [result]
          simp [notifyStaleCommand]

/-- `findCallback` takes the commands it passes and the one it finds from the queue of the
command's kind, and completes each passed one as stale. -/
theorem findCallback_spec (a : Applier) (index term : Nat) (isConfChange : Bool) :
    ∃ (popped : List PendingCmd) (found : Option PendingCmd) (q : PendingCmdQueue),
      a.pendingCmds.Takes isConfChange (popped ++ found.toList) q ∧
      (∀ c ∈ popped, (isConfChange = false → c.term ≤ term) ∧ ¬(c.index = index ∧ c.term = term)) ∧
      (∀ c ∈ found, c.index = index ∧ c.term = term) ∧
      a.findCallback index term isConfChange = (found.map (·.cb),
        { a with pendingCmds := q, done := a.done ++ popped.map fun c => (c.cb, .staleCommand term) }) := by
  cases isConfChange with
  | false =>
    obtain ⟨popped, found, q, takes, stale, matched, result⟩ :=
      findNormal_spec index term a.pendingCmds.normals.length a
    exact ⟨popped, found, q, takes, fun c mem => ⟨fun _ => (stale c mem).1, (stale c mem).2⟩,
      matched, result⟩
  | true =>
    rw [findCallback, if_pos rfl]
    dsimp only [takeConfChange]
    cases slot : a.pendingCmds.confChange with
    | none => exact ⟨[], none, _, ⟨by simp [slot], rfl⟩, by simp, by simp, by simp⟩
    | some c =>
      dsimp only
      split
      · exact ⟨[], some c, _, ⟨by simp [slot], rfl⟩, by simp, by simpa, by simp⟩
      · rename_i mismatch
        exact ⟨[c], none, _, ⟨by simp [slot], rfl⟩,
          by simpa using fun same sameTerm => mismatch ⟨same, sameTerm⟩, by simp,
          by simp [notifyStaleCommand]⟩


variable {checkRegionEpoch : RaftCmdRequest → Region → Bool} {a a' : Applier}

/-- Executing a command changes at most the region and sets at most `pendingRemove`. -/
theorem execRaftCmd_frame {cmd : RaftCmdRequest} (done : a.execRaftCmd checkRegionEpoch cmd = .ok a') :
    ∃ region pendingRemove, (a.pendingRemove = true → pendingRemove = true) ∧
      a' = { a with region, pendingRemove } := by
  unfold execRaftCmd execChangePeer at done
  split at done
  · cases done
  split at done
  · dsimp only at done
    split at done
    · split at done
      · cases done
      · cases done
        exact ⟨_, _, fun kept => kept, rfl⟩
    · split at done
      · split at done
        · cases done
        · cases done
          exact ⟨_, _, fun removing => by split <;> simp [removing], rfl⟩
      · cases done
  · cases done
    exact ⟨_, _, fun kept => kept, rfl⟩

theorem applyRaftCmd_frame {index : Nat} {cmd : RaftCmdRequest} {error : Option ExecError}
    (applied : a.applyRaftCmd checkRegionEpoch index cmd = (error, a')) :
    ∃ region pendingRemove, (a.pendingRemove = true → pendingRemove = true) ∧
      a' = { a with region, pendingRemove, appliedIndex := index } := by
  rcases exec : a.execRaftCmd checkRegionEpoch cmd with e | a₂ <;>
    simp only [applyRaftCmd, exec, Prod.mk.injEq] at applied <;> obtain ⟨-, rfl⟩ := applied
  · exact ⟨_, _, fun kept => kept, rfl⟩
  · obtain ⟨region, pendingRemove, kept, rfl⟩ := execRaftCmd_frame exec
    exact ⟨region, pendingRemove, kept, rfl⟩

/-- `processRaftCmd` executes the command, takes what `findCallback` passes and finds, and
completes the found callback with the command's response. -/
theorem processRaftCmd_eq_ok {index term : Nat} {cmd : RaftCmdRequest}
    (done : a.processRaftCmd checkRegionEpoch index term cmd = .ok a') :
    ∃ (error : Option ExecError) (a₁ : Applier) (popped : List PendingCmd)
      (found : Option PendingCmd) (q : PendingCmdQueue),
      index ≠ 0 ∧ a.applyRaftCmd checkRegionEpoch index cmd = (error, a₁) ∧
      a₁.pendingCmds.Takes (getChangePeerCmd cmd).isSome (popped ++ found.toList) q ∧
      (∀ c ∈ popped, ((getChangePeerCmd cmd).isSome = false → c.term ≤ term) ∧
        ¬(c.index = index ∧ c.term = term)) ∧
      (∀ c ∈ found, c.index = index ∧ c.term = term) ∧
      a' = { a₁ with
        pendingCmds := q
        done := a₁.done ++ popped.map (fun c => (c.cb, .staleCommand term)) ++
          found.toList.map (fun c => (c.cb, .exec index term error))
        applied := a₁.applied ++ [(index, term, (getChangePeerCmd cmd).isSome)] } := by
  unfold processRaftCmd at done
  split at done
  · cases done
  · rcases applied : a.applyRaftCmd checkRegionEpoch index cmd with ⟨error, a₁⟩
    obtain ⟨popped, found, q, takes, stale, matched, result⟩ :=
      findCallback_spec a₁ index term (getChangePeerCmd cmd).isSome
    rw [applied] at done
    dsimp only at done
    rw [result] at done
    refine ⟨error, a₁, popped, found, q, ‹_›, rfl, takes, stale, matched, ?_⟩
    cases found <;>
      simp only [Option.map, Option.toList, List.map, List.append_nil, List.append_assoc,
        List.singleton_append, pure_eq_ok] at done ⊢ <;> exact done.symm


/-- The stale loop of an empty entry completes a front of the normal commands, all of
terms up to `term - 1`. -/
theorem popStaleNormals_spec (term : Nat) : ∀ (fuel : Nat) (a : Applier),
    ∃ (popped : List PendingCmd) (q : PendingCmdQueue),
      a.pendingCmds.Takes false popped q ∧ (∀ c ∈ popped, c.term ≤ term - 1) ∧
      a.popStaleNormals term fuel =
        { a with pendingCmds := q, done := a.done ++ popped.map fun c => (c.cb, .staleCommand term) }
  | 0, a => ⟨[], a.pendingCmds, ⟨_, by simp, rfl⟩, by simp, by simp [popStaleNormals]⟩
  | fuel + 1, a => by
    unfold popStaleNormals
    split
    · exact ⟨[], a.pendingCmds, ⟨_, by simp, rfl⟩, by simp, by simp⟩
    · rename_i head _ popped
      obtain ⟨rest, normals, le, rfl⟩ := popNormal_eq_some popped
      obtain ⟨popped', q, ⟨rest', split, rfl⟩, earlier, result⟩ :=
        popStaleNormals_spec term fuel
          ({ a with pendingCmds := { a.pendingCmds with normals := rest } }.notifyStaleCommand term head)
      have split : rest = popped' ++ rest' := split
      refine ⟨head :: popped', _, ⟨rest', by simp [normals, split], rfl⟩, ?_, ?_⟩
      · simp only [List.mem_cons, forall_eq_or_imp]
        exact ⟨le, earlier⟩
      · rw [result]
        simp [notifyStaleCommand]

/-- Applying an entry is the stale loop of an empty entry, or `processRaftCmd` of its
command. -/
theorem handleRaftEntry_eq_ok {entry : Entry} (done : a.handleRaftEntry checkRegionEpoch entry = .ok a') :
    (commandOf entry = none ∧ ∃ (popped : List PendingCmd) (q : PendingCmdQueue),
      a.pendingCmds.Takes false popped q ∧ (∀ c ∈ popped, c.term < entry.term) ∧
      a' = { a with appliedIndex := entry.index, pendingCmds := q,
                    done := a.done ++ popped.map fun c => (c.cb, .staleCommand entry.term) }) ∨
    ∃ cmd, commandOf entry = some cmd ∧ a.processRaftCmd checkRegionEpoch entry.index entry.term cmd = .ok a' := by
  unfold handleRaftEntry at done
  unfold commandOf
  cases kind : entry.entryType <;> simp only [kind] at done ⊢
  · unfold handleRaftEntryNormal at done
    split at done
    · rename_i data
      split at done
      · rename_i decoded
        exact .inr ⟨_, by simp [data, decoded], done⟩
      · cases done
    · rename_i empty
      dsimp only at done
      split at done
      · cases done
      · obtain ⟨popped, q, takes, earlier, result⟩ :=
          popStaleNormals_spec entry.term a.pendingCmds.normals.length { a with appliedIndex := entry.index }
        rw [result] at done
        cases done
        exact .inl ⟨by simp [empty], popped, q, takes, fun c mem => by
          have := earlier c mem; omega, rfl⟩
  · unfold handleRaftEntryConfChange at done
    split at done
    · exact .inr ⟨_, ‹_›, done⟩
    · cases done

@[simp] theorem addProposal_proposals (a : Applier) (p : Proposal) :
    (a.addProposal p).proposals = a.proposals ++ [p] := by
  unfold addProposal
  split
  · dsimp only [takeConfChange]
    split <;> rfl
  · rfl

theorem addProposal_normal {p : Proposal} (normal : p.isConfChange = false) (a : Applier) :
    a.addProposal p =
      { a with proposals := a.proposals ++ [p], pendingCmds := a.pendingCmds.appendNormal p.cmd } := by
  simp [addProposal, normal]

theorem addProposal_conf {p : Proposal} (conf : p.isConfChange = true) (a : Applier) :
    a.addProposal p =
      { a with
        proposals := a.proposals ++ [p]
        pendingCmds := { a.pendingCmds with confChange := some p.cmd }
        done := a.done ++ a.pendingCmds.confChange.toList.map
          fun c => (c.cb, .staleCommand a.term) } := by
  simp only [addProposal, conf, if_true, takeConfChange]
  cases a.pendingCmds.confChange <;> simp [notifyStaleCommand, setConfChange]

theorem foldl_notifyStaleCommand (term : Nat) :
    ∀ (cmds : List PendingCmd) (a : Applier),
      cmds.foldl (fun b cmd => b.notifyStaleCommand term cmd) a =
        { a with done := a.done ++ cmds.map fun c => (c.cb, .staleCommand term) }
  | [], a => by simp
  | c :: cmds, a => by
    rw [List.foldl_cons, foldl_notifyStaleCommand term cmds]
    simp [notifyStaleCommand]

theorem foldl_notifyRegionRemoved :
    ∀ (cmds : List PendingCmd) (a : Applier),
      cmds.foldl (fun b cmd => b.notifyRegionRemoved cmd) a =
        { a with done := a.done ++ cmds.map fun c => (c.cb, .regionNotFound) }
  | [], a => by simp
  | c :: cmds, a => by
    rw [List.foldl_cons, foldl_notifyRegionRemoved cmds]
    simp [notifyRegionRemoved]

/-- On an applier being removed, every proposal is recorded and completed as stale. -/
theorem foldl_rejectProposal :
    ∀ (props : List Proposal) (a : Applier),
      props.foldl rejectProposal a =
        { a with proposals := a.proposals ++ props
                 done := a.done ++ props.map fun p => (p.cb, .staleCommand a.term) }
  | [], a => by simp
  | p :: props, a => by
    rw [List.foldl_cons, foldl_rejectProposal props]
    simp [rejectProposal, notifyStaleCommand, Proposal.cmd]

/-- A refresh completes every pending command as stale and starts afresh. -/
theorem handleRefresh_eq_ok {reg : MsgApplyRefresh} {appliedIndex : Nat}
    (done : a.handleRefresh reg appliedIndex = .ok a') :
    a' = { a with
      term := reg.term
      region := reg.region
      pendingRemove := false
      pendingCmds := {}
      appliedIndex
      done := a.done ++ (a.pendingCmds.normals ++ a.pendingCmds.confChange.toList).map
        fun c => (c.cb, .staleCommand reg.term) } := by
  unfold handleRefresh at done
  split at done
  · cases done
  · dsimp only [takeConfChange] at done
    rw [foldl_notifyStaleCommand] at done
    cases slot : a.pendingCmds.confChange <;> simp [slot, notifyStaleCommand] at done ⊢ <;>
      exact done.symm

/-- `destroy` completes every pending command with `RegionNotFound`. -/
theorem destroy_eq (a : Applier) :
    a.destroy = { a with
      pendingCmds := {}
      done := a.done ++ (a.pendingCmds.normals ++ a.pendingCmds.confChange.toList).map
        fun c => (c.cb, .regionNotFound) } := by
  unfold destroy
  dsimp only [takeConfChange]
  rw [foldl_notifyRegionRemoved]
  cases slot : a.pendingCmds.confChange <;> simp [slot, notifyRegionRemoved]

end Applier
end TinyKVRaft.Raftstore
