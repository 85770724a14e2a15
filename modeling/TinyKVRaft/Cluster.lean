import TinyKVRaft.Boot

namespace TinyKVRaft

/-!
# The cluster

Modelled from the spec's system model: nodes, the network between them and their
drivers.  A node is a `Raft` of this model and changes only through the calls a driver
makes on it; what lies around the nodes is what the spec allows a driver and a network
to do.

* The network keeps every message ever sent and may deliver any of them, at any time
  and any number of times, so loss, duplication and reordering are all runs.
* After each call the driver hands the node's outgoing messages to the network.
* A driver ticks its node, campaigns, proposes, asks for a leader transfer, and applies
  the committed entries in order, a conf change through `addNode` or `removeNode`.
* A ghost list records each `(id, term)` at which a node became leader.

A call that panics is not a step: runs go on only through calls that return.
-/

namespace ConfChange

/-- Modelled from the spec: the data of a conf-change entry, its kind and its node. -/
def encode (cc : ConfChange) : List Nat :=
  [match cc.changeType with | .addNode => 0 | .removeNode => 1, cc.nodeId]

/-- Modelled from the spec: the driver's reading of a conf-change entry's data. -/
def decode : List Nat → Option ConfChange
  | [0, nodeId] => some { changeType := .addNode, nodeId }
  | [1, nodeId] => some { changeType := .removeNode, nodeId }
  | _ => none

/-- The driver reads back every conf change a proposal wrote. -/
@[simp] theorem decode_encode (cc : ConfChange) : decode cc.encode = some cc := by
  obtain ⟨_ | _, _⟩ := cc <;> rfl

end ConfChange

namespace Raft

/-- Modelled from the spec: `ApplyConfChange`, the membership call of a conf change. -/
def applyConfChange (r : Raft) (cc : ConfChange) : Except Panic Raft :=
  match cc.changeType with
  | .addNode => pure (r.addNode cc.nodeId)
  | .removeNode => r.removeNode cc.nodeId

/--
Modelled from the spec: the driver applies the entry after `applied`, a conf change
through `applyConfChange`.  Past `committed`, `appliedTo` panics.
-/
def applyNext (r : Raft) : Except Panic Raft := do
  let index := r.raftLog.applied + 1
  let raftLog ← r.raftLog.appliedTo index
  let r := { r with raftLog }
  match r.raftLog.entryAt index with
  | some { entryType := .entryConfChange, data, .. } =>
      match ConfChange.decode data with
      | some cc => r.applyConfChange cc
      | none => pure r
  | _ => pure r

/-- Whether the entry a driver applies next is a conf change it reads, so that applying it changes the peers. -/
def nextIsConfChange (r : Raft) : Bool :=
  match r.raftLog.entryAt (r.raftLog.applied + 1) with
  | some { entryType := .entryConfChange, data, .. } => (ConfChange.decode data).isSome
  | _ => false

/-- Applying an entry that is not a conf change only moves `applied`. -/
theorem applyNext_of_plain {r r' : Raft} (plain : r.nextIsConfChange = false)
    (done : r.applyNext = .ok r') :
    ∃ raftLog, r.raftLog.appliedTo (r.raftLog.applied + 1) = .ok raftLog ∧ r' = { r with raftLog } := by
  unfold applyNext at done
  obtain ⟨raftLog, applied, rest⟩ := bind_eq_ok.mp done
  obtain ⟨a, rfl⟩ := RaftLog.appliedTo_frame applied
  refine ⟨_, applied, ?_⟩
  have sameEntry : ({ r.raftLog with applied := a } : RaftLog).entryAt (r.raftLog.applied + 1) =
      r.raftLog.entryAt (r.raftLog.applied + 1) := rfl
  unfold nextIsConfChange at plain
  dsimp only at rest
  rw [sameEntry] at rest
  split at rest
  · rename_i next
    rw [next] at plain
    split at rest
    · rename_i decoded
      simp [decoded] at plain
    · exact (pure_eq_ok.mp rest).symm
  · exact (pure_eq_ok.mp rest).symm

/--
Applying the next committed entry moves `applied` to it and, for a conf change, changes
the peers and may commit and broadcast; it appends nothing.
-/
theorem applyNext_eq_ok {r r' : Raft} (done : r.applyNext = .ok r') :
    r.raftLog.applied + 1 ≤ r.raftLog.committed ∧
      ∃ raftLog prs msgs leadTransferee, r' = { r with raftLog, prs, msgs, leadTransferee } ∧
        { r.raftLog with applied := r.raftLog.applied + 1 }.Extends raftLog ∧
        raftLog.ents = r.raftLog.ents := by
  unfold applyNext at done
  obtain ⟨raftLog, applied, rest⟩ := bind_eq_ok.mp done
  have moved : r.raftLog.applied + 1 ≤ r.raftLog.committed ∧
      raftLog = { r.raftLog with applied := r.raftLog.applied + 1 } := by
    unfold RaftLog.appliedTo at applied
    rw [if_neg (Nat.succ_ne_zero _)] at applied
    split_ifs at applied with outside
    exact ⟨by omega, (pure_eq_ok.mp applied).symm⟩
  obtain ⟨within, rfl⟩ := moved
  refine ⟨within, ?_⟩
  have unchanged : ∃ raftLog prs msgs leadTransferee,
      { r with raftLog := { r.raftLog with applied := r.raftLog.applied + 1 } } =
        { r with raftLog, prs, msgs, leadTransferee } ∧
      { r.raftLog with applied := r.raftLog.applied + 1 }.Extends raftLog ∧
      raftLog.ents = r.raftLog.ents :=
    ⟨_, _, _, _, rfl, .refl _, rfl⟩
  dsimp only at rest
  split at rest
  · split at rest
    · unfold applyConfChange at rest
      split at rest
      · cases pure_eq_ok.mp rest
        obtain ⟨prs, added⟩ := addNode_eq { r with raftLog := { r.raftLog with applied := r.raftLog.applied + 1 } } _
        rw [added]
        exact ⟨_, _, _, _, rfl, .refl _, rfl⟩
      · obtain ⟨raftLog, prs, msgs, leadTransferee, rfl, extended, ents⟩ := removeNode_eq_ok rest
        exact ⟨_, _, _, _, rfl, extended, ents⟩
    · cases pure_eq_ok.mp rest
      exact unchanged
  · cases pure_eq_ok.mp rest
    exact unchanged

end Raft

/-- Modelled from the spec: what a driver or the network can do next. -/
inductive Event where
  /-- The driver of node `id` calls `tick`. -/
  | tick (id : Nat)
  /-- The network delivers the `k`-th message ever sent, again if it did before. -/
  | deliver (k : Nat)
  /-- The driver of node `id` campaigns: `Step` of a local `MsgHup`. -/
  | campaign (id : Nat)
  /-- The driver of node `id` proposes one normal entry. -/
  | propose (id : Nat) (data : List Nat)
  /-- The driver of node `id` proposes one conf-change entry. -/
  | proposeConfChange (id : Nat) (cc : ConfChange)
  /-- The driver of node `id` asks it to hand leadership to `transferee`. -/
  | transferLeader (id transferee : Nat)
  /-- The driver of node `id` applies its next committed entry. -/
  | apply (id : Nat)
  deriving Repr, DecidableEq

namespace Event

/-- A driver's `Step` of one message, its error result dropped. -/
def stepped (m : Message) (r : Raft) : Except Panic Raft :=
  Prod.fst <$> r.step m

/--
The node an event acts on and the call it makes there, given the messages sent so far;
`none` for a message that was never sent.
-/
def call (sent : List Message) : Event → Option (Nat × (Raft → Except Panic Raft))
  | .tick id => some (id, Raft.tick)
  | .deliver k => (sent.get? k).map fun m => (m.to, stepped m)
  | .campaign id => some (id, stepped { msgType := .msgHup })
  | .propose id data => some (id, stepped { msgType := .msgPropose, entries := [{ data }] })
  | .proposeConfChange id cc =>
      some (id, stepped
        { msgType := .msgPropose, entries := [{ entryType := .entryConfChange, data := cc.encode }] })
  | .transferLeader id transferee =>
      some (id, stepped { msgType := .msgTransferLeader, «from» := transferee })
  | .apply id => some (id, Raft.applyNext)

end Event

/-- Modelled from the spec: the nodes by id, every message sent, and the ghost record of elections. -/
structure Cluster where
  nodes : Nat → Option Raft
  sent : List Message := []
  elected : List (Nat × Nat) := []

namespace Cluster

/--
Whether a call made a leader: it ends as leader, and began as something else or in
another term.  Within one call only `becomeLeader` makes a leader, and at most once.
-/
def becameLeader (before after : Raft) : Bool :=
  decide (after.state = .stateLeader ∧ (before.state ≠ .stateLeader ∨ before.term ≠ after.term))

/-- The driver's turn after a call on node `id`: keep the node, send its messages, note an election. -/
def settle (c : Cluster) (id : Nat) (before after : Raft) : Cluster where
  nodes := fun j => if j = id then some { after with msgs := [] } else c.nodes j
  sent := c.sent ++ after.msgs
  elected := if becameLeader before after then c.elected ++ [(id, after.term)] else c.elected

/-- One step of the cluster: an event's call on its node, then the driver's turn. -/
def step (c : Cluster) (event : Event) : Option Cluster := do
  let (id, call) ← event.call c.sent
  let before ← c.nodes id
  match call before with
  | .ok after => some (c.settle id before after)
  | .error _ => none

@[simp] theorem settle_sent (c : Cluster) (id : Nat) (before after : Raft) :
    (c.settle id before after).sent = c.sent ++ after.msgs :=
  rfl

@[simp] theorem settle_nodes (c : Cluster) (id : Nat) (before after : Raft) (j : Nat) :
    (c.settle id before after).nodes j = if j = id then some { after with msgs := [] } else c.nodes j :=
  rfl

/-- A call records an election only of its own node, in the term it ends in. -/
theorem mem_settle_elected {c : Cluster} {id i t : Nat} {before after : Raft} :
    (i, t) ∈ (c.settle id before after).elected ↔
      (i, t) ∈ c.elected ∨ becameLeader before after = true ∧ i = id ∧ t = after.term := by
  unfold settle
  split_ifs with became <;> simp [became]

/-- A step of the cluster is a call that returned on an existing node, then the driver's turn. -/
theorem step_eq_some {c c' : Cluster} {event : Event} (stepped : c.step event = some c') :
    ∃ id call before after, event.call c.sent = some (id, call) ∧ c.nodes id = some before ∧
      call before = .ok after ∧ c' = c.settle id before after := by
  unfold step at stepped
  obtain ⟨⟨id, call⟩, called, rest⟩ := Option.bind_eq_some.mp stepped
  obtain ⟨before, node, rest⟩ := Option.bind_eq_some.mp rest
  split at rest
  · rename_i after done
    exact ⟨id, call, before, after, called, node, done, (Option.some.inj rest).symm⟩
  · cases rest

/-- The events of a run, one after another; `none` once one of them cannot happen. -/
def run (c : Cluster) : List Event → Option Cluster
  | [] => some c
  | event :: events => (c.step event).bind fun c' => c'.run events

/-- The clusters that runs from `c₀` reach. -/
inductive Reachable (c₀ : Cluster) : Cluster → Prop
  | start : Reachable c₀ c₀
  | step {c c' : Cluster} {event : Event} :
      Reachable c₀ c → c.step event = some c' → Reachable c₀ c'

/-- Whatever a run of events ends in is reachable. -/
theorem Reachable.run {c₀ c c' : Cluster} (reached : Reachable c₀ c) :
    ∀ {events : List Event}, c.run events = some c' → Reachable c₀ c'
  | [], ran => by cases ran; exact reached
  | event :: events, ran => by
      obtain ⟨c₁, stepped, ran⟩ := Option.bind_eq_some.mp ran
      exact (reached.step stepped).run ran

/--
Modelled from the spec: the cluster of fresh nodes `ids`, each started by `newRaft` on
empty storage with all of `ids` as its peers, and nothing sent yet.
-/
def boot (ids : List Nat) (electionTick heartbeatTick : Nat) : Except Panic Cluster := do
  let nodes ← ids.foldlM
    (fun nodes id => do
      let r ← newRaft { id, peers := ids, electionTick, heartbeatTick }
      pure fun j => if j = id then some r else nodes j)
    fun _ => none
  pure { nodes }

/--
Starting the nodes one after another: each node of the result is one of `acc`, or was
started for its own id, and every id was started.
-/
theorem foldlM_start {start : Nat → Except Panic Raft} :
    ∀ (l : List Nat) (acc nodes : Nat → Option Raft),
      l.foldlM (fun nodes id => do
          let r ← start id
          pure fun j => if j = id then some r else nodes j) acc = .ok nodes →
        (∀ id ∈ l, ∃ r, start id = .ok r) ∧
          ∀ j r, nodes j = some r → acc j = some r ∨ j ∈ l ∧ start j = .ok r
  | [], acc, nodes, folded => by
      cases pure_eq_ok.mp folded
      exact ⟨by simp, fun _ _ held => .inl held⟩
  | id :: l, acc, nodes, folded => by
      obtain ⟨acc', first, rest⟩ := bind_eq_ok.mp folded
      obtain ⟨r₀, started, rfl⟩ := bind_eq_ok.mp first |>.imp fun _ => And.imp_right pure_eq_ok.mp
      obtain ⟨allStarted, origin⟩ := foldlM_start l _ nodes rest
      refine ⟨fun id' member => ?_, fun j r held => ?_⟩
      · rcases List.mem_cons.mp member with rfl | later
        exacts [⟨r₀, started⟩, allStarted id' later]
      · rcases origin j r held with fromAcc | ⟨later, startedLater⟩
        · by_cases same : j = id
          · subst same
            rw [if_pos rfl, Option.some.injEq] at fromAcc
            exact .inr ⟨List.mem_cons_self _ _, fromAcc ▸ started⟩
          · simp only [if_neg same] at fromAcc
            exact .inl fromAcc
        · exact .inr ⟨List.mem_cons_of_mem _ later, startedLater⟩

/-- A booted cluster has sent nothing, and each of its nodes is `newRaft` of its own id. -/
theorem boot_eq_ok {ids : List Nat} {electionTick heartbeatTick : Nat} {c₀ : Cluster}
    (booted : boot ids electionTick heartbeatTick = .ok c₀) :
    c₀.sent = [] ∧ c₀.elected = [] ∧ (∀ id ∈ ids, id ≠ None) ∧
      ∀ j r, c₀.nodes j = some r →
        j ∈ ids ∧ newRaft { id := j, peers := ids, electionTick, heartbeatTick } = .ok r := by
  unfold boot at booted
  obtain ⟨nodes, folded, rest⟩ := bind_eq_ok.mp booted
  cases pure_eq_ok.mp rest
  obtain ⟨allStarted, origin⟩ := foldlM_start ids _ nodes folded
  refine ⟨rfl, rfl, fun id member => ?_, fun j r held => ?_⟩
  · obtain ⟨r, started⟩ := allStarted id member
    exact fun none => r.id_ne_none ((newRaft_eq_ok started).2.2.2.2.1.trans none)
  · rcases origin j r held with none | started
    · cases none
    · exact started

/-- A run written out and checked by computation: booted, it ends where `p` holds. -/
theorem run_of_passes {ids : List Nat} {electionTick heartbeatTick : Nat}
    (events : List Event) (p : Cluster → Prop) [DecidablePred p]
    (passes : (match boot ids electionTick heartbeatTick with
      | .ok c₀ => (c₀.run events).any fun c => decide (p c)
      | .error _ => false) = true) :
    ∃ c₀ c, boot ids electionTick heartbeatTick = .ok c₀ ∧ c₀.run events = some c ∧ p c := by
  cases booted : boot ids electionTick heartbeatTick with
  | error => simp [booted] at passes
  | ok c₀ =>
      cases ran : c₀.run events with
      | none => simp [booted, ran] at passes
      | some c =>
          simp only [booted, ran, Option.any_some, decide_eq_true_eq] at passes
          exact ⟨c₀, c, rfl, ran, passes⟩

/--
A booted cluster whose run of `events` ends where `p` holds reaches a cluster where `p`
holds; the premise is a computation, for a run written out.
-/
theorem reachable_of_run {ids : List Nat} {electionTick heartbeatTick : Nat}
    (events : List Event) (p : Cluster → Prop) [DecidablePred p]
    (passes : (match boot ids electionTick heartbeatTick with
      | .ok c₀ => (c₀.run events).any fun c => decide (p c)
      | .error _ => false) = true) :
    ∃ c₀ c, boot ids electionTick heartbeatTick = .ok c₀ ∧ Reachable c₀ c ∧ p c := by
  obtain ⟨c₀, c, booted, ran, holds⟩ := run_of_passes events p passes
  exact ⟨c₀, c, booted, Reachable.start.run ran, holds⟩

/-- Node `id` holds `e` at index `i` and has committed it. -/
def CommittedAt (c : Cluster) (id i : Nat) (e : Entry) : Prop :=
  ∃ r, c.nodes id = some r ∧ r.raftLog.entryAt i = some e ∧ i ≤ r.raftLog.committed

instance (c : Cluster) (id i : Nat) (e : Entry) : Decidable (c.CommittedAt id i e) :=
  decidable_of_iff
    ((c.nodes id).any fun r => decide (r.raftLog.entryAt i = some e ∧ i ≤ r.raftLog.committed))
    (by unfold CommittedAt; cases c.nodes id <;> simp)

/--
Two leaders of one term, in four nodes `{1, 2, 3, 4}`.  Node 1 wins term 1 with the
votes of 2 and 3, and commits, on 3 and 4, the removal of node 2.  It hands leadership
to 3, which campaigns on `MsgTimeoutNow` before its driver applied the removal, so its
vote requests reach node 2.  Its driver then applies the removal; node 2's grant comes
in, and `poll` counts it: two grants, a quorum of `{1, 3, 4}`.  Node 4 applies the
removal as well, campaigns in term 2 and wins with node 1's vote.
-/
def removalRace : List Event :=
  [.campaign 1, .deliver 1, .deliver 2, .deliver 3, .deliver 4,
    .proposeConfChange 1 { changeType := .removeNode, nodeId := 2 },
    .deliver 9, .deliver 8, .deliver 11, .deliver 12, .deliver 14, .deliver 13,
    .transferLeader 1 3, .deliver 18, .apply 3, .apply 3, .deliver 20, .deliver 22,
    .apply 4, .apply 4, .campaign 4, .deliver 26, .deliver 27]

/-- Nodes 3 and 4 both become leader of term 2. -/
theorem removalRace_elects_two_leaders :
    ∃ c₀ c, boot [1, 2, 3, 4] 10 1 = .ok c₀ ∧ Reachable c₀ c ∧
      (3, 2) ∈ c.elected ∧ (4, 2) ∈ c.elected :=
  reachable_of_run removalRace (fun c => (3, 2) ∈ c.elected ∧ (4, 2) ∈ c.elected) (by decide)

/--
After `removalRace`, each leader of term 2 proposes an entry of its own at index 4 and
commits it through node 1: the entry of 3 arrives first; the one of 4 then matches it in
index and term, so node 1 keeps the first and acknowledges both.
-/
def removalRaceCommits : List Event :=
  removalRace ++
    [.propose 3 [7], .deliver 31, .deliver 32, .propose 4 [8], .deliver 36, .deliver 37]

/-- Nodes 3 and 4 commit different entries at index 4. -/
theorem removalRace_commits_two_entries :
    ∃ c₀ c, boot [1, 2, 3, 4] 10 1 = .ok c₀ ∧ Reachable c₀ c ∧
      c.CommittedAt 3 4 { term := 2, index := 4, data := [7] } ∧
      c.CommittedAt 4 4 { term := 2, index := 4, data := [8] } :=
  reachable_of_run removalRaceCommits
    (fun c => c.CommittedAt 3 4 { term := 2, index := 4, data := [7] } ∧
      c.CommittedAt 4 4 { term := 2, index := 4, data := [8] }) (by decide)

end Cluster

end TinyKVRaft
