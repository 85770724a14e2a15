import TinyKVRaft.ElectionStep

namespace TinyKVRaft

/-!
# Election safety with a fixed peer set

In every run of the cluster in which no driver applies a conf change, at most one node
ever becomes leader of a term.  The argument is the usual one, over the ghost record of
elections and the grants the network keeps:

* a node grants at most one candidate per term: a grant names the voter's term and its
  new vote, and within a term the vote never moves off a candidate (`voter`, `unique`);
* a candidate or leader has voted for itself, so a node elected in a term granted no one
  else in it (`selfVote`);
* each election counted a majority of the peer set, every voter the winner itself or one
  whose grant is on the wire (`quorum`).

Two majorities of one peer set share a voter, and that voter granted at most one of the
two winners.  `Inv` collects these facts with the ones of `NodeInv` and `Wire` that keep
them inductive; one lemma says that each event keeps it, using the `Effect` of the call
the event makes.
-/

namespace Cluster

open Raft

variable {ids : List Nat} {c c' : Cluster}

/-- Whether an event is a driver applying a conf change. -/
def appliesConfChange (c : Cluster) : Event → Bool
  | .apply j => (c.nodes j).any Raft.nextIsConfChange
  | _ => false

/-- The clusters that runs from `c₀` reach when no driver applies a conf change. -/
inductive FixedReachable (c₀ : Cluster) : Cluster → Prop
  | start : FixedReachable c₀ c₀
  | step {c c' : Cluster} {event : Event} :
      FixedReachable c₀ c → c.appliesConfChange event = false → c.step event = some c' →
        FixedReachable c₀ c'

/-- Voter `k` granted candidate `i` its vote in term `t`: the grant is on the wire. -/
def Granted (c : Cluster) (k t i : Nat) : Prop :=
  ∃ g ∈ c.sent, g.Grant ∧ g.from = k ∧ g.to = i ∧ g.term = t

/-- The invariant of runs on the fixed peer set `ids`. -/
structure Inv (ids : List Nat) (c : Cluster) : Prop where
  none_not_mem : None ∉ ids
  node : ∀ j r, c.nodes j = some r →
    r.id = j ∧ r.msgs = [] ∧ NodeInv ids r ∧ VotesFrom (fun k t => c.Granted k t j) r
  wire : ∀ m ∈ c.sent, Wire ids m
  /-- A grant is backed by its voter: it is at most the voter's term, and in that term its vote. -/
  voter : ∀ g ∈ c.sent, g.Grant →
    ∃ r, c.nodes g.from = some r ∧ g.term ≤ r.term ∧ (g.term = r.term → r.vote = g.to)
  /-- A voter grants one candidate per term. -/
  unique : ∀ g ∈ c.sent, ∀ g' ∈ c.sent, g.Grant → g'.Grant → g.from = g'.from → g.term = g'.term →
    g.to = g'.to
  /-- A node elected in a term has, while in that term, voted for itself. -/
  leader : ∀ i t, (i, t) ∈ c.elected → ∃ r, c.nodes i = some r ∧ t ≤ r.term ∧ (t = r.term → r.vote = i)
  /-- A node elected in a term granted no one else in it. -/
  selfVote : ∀ i t, (i, t) ∈ c.elected → ∀ g ∈ c.sent, g.Grant → g.from = i → g.term = t → g.to = i
  /-- Each election counted a majority of `ids`. -/
  quorum : ∀ i t, (i, t) ∈ c.elected → ∃ voters : Finset Nat, voters ⊆ ids.toFinset ∧
    ids.toFinset.card < 2 * voters.card ∧ ∀ k ∈ voters, k = i ∨ c.Granted k t i

/-- Two winners of one term are the same node: their majorities share a voter. -/
theorem Inv.elected_unique (inv : Inv ids c) {i i' t : Nat} (elected : (i, t) ∈ c.elected)
    (elected' : (i', t) ∈ c.elected) : i = i' := by
  obtain ⟨voters, within, majority, counted⟩ := inv.quorum i t elected
  obtain ⟨voters', within', majority', counted'⟩ := inv.quorum i' t elected'
  obtain ⟨k, shared⟩ := Finset.inter_nonempty_of_card_lt_card_add_card within within' (by omega)
  obtain ⟨member, member'⟩ := Finset.mem_inter.mp shared
  rcases counted k member with self | ⟨g, sent, grant, from', to', term'⟩ <;>
    rcases counted' k member' with same | ⟨g', sent', grant', from'', to'', term''⟩
  · exact self.symm.trans same
  · exact (inv.selfVote i t elected g' sent' grant' (from''.trans self) term'').symm.trans to''
  · exact to'.symm.trans (inv.selfVote i' t elected' g sent grant (from'.trans same) term')
  · exact to'.symm.trans ((inv.unique g sent g' sent' grant grant' (from'.trans from''.symm)
      (term'.trans term''.symm)).trans to'')

/-- A step of a node on a message fit for it: its `Effect`, and the rule of terms and votes. -/
theorem stepped_effect {granted : Nat → Nat → Prop} {r r' : Raft} {m : Message}
    (inv : NodeInv ids r) (votes : VotesFrom granted r) (incoming : Incoming ids m)
    (grantIn : m.Grant → granted m.from m.term) (done : Event.stepped m r = .ok r') :
    Effect ids granted r r' ∧ r.term ≤ r'.term ∧
      (r'.term = r.term → r.vote ≠ None → r'.vote = r.vote) := by
  obtain ⟨⟨r'', e⟩, stepped, rfl⟩ := map_eq_ok.mp done
  obtain ⟨later, sameVote⟩ := step_termVote incoming.termSet stepped
  exact ⟨step_effect inv votes incoming grantIn stepped, later,
    fun same voted => (sameVote same).resolve_right fun ⟨unvoted, _⟩ => voted unvoted⟩

/-- The call an event makes on a node of a cluster satisfying `Inv`: its `Effect`, and the rule of terms and votes. -/
theorem Inv.call_effect (inv : Inv ids c) {event : Event} {id : Nat}
    {call : Raft → Except Panic Raft} {before after : Raft}
    (fixed : c.appliesConfChange event = false) (called : event.call c.sent = some (id, call))
    (node : c.nodes id = some before) (done : call before = .ok after) :
    Effect ids (fun k t => c.Granted k t id) before after ∧ before.term ≤ after.term ∧
      (after.term = before.term → before.vote ≠ None → after.vote = before.vote) := by
  obtain ⟨-, -, nodeInv, votes⟩ := inv.node id before node
  cases event with
  | tick j =>
      cases called
      obtain ⟨later, sameVote⟩ := tick_term_vote done
      exact ⟨tick_effect nodeInv votes done, later, fun same _ => sameVote same⟩
  | deliver k =>
      obtain ⟨m, got, same⟩ := Option.map_eq_some'.mp called
      cases same
      have member := List.get?_mem got
      exact stepped_effect nodeInv votes (inv.wire m member).incoming
        (fun grant => ⟨m, member, grant, rfl, rfl, rfl⟩) done
  | campaign j | propose j data | proposeConfChange j cc | transferLeader j transferee =>
      cases called
      exact stepped_effect nodeInv votes (.of_isLocal (by rfl))
        (fun grant => by simp [Message.Grant] at grant) done
  | apply j =>
      cases called
      have plain : before.nextIsConfChange = false := by simpa [appliesConfChange, node] using fixed
      obtain ⟨raftLog, -, rfl⟩ := applyNext_of_plain plain done
      exact ⟨applyNext_effect nodeInv votes plain done, le_rfl, fun _ _ => rfl⟩

/-- Every event of a run that applies no conf change keeps `Inv`. -/
theorem Inv.step (inv : Inv ids c) {event : Event} (fixed : c.appliesConfChange event = false)
    (stepped : c.step event = some c') : Inv ids c' := by
  obtain ⟨id, call, before, after, called, node, done, rfl⟩ := step_eq_some stepped
  obtain ⟨effect, later, sameVote⟩ := inv.call_effect fixed called node done
  obtain ⟨idEq, empty, nodeInv, -⟩ := inv.node id before node
  have idMem : id ∈ ids := idEq ▸ nodeInv.id_mem
  -- what the network holds now: what it held, and the call's messages
  have sentOf : ∀ m ∈ (c.settle id before after).sent, m ∈ c.sent ∨
      Wire ids m ∧ m.from = id ∧ (m.Grant → m.term = after.term ∧ m.to = after.vote) := by
    obtain ⟨new, queued, sent⟩ := effect.sent
    intro m member
    rw [settle_sent, queued, empty, List.nil_append, List.mem_append] at member
    exact member.imp_right fun fresh =>
      let ⟨wired, from', grant⟩ := sent m fresh
      ⟨wired, from'.trans idEq, grant⟩
  have granted : ∀ {k t i}, c.Granted k t i → (c.settle id before after).Granted k t i :=
    fun ⟨g, member, grant⟩ => ⟨g, by simp [member], grant⟩
  -- in the same term the node keeps a vote it had cast
  have keptVote : ∀ v ∈ ids, after.term = before.term → before.vote = v → after.vote = v :=
    fun v member same voted =>
      (sameVote same fun none => inv.none_not_mem (none ▸ voted ▸ member)).trans voted
  -- a grant the node sent in the term it is now in names its vote
  have oldGrant : ∀ g ∈ c.sent, g.Grant → g.from = id → g.term = after.term → after.vote = g.to := by
    intro g member grant from' term'
    obtain ⟨r, voterNode, below, voted⟩ := inv.voter g member grant
    rw [from', node, Option.some.injEq] at voterNode
    subst voterNode
    exact keptVote g.to ((inv.wire g member).grant_to_mem grant) (by omega) (voted (by omega))
  -- a node the call made leader has voted for itself
  have leaderVote : becameLeader before after = true → after.vote = id := fun became =>
    (effect.inv.campaigning (by simp [(of_decide_eq_true became).1])).2.trans (effect.id_eq.trans idEq)
  refine ⟨inv.none_not_mem, ?node, ?wire, ?voter, ?unique, ?leader, ?selfVote, ?quorum⟩
  case node =>
    intro j r held
    rw [settle_nodes] at held
    split_ifs at held with here
    · cases held
      subst here
      refine ⟨effect.id_eq.trans idEq, rfl,
        ⟨effect.inv.id_mem, effect.inv.peers, effect.inv.noSnapshot, effect.inv.campaigning⟩,
        fun candidate k recorded => ?_⟩
      exact (effect.votes candidate k recorded).imp_right granted
    · obtain ⟨sameId, msgs, nodeInv', votes'⟩ := inv.node j r held
      exact ⟨sameId, msgs, nodeInv', fun candidate k recorded => (votes' candidate k recorded).imp_right granted⟩
  case wire =>
    intro m member
    rcases sentOf m member with old | ⟨wired, -, -⟩
    exacts [inv.wire m old, wired]
  case voter =>
    intro g member grant
    rcases sentOf g member with old | ⟨-, from', stamped⟩
    · obtain ⟨r, voterNode, below, voted⟩ := inv.voter g old grant
      by_cases here : g.from = id
      · rw [here, node, Option.some.injEq] at voterNode
        subst voterNode
        exact ⟨{ after with msgs := [] }, by simp [here], below.trans later, oldGrant g old grant here⟩
      · exact ⟨r, by simpa [here] using voterNode, below, voted⟩
    · obtain ⟨term', to'⟩ := stamped grant
      exact ⟨{ after with msgs := [] }, by simp [from'], term'.le, fun _ => to'.symm⟩
  case unique =>
    intro g member g' member' grant grant' from' term'
    rcases sentOf g member with old | ⟨-, fromNew, stamped⟩ <;>
      rcases sentOf g' member' with old' | ⟨-, fromNew', stamped'⟩
    · exact inv.unique g old g' old' grant grant' from' term'
    · exact (oldGrant g old grant (from'.trans fromNew') (term'.trans (stamped' grant').1)).symm.trans
        (stamped' grant').2.symm
    · exact (stamped grant).2.trans
        (oldGrant g' old' grant' (from'.symm.trans fromNew) (term'.symm.trans (stamped grant).1))
    · exact (stamped grant).2.trans (stamped' grant').2.symm
  case leader =>
    intro i t elected
    rcases mem_settle_elected.mp elected with old | ⟨became, rfl, rfl⟩
    · obtain ⟨r, leaderNode, below, voted⟩ := inv.leader i t old
      by_cases here : i = id
      · subst here
        rw [node, Option.some.injEq] at leaderNode
        subst leaderNode
        refine ⟨{ after with msgs := [] }, by simp, below.trans later, fun same => ?_⟩
        change t = after.term at same
        exact keptVote i idMem (by omega) (voted (by omega))
      · exact ⟨r, by simpa [here] using leaderNode, below, voted⟩
    · exact ⟨{ after with msgs := [] }, by simp, le_rfl, fun _ => leaderVote became⟩
  case selfVote =>
    intro i t elected g member grant from' term'
    rcases mem_settle_elected.mp elected with old | ⟨became, rfl, rfl⟩ <;>
      rcases sentOf g member with oldG | ⟨-, fromNew, stamped⟩
    · exact inv.selfVote i t old g oldG grant from' term'
    · have here : i = id := from'.symm.trans fromNew
      subst here
      obtain ⟨r, leaderNode, below, voted⟩ := inv.leader i t old
      rw [node, Option.some.injEq] at leaderNode
      subst leaderNode
      have stampedTerm := (stamped grant).1
      exact (stamped grant).2.trans (keptVote i idMem (by omega) (voted (by omega)))
    · exact (oldGrant g oldG grant from' term').symm.trans (leaderVote became)
    · exact (stamped grant).2.trans (leaderVote became)
  case quorum =>
    intro i t elected
    rcases mem_settle_elected.mp elected with old | ⟨became, rfl, rfl⟩
    · obtain ⟨voters, within, majority, counted⟩ := inv.quorum i t old
      exact ⟨voters, within, majority, fun k member => (counted k member).imp_right granted⟩
    · obtain ⟨leader, fresh⟩ := of_decide_eq_true became
      obtain ⟨voters, counted, majority⟩ := effect.elects leader fresh
      refine ⟨voters, fun k member => List.mem_toFinset.mpr ?_, majority,
        fun k member => (counted k member).imp (fun self => self.trans idEq) granted⟩
      rcases counted k member with self | ⟨g, sent, -, from', -, -⟩
      · exact self ▸ nodeInv.id_mem
      · exact from' ▸ (inv.wire g sent).from_mem

/-- A booted cluster satisfies `Inv` for the ids it was booted with. -/
theorem Inv.boot {electionTick heartbeatTick : Nat} {c₀ : Cluster}
    (booted : boot ids electionTick heartbeatTick = .ok c₀) : Inv ids c₀ := by
  obtain ⟨sent, elected, valid, started⟩ := boot_eq_ok booted
  refine ⟨fun member => valid None member rfl, fun j r held => ?_, by simp [sent], by simp [sent],
    by simp [sent], by simp [elected], by simp [elected], by simp [elected]⟩
  obtain ⟨member, startedOk⟩ := started j r held
  obtain ⟨idEq, msgs, follower, peers, noSnapshot⟩ := newRaft_empty rfl rfl startedOk
  exact ⟨idEq, msgs, ⟨idEq ▸ member, peers, noSnapshot, fun notFollower => absurd follower notFollower⟩,
    .of_follower follower⟩

theorem Inv.reachable {c₀ : Cluster} (inv : Inv ids c₀) (reached : FixedReachable c₀ c) : Inv ids c := by
  induction reached with
  | start => exact inv
  | step _ fixed stepped inductionHypothesis => exact inductionHypothesis.step fixed stepped

/--
Election safety for a fixed peer set: in a run from a booted cluster in which no driver
applies a conf change, no two nodes become leader of the same term.
-/
theorem fixed_peers_election_safety {electionTick heartbeatTick : Nat} {c₀ c : Cluster}
    (booted : boot ids electionTick heartbeatTick = .ok c₀) (reached : FixedReachable c₀ c)
    {i i' t : Nat} (elected : (i, t) ∈ c.elected) (elected' : (i', t) ∈ c.elected) : i = i' :=
  ((Inv.boot booted).reachable reached).elected_unique elected elected'

/-- Whether an event is a driver's `apply`. -/
def isApply : Event → Bool
  | .apply _ => true
  | _ => false

/-- A run without `apply` events applies no conf change. -/
theorem FixedReachable.run {c₀ c c' : Cluster} (reached : FixedReachable c₀ c) :
    ∀ {events : List Event}, (events.all fun event => !isApply event) = true →
      c.run events = some c' → FixedReachable c₀ c'
  | [], _, ran => by cases ran; exact reached
  | event :: events, plain, ran => by
      simp only [List.all_cons, Bool.and_eq_true, Bool.not_eq_true'] at plain
      obtain ⟨c₁, stepped, ran⟩ := Option.bind_eq_some.mp ran
      have fixed : c.appliesConfChange event = false := by
        cases event <;> simp_all [appliesConfChange, isApply]
      exact (reached.step fixed stepped).run plain.2 ran

/-- A run written out without `apply` events, checked by computation, applies no conf change. -/
theorem fixedReachable_of_run {electionTick heartbeatTick : Nat}
    (events : List Event) (p : Cluster → Prop) [DecidablePred p]
    (plain : (events.all fun event => !isApply event) = true)
    (passes : (match boot ids electionTick heartbeatTick with
      | .ok c₀ => (c₀.run events).any fun c => decide (p c)
      | .error _ => false) = true) :
    ∃ c₀ c, boot ids electionTick heartbeatTick = .ok c₀ ∧ FixedReachable c₀ c ∧ p c := by
  obtain ⟨c₀, c, booted, ran, holds⟩ := run_of_passes events p passes
  exact ⟨c₀, c, booted, FixedReachable.start.run plain ran, holds⟩

/-- In `{1, 2, 3}`, node 1 campaigns, node 3 grants, and node 1 is the one leader of term 1. -/
theorem threeNodes_one_leader :
    ∃ c₀ c, boot [1, 2, 3] 10 1 = .ok c₀ ∧ FixedReachable c₀ c ∧ (1, 1) ∈ c.elected ∧
      ∀ i, (i, 1) ∈ c.elected → i = 1 := by
  obtain ⟨c₀, c, booted, reached, elected⟩ :
      ∃ c₀ c, boot [1, 2, 3] 10 1 = .ok c₀ ∧ FixedReachable c₀ c ∧ (1, 1) ∈ c.elected :=
    fixedReachable_of_run [.campaign 1, .deliver 0, .deliver 2] (fun c => (1, 1) ∈ c.elected)
      (by decide) (by decide)
  exact ⟨c₀, c, booted, reached, elected,
    fun i elected' => fixed_peers_election_safety booted reached elected' elected⟩

end Cluster

end TinyKVRaft
