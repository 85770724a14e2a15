import Mathlib.Data.Finset.Card
import TinyKVRaft.Cluster
import TinyKVRaft.TermVote

namespace TinyKVRaft

/-!
# One call on a node of a fixed peer set

Election safety is a fact about the whole cluster, but each step of it is one call on
one node.  This module says once, for every call a driver or the network can make
(`Step` of a message, `tick`, and `applyNext` of an entry that is not a conf change),
what the call does as the election argument needs it (`Effect`): the node keeps the
facts `NodeInv` lists for a run on the peer set `ids`; a candidate's recorded grants
are its own or come from voters that granted it; every message it sends is fit for
the wire (`Wire`), and a grant names the voter's new term and vote; and a call that
makes the node leader counted a majority of `ids`.

On such a run no node ever holds a snapshot: Storage starts empty, and only a
`MsgSnapshot` could install one, which a log without a snapshot never sends.  So
`restore` never replaces a node's peers.
-/

/-- The voters a vote map records as granting. -/
def grantedVoters (votes : VoteMap) : Finset Nat :=
  ((votes.entries.filter fun vote => vote.2).map Sigma.fst).toFinset

theorem mem_grantedVoters {votes : VoteMap} {k : Nat} :
    k ∈ grantedVoters votes ↔ votes.lookup k = some true := by
  rw [AList.lookup, ← Option.mem_def, List.mem_dlookup_iff votes.nodupKeys]
  simp only [grantedVoters, List.mem_toFinset, List.mem_map, List.mem_filter]
  constructor
  · rintro ⟨⟨k, v⟩, ⟨member, granted⟩, rfl⟩
    cases granted
    exact member
  · exact fun member => ⟨⟨k, true⟩, ⟨member, rfl⟩, rfl⟩

/-- The count `poll` returns is the number of granting voters. -/
theorem card_grantedVoters (votes : VoteMap) :
    (grantedVoters votes).card = votes.entries.countP fun vote => vote.2 := by
  rw [grantedVoters, List.toFinset_card_of_nodup, List.length_map, List.countP_eq_length_filter]
  exact ((List.filter_sublist _).map _).nodup votes.nodupKeys

/-- A peer map whose keys are the ids of `ids` has one entry per distinct id. -/
theorem length_entries_of_peers {prs : ProgressMap} {ids : List Nat}
    (peers : ∀ id, id ∈ prs ↔ id ∈ ids) : prs.entries.length = ids.toFinset.card := by
  have sameKeys : prs.keys.toFinset = ids.toFinset := by
    ext id
    simp [← AList.mem_keys, peers]
  rw [← sameKeys, List.toFinset_card_of_nodup prs.keys_nodup, AList.keys, List.keys, List.length_map]

namespace Raft

section

variable (ids : List Nat) (granted : Nat → Nat → Prop)

/-- What every node of a run on the peer set `ids` satisfies between calls. -/
structure NodeInv (r : Raft) : Prop where
  id_mem : r.id ∈ ids
  peers : ∀ id, id ∈ r.prs ↔ id ∈ ids
  noSnapshot : r.raftLog.snapshot = .error .errSnapshotTemporarilyUnavailable
  campaigning : r.state ≠ .stateFollower → r.term ≠ 0 ∧ r.vote = r.id

/-- What every message on the wire of such a run satisfies. -/
structure Wire (m : Message) : Prop where
  from_mem : m.from ∈ ids
  termSet : m.TermSet
  not_snapshot : m.msgType ≠ .msgSnapshot
  grant_to_mem : m.Grant → m.to ∈ ids

/-- What a message handed to `Step` satisfies: one from the wire, or a driver's. -/
structure Incoming (m : Message) : Prop where
  termSet : m.TermSet
  not_snapshot : m.msgType ≠ .msgSnapshot
  request_from_mem : m.msgType = .msgRequestVote → m.from ∈ ids

/-- A candidate's recorded grants are its own, or come from voters `granted` it in its term. -/
def VotesFrom (r : Raft) : Prop :=
  r.state = .stateCandidate → ∀ k, r.votes.lookup k = some true → k = r.id ∨ granted k r.term

/--
What one call does to a node, as election safety sees it: the node's facts hold after
it, every message it sends is fit for the wire and a grant names its new term and vote,
and a call that makes it leader counted a majority of `ids`, each voter itself or one
that granted it.
-/
structure Effect (r r' : Raft) : Prop where
  inv : NodeInv ids r'
  votes : VotesFrom granted r'
  id_eq : r'.id = r.id
  sent : Outbox (fun m => Wire ids m ∧ m.from = r.id ∧ (m.Grant → m.term = r'.term ∧ m.to = r'.vote)) r r'
  elects : r'.state = .stateLeader → (r.state ≠ .stateLeader ∨ r.term ≠ r'.term) →
    ∃ voters : Finset Nat, (∀ k ∈ voters, k = r.id ∨ granted k r'.term) ∧
      ids.toFinset.card < 2 * voters.card

/-- The first part of a call that sends nothing and makes no leader: the term gate, a clock. -/
structure Quiet (r r₁ : Raft) : Prop where
  id_eq : r₁.id = r.id
  msgs_eq : r₁.msgs = r.msgs
  leader : r₁.state = .stateLeader → r.state = .stateLeader ∧ r₁.term = r.term

end

variable {ids : List Nat} {granted : Nat → Nat → Prop} {r r₁ r₂ r' : Raft} {m : Message}
  {e : Option StepError}

theorem Wire.incoming (wired : Wire ids m) : Incoming ids m :=
  ⟨wired.termSet, wired.not_snapshot, fun _ => wired.from_mem⟩

/-- A driver's message of a local type, which carries no term, is a fit input of `Step`. -/
theorem Incoming.of_isLocal (isLocal : m.msgType.isLocal = true) : Incoming ids m :=
  ⟨fun _ => isLocal, fun snapshot => by simp [snapshot, MessageType.isLocal] at isLocal,
    fun request => by simp [request, MessageType.isLocal] at isLocal⟩

theorem VotesFrom.of_follower (follower : r.state = .stateFollower) : VotesFrom granted r :=
  fun candidate => absurd (follower.symm.trans candidate) (by simp)

theorem NodeInv.becomeFollower (inv : NodeInv ids r) (term lead : Nat) :
    NodeInv ids (r.becomeFollower term lead) where
  id_mem := by simpa using inv.id_mem
  peers id := by simp [Raft.becomeFollower, inv.peers]
  noSnapshot := by simpa using inv.noSnapshot
  campaigning := by simp

theorem Quiet.refl (r : Raft) : Quiet r r :=
  ⟨rfl, rfl, fun leader => ⟨leader, rfl⟩⟩

theorem Quiet.becomeFollower (r : Raft) (term lead : Nat) : Quiet r (r.becomeFollower term lead) :=
  ⟨by simp, by simp, fun leader => by simp at leader⟩

/-- A quiet call is an `Effect` once the node's facts hold after it. -/
theorem Quiet.effect (quiet : Quiet r r') (inv : NodeInv ids r') (votes : VotesFrom granted r') :
    Effect ids granted r r' where
  inv := inv
  votes := votes
  id_eq := quiet.id_eq
  sent := .of_msgs_eq quiet.msgs_eq
  elects leader' fresh := by
    obtain ⟨leader, term⟩ := quiet.leader leader'
    exact (fresh.elim (· leader) (· term.symm)).elim

/-- A quiet start followed by a call has the call's effect. -/
theorem Effect.of_quiet (quiet : Quiet r r₁) (rest : Effect ids granted r₁ r') :
    Effect ids granted r r' where
  inv := rest.inv
  votes := rest.votes
  id_eq := rest.id_eq.trans quiet.id_eq
  sent := by
    obtain ⟨new, queued, sent⟩ := rest.sent
    refine ⟨new, queued.trans (by rw [quiet.msgs_eq]), fun m member => ?_⟩
    obtain ⟨wired, from', grant⟩ := sent m member
    exact ⟨wired, from'.trans quiet.id_eq, grant⟩
  elects leader' fresh := by
    have fresh₁ : r₁.state ≠ .stateLeader ∨ r₁.term ≠ r'.term := by
      by_cases leader₁ : r₁.state = .stateLeader
      · obtain ⟨leader, term⟩ := quiet.leader leader₁
        exact .inr (term ▸ fresh.resolve_left (not_not.mpr leader))
      · exact .inl leader₁
    obtain ⟨voters, counted, majority⟩ := rest.elects leader' fresh₁
    exact ⟨voters, fun k member => quiet.id_eq ▸ counted k member, majority⟩

/-- A message `Outgoing` from a node in a term other than 0 is fit for the wire and is no grant. -/
theorem Outgoing.wire (inv : NodeInv ids r) (termed : r.term ≠ 0) (out : Outgoing r m) :
    Wire ids m ∧ m.from = r.id ∧ ¬m.Grant := by
  obtain ⟨from', notAnswer, request, term, snapshot, -⟩ := out
  refine ⟨⟨from' ▸ inv.id_mem, fun termless => ?_, fun isSnapshot => ?_,
    fun grant => absurd grant.1 notAnswer⟩, from', fun grant => notAnswer grant.1⟩
  · cases isLocal : m.msgType.isLocal
    · by_cases isRequest : m.msgType = .msgRequestVote
      · exact absurd termless (request isRequest)
      · exact absurd ((term isRequest isLocal).symm.trans termless) termed
    · rfl
  · obtain ⟨s, ready⟩ := snapshot isSnapshot
    rw [inv.noSnapshot] at ready
    cases ready

/-- Queuing only `Outgoing` messages of a node in a term other than 0 sends what the wire allows. -/
theorem Outbox.wire (inv : NodeInv ids r₁) (termed : r₁.term ≠ 0) (sameId : r₁.id = r.id)
    (queued : Outbox (Outgoing r₁) r r') :
    Outbox (fun m => Wire ids m ∧ m.from = r.id ∧ (m.Grant → m.term = r'.term ∧ m.to = r'.vote)) r r' :=
  queued.mono fun _ out =>
    let ⟨wired, from', notGrant⟩ := out.wire inv termed
    ⟨wired, from'.trans sameId, fun grant => absurd grant notGrant⟩

/-! ## The leader, and the replication answers -/

/-- A leader's step keeps its facts and sends only what the wire allows. -/
theorem LeaderStep.effect (inv : NodeInv ids r) (leader : r.state = .stateLeader)
    (stepped : LeaderStep r r') : Effect ids granted r r' := by
  obtain ⟨⟨raftLog, prs, msgs, pendingConfIndex, leadTransferee, electionElapsed, heartbeatElapsed, rfl,
    stamped⟩, samePeers, queued⟩ := stepped
  have termed := (inv.campaigning (by simp [leader])).1
  have inv' : NodeInv ids
      { r with raftLog, prs, msgs, pendingConfIndex, leadTransferee, electionElapsed, heartbeatElapsed } :=
    ⟨inv.id_mem, fun id => (samePeers id).trans (inv.peers id), stamped.1.snapshot_eq.trans inv.noSnapshot,
      inv.campaigning⟩
  exact {
    inv := inv'
    votes := fun candidate => absurd (leader.symm.trans candidate) (by simp)
    id_eq := rfl
    sent := queued.wire inv' termed rfl
    elects := fun _ fresh => (fresh.elim (· leader) (· rfl)).elim }

/-- A follower's answer that moved only its log, to one on the same snapshot. -/
theorem answer_effect {raftLog : RaftLog} (inv : NodeInv ids r) (follower : r.state = .stateFollower)
    (termed : r.term ≠ 0) (queued : Queues (Outgoing { r with raftLog }) { r with raftLog } r')
    (sameSnapshot : raftLog.snapshot = r.raftLog.snapshot) : Effect ids granted r r' := by
  have inv₁ : NodeInv ids { r with raftLog } :=
    ⟨inv.id_mem, inv.peers, sameSnapshot.trans inv.noSnapshot, inv.campaigning⟩
  obtain ⟨new, rfl, sent⟩ := queued
  exact {
    inv := ⟨inv₁.id_mem, inv₁.peers, inv₁.noSnapshot, inv₁.campaigning⟩
    votes := .of_follower follower
    id_eq := rfl
    sent := Outbox.wire inv₁ termed rfl ⟨new, rfl, sent⟩
    elects := fun leader _ => absurd (follower.symm.trans leader) (by simp) }

/-- A follower answering `MsgAppend` or `MsgHeartbeat` of a term other than 0. -/
theorem Handles.effect (inv : NodeInv ids r) (follower : r.state = .stateFollower)
    (termed : r.term ≠ 0) (notSnapshot : m.msgType ≠ .msgSnapshot) (handled : Handles r m r') :
    Effect ids granted r r' := by
  rcases handled with ⟨-, handled⟩ | ⟨-, handled⟩ | ⟨snapshot, -⟩
  · obtain ⟨raftLog, queued, rfl | ⟨-, lastnewi, appended⟩⟩ := handleAppendEntries_eq_ok handled
    · exact answer_effect inv follower termed queued rfl
    · obtain ⟨ents, c, rfl⟩ := RaftLog.maybeAppend_frame appended
      exact answer_effect inv follower termed queued rfl
  · obtain ⟨raftLog, queued, committedTo⟩ := handleHeartbeat_eq_ok handled
    exact answer_effect inv follower termed queued (RaftLog.commitTo_extends committedTo).snapshot_eq
  · exact absurd snapshot notSnapshot

/-! ## Campaigns and counting votes -/

theorem NodeInv.poll (inv : NodeInv ids r) (id : Nat) (v : Bool) : NodeInv ids (r.poll id v).1 :=
  ⟨inv.id_mem, inv.peers, inv.noSnapshot, inv.campaigning⟩

theorem Quiet.poll (r : Raft) (id : Nat) (v : Bool) : Quiet r (r.poll id v).1 :=
  ⟨rfl, rfl, fun leader => ⟨leader, rfl⟩⟩

/-- `poll` records a grant only from a voter it was told granted. -/
theorem VotesFrom.poll (votes : VotesFrom granted r) (candidate : r.state = .stateCandidate)
    {id : Nat} {v : Bool} (answered : v = true → granted id r.term) (k : Nat)
    (recorded : (r.poll id v).1.votes.lookup k = some true) : k = r.id ∨ granted k r.term := by
  simp only [poll_eq] at recorded
  split_ifs at recorded
  · exact votes candidate k recorded
  · by_cases same : k = id
    · subst same
      rw [AList.lookup_insert] at recorded
      exact .inr (answered (Option.some.inj recorded))
    · rw [AList.lookup_insert_ne same] at recorded
      exact votes candidate k recorded

/--
`campaign` makes a candidate of the next term that has counted only itself, or, when
its own vote is a quorum, a leader of a peer set of one.
-/
theorem campaign_effect (inv : NodeInv ids r) (campaigned : r.campaign = .ok r') :
    Effect ids granted r r' := by
  unfold campaign at campaigned
  obtain ⟨r₁, became, rest⟩ := bind_eq_ok.mp campaigned
  obtain ⟨-, term₁, vote₁, state₁, log₁, id₁, msgs₁, votes₁, peers₁⟩ := becomeCandidate_eq_ok became
  have termed : r₁.term ≠ 0 := by omega
  have inv₁ : NodeInv ids r₁ := ⟨id₁ ▸ inv.id_mem, fun id => (peers₁ id).trans (inv.peers id),
    log₁ ▸ inv.noSnapshot, fun _ => ⟨termed, vote₁.trans id₁.symm⟩⟩
  refine Effect.of_quiet ⟨id₁, msgs₁, fun leader => absurd (state₁.symm.trans leader) (by simp)⟩ ?_
  have own : ∀ k, (r₁.poll r₁.id true).1.votes.lookup k = some true → k = r₁.id := by
    intro k recorded
    by_contra other
    simp only [poll_eq, votes₁, AList.not_mem_empty, if_false, AList.lookup_insert_ne other,
      AList.lookup_empty, reduceCtorEq] at recorded
  dsimp only at rest
  split_ifs at rest with won
  · -- its own vote is a quorum: a peer set of one
    obtain ⟨term', vote', state', -, id', msgs', stamped, peers'⟩ := becomeLeader_eq_ok rest
    have counted : (r₁.poll r₁.id true).2 = 1 := by
      simp [poll, votes₁]
    have size := length_entries_of_peers inv₁.peers
    have single : r₁.prs.entries.length / 2 + 1 = (r₁.poll r₁.id true).2 := won
    rw [counted] at single
    refine ⟨⟨id'.trans id₁ ▸ inv.id_mem, fun id => (peers' id).trans (inv₁.peers id),
        stamped.1.snapshot_eq.trans inv₁.noSnapshot, fun _ => ⟨term'.trans rfl ▸ termed, ?_⟩⟩,
      fun candidate => absurd (state'.symm.trans candidate) (by simp), id', .of_msgs_eq msgs',
      fun _ _ => ⟨{r₁.id}, by simp, ?_⟩⟩
    · exact vote'.trans (vote₁.trans (id'.trans id₁).symm)
    · simp only [Finset.card_singleton]
      omega
  · -- a candidate that asks every other peer for its vote
    obtain ⟨new, rfl, sent⟩ := requestVotes_outgoing rest
    exact {
      inv := ⟨inv₁.id_mem, inv₁.peers, inv₁.noSnapshot, inv₁.campaigning⟩
      votes := fun _ k recorded => .inl (own k recorded)
      id_eq := rfl
      sent := Outbox.wire (inv₁.poll _ _) termed rfl ⟨new, rfl, sent⟩
      elects := fun leader => absurd (state₁.symm.trans leader) (by simp) }

/--
A candidate that counts an answer of its term and finds a quorum of grants becomes
leader with a majority of `ids` counted, each voter itself or one that granted it.
-/
theorem poll_elects_effect (inv : NodeInv ids r) (votes : VotesFrom granted r)
    (candidate : r.state = .stateCandidate) (answered : (!m.reject) = true → granted m.from r.term)
    (won : (r.poll m.from !m.reject).1.quorum = (r.poll m.from !m.reject).2)
    (became : (r.poll m.from !m.reject).1.becomeLeader = .ok r₁) (sent : r₁.bcastAppend = .ok r') :
    Effect ids granted r r' := by
  obtain ⟨term₁, vote₁, state₁, -, id₁, msgs₁, stamped, peers₁⟩ := becomeLeader_eq_ok became
  have termed : r₁.term ≠ 0 := term₁ ▸ (inv.campaigning (by simp [candidate])).1
  have inv₁ : NodeInv ids r₁ := ⟨id₁ ▸ inv.id_mem, fun id => (peers₁ id).trans (inv.peers id),
    stamped.1.snapshot_eq.trans inv.noSnapshot, fun _ =>
      ⟨termed, vote₁.trans ((inv.campaigning (by simp [candidate])).2.trans id₁.symm)⟩⟩
  obtain ⟨new, rfl, queued⟩ := bcastAppend_outgoing sent
  have size := length_entries_of_peers (inv.poll m.from !m.reject).peers
  have counted := card_grantedVoters (r.poll m.from !m.reject).1.votes
  refine {
    inv := ⟨inv₁.id_mem, inv₁.peers, inv₁.noSnapshot, inv₁.campaigning⟩
    votes := fun candidate' => absurd (state₁.symm.trans candidate') (by simp)
    id_eq := id₁
    sent := Outbox.wire inv₁ termed id₁ ⟨new, by rw [msgs₁]; rfl, queued⟩
    elects := fun _ _ => ⟨grantedVoters (r.poll m.from !m.reject).1.votes, fun k member => ?_, ?_⟩ }
  · rw [term₁]
    exact votes.poll candidate answered k (mem_grantedVoters.mp member)
  · have quorum : (r.poll m.from !m.reject).1.prs.entries.length / 2 + 1 =
        (grantedVoters (r.poll m.from !m.reject).1.votes).card := counted ▸ won
    omega

/--
`stepCandidate`: a replication message of its term makes the candidate a follower that
answers; an answer to its vote request is counted, and may make it leader or follower.
-/
theorem stepCandidate_effect (inv : NodeInv ids r) (votes : VotesFrom granted r)
    (candidate : r.state = .stateCandidate) (incoming : Incoming ids m)
    (ownTerm : m.term ≠ 0 → m.term = r.term) (grantIn : m.Grant → granted m.from m.term)
    (done : r.stepCandidate m = .ok (r', e)) : Effect ids granted r r' := by
  rcases stepCandidate_cases done with rfl | handled | ⟨answer, ⟨won, r₁, became, sent⟩ | rfl | rfl⟩
  · exact (Quiet.refl _).effect inv votes
  · have termed := handled.term_ne_zero incoming.termSet
    exact Effect.of_quiet (.becomeFollower _ _ _) (Handles.effect (inv.becomeFollower _ _) (by simp)
      (by simpa using termed) incoming.not_snapshot handled)
  all_goals
    have termed : m.term ≠ 0 := fun termless => by
      simpa [answer, MessageType.isLocal] using incoming.termSet termless
    have answered : (!m.reject) = true → granted m.from r.term := fun notRejected =>
      ownTerm termed ▸ grantIn ⟨answer, by simpa using notRejected⟩
  · exact poll_elects_effect inv votes candidate answered won became sent
  · exact Effect.of_quiet (.poll r _ _) ((Quiet.becomeFollower _ _ _).effect
      ((inv.poll _ _).becomeFollower _ _) (.of_follower (by simp)))
  · exact (Quiet.poll r _ _).effect (inv.poll _ _) fun _ => votes.poll candidate answered

/--
`stepFollower`: the follower forwards a transfer request, answers a replication message
of its term, or campaigns on `MsgTimeoutNow`.
-/
theorem stepFollower_effect (inv : NodeInv ids r) (follower : r.state = .stateFollower)
    (incoming : Incoming ids m) (ownTerm : m.term ≠ 0 → m.term = r.term)
    (done : r.stepFollower m = .ok (r', e)) : Effect ids granted r r' := by
  rcases stepFollower_cases done with rfl | ⟨transfer, sent⟩ | handled | ⟨-, -, campaigned⟩
  · exact (Quiet.refl _).effect inv (.of_follower follower)
  · obtain ⟨m', rfl, from', -, type', -, -, -⟩ := send_spec sent
    have notGrant : ¬m'.Grant := fun grant => by simp [Message.Grant, type', transfer] at grant
    refine {
      inv := ⟨inv.id_mem, inv.peers, inv.noSnapshot, inv.campaigning⟩
      votes := .of_follower follower
      id_eq := rfl
      sent := ⟨[m'], rfl, fun n member => ?_⟩
      elects := fun leader => absurd (follower.symm.trans leader) (by simp) }
    cases List.mem_singleton.mp member
    exact ⟨⟨from' ▸ inv.id_mem, fun _ => by simp [type', transfer, MessageType.isLocal],
      by simp [type', transfer], fun grant => absurd grant notGrant⟩, from',
      fun grant => absurd grant notGrant⟩
  · have termed := handled.term_ne_zero incoming.termSet
    refine Effect.of_quiet ?_ (Handles.effect (r := { r with electionElapsed := 0, lead := m.from })
      ⟨inv.id_mem, inv.peers, inv.noSnapshot, inv.campaigning⟩ follower (ownTerm termed ▸ termed)
      incoming.not_snapshot handled)
    exact ⟨rfl, rfl, fun leader => ⟨leader, rfl⟩⟩
  · exact campaign_effect inv campaigned

/-! ## `Step`, `tick` and `applyNext` -/

/--
The term gate passes the node as it is, or makes it a follower of the message's later
term; either way a message with a term carries the term the node then has.
-/
theorem stepTerm_effect (inv : NodeInv ids r) (votes : VotesFrom granted r)
    (gated : r.stepTerm m = some r₁) :
    Quiet r r₁ ∧ NodeInv ids r₁ ∧ VotesFrom granted r₁ ∧ (m.term ≠ 0 → m.term = r₁.term) := by
  rcases stepTerm_cases gated with ⟨rfl, zeroOrSame⟩ | ⟨-, rfl | rfl⟩
  · exact ⟨.refl _, inv, votes, zeroOrSame.resolve_left⟩
  all_goals exact ⟨.becomeFollower _ _ _, inv.becomeFollower _ _, .of_follower (by simp), fun _ => by simp⟩

/-- A granted `MsgRequestVote`: the grant names the voter's term and its new vote. -/
theorem grant_effect (inv : NodeInv ids r) (votes : VotesFrom granted r) (incoming : Incoming ids m)
    (request : m.msgType = .msgRequestVote) (canVote : r.vote = m.from ∨ r.vote = None ∧ r.lead = None)
    (ownTerm : m.term ≠ 0 → m.term = r.term)
    (sent : r.send { «to» := m.from, term := m.term, msgType := .msgRequestVoteResponse } = .ok r₂) :
    Effect ids granted r { r₂ with electionElapsed := 0, vote := m.from } := by
  obtain ⟨m', rfl, from', to', type', -, voteTerm, -⟩ := send_spec sent
  obtain ⟨sameTerm, termed⟩ := voteTerm (.inr rfl)
  -- a candidate or leader has voted for itself, so it can only grant itself again
  have voted : r.state ≠ .stateFollower → m.from = r.id := by
    intro notFollower
    have self := (inv.campaigning notFollower).2
    rcases canVote with same | ⟨none, -⟩
    · exact same.symm.trans self
    · exact absurd (self.symm.trans none) r.id_ne_none
  refine {
    inv := ⟨inv.id_mem, inv.peers, inv.noSnapshot, fun notFollower =>
      ⟨(inv.campaigning notFollower).1, voted notFollower⟩⟩
    votes := votes
    id_eq := rfl
    sent := ⟨[m'], rfl, fun n member => ?_⟩
    elects := fun leader fresh => (fresh.elim (· leader) (· rfl)).elim }
  cases List.mem_singleton.mp member
  exact ⟨⟨from' ▸ inv.id_mem, fun termless => absurd (sameTerm.symm.trans termless) termed,
    by simp [type'], fun _ => to' ▸ incoming.request_from_mem request⟩, from',
    fun _ => ⟨sameTerm.trans (ownTerm termed), to'⟩⟩

/-- A rejected `MsgRequestVote`: the answer carries the node's term and grants nothing. -/
theorem reject_effect (inv : NodeInv ids r) (votes : VotesFrom granted r)
    (sent : r.send { «to» := m.from, term := r.term, msgType := .msgRequestVoteResponse, reject := true } =
      .ok r') :
    Effect ids granted r r' := by
  obtain ⟨m', rfl, from', -, type', reject', voteTerm, -⟩ := send_spec sent
  obtain ⟨sameTerm, termed⟩ := voteTerm (.inr rfl)
  have notGrant : ¬m'.Grant := fun grant => by simp [Message.Grant, reject'] at grant
  refine {
    inv := ⟨inv.id_mem, inv.peers, inv.noSnapshot, inv.campaigning⟩
    votes := votes
    id_eq := rfl
    sent := ⟨[m'], rfl, fun n member => ?_⟩
    elects := fun leader fresh => (fresh.elim (· leader) (· rfl)).elim }
  cases List.mem_singleton.mp member
  exact ⟨⟨from' ▸ inv.id_mem, fun termless => absurd (sameTerm.symm.trans termless) termed,
    by simp [type'], fun grant => absurd grant notGrant⟩, from', fun grant => absurd grant notGrant⟩

/-- Every branch of `Step`, on a message fit for it, has an `Effect`. -/
theorem step_effect (inv : NodeInv ids r) (votes : VotesFrom granted r) (incoming : Incoming ids m)
    (grantIn : m.Grant → granted m.from m.term) (done : r.step m = .ok (r', e)) :
    Effect ids granted r r' := by
  rcases step_cases done with ⟨-, rfl⟩ | ⟨r₁, gated, branch⟩
  · exact (Quiet.refl _).effect inv votes
  obtain ⟨quiet, inv₁, votes₁, ownTerm⟩ := stepTerm_effect inv votes gated
  refine Effect.of_quiet quiet ?_
  rcases branch with ⟨-, rfl | ⟨-, -, campaigned⟩⟩ | ⟨request, ⟨canVote, -, r₂, sent, rfl⟩ | sent⟩ |
      ⟨follower, stepped⟩ | ⟨candidate, stepped⟩ | ⟨leader, stepped⟩
  · exact (Quiet.refl _).effect inv₁ votes₁
  · exact campaign_effect inv₁ campaigned
  · exact grant_effect inv₁ votes₁ incoming request canVote ownTerm sent
  · exact reject_effect inv₁ votes₁ sent
  · exact stepFollower_effect inv₁ follower incoming ownTerm stepped
  · exact stepCandidate_effect inv₁ votes₁ candidate incoming ownTerm grantIn stepped
  · exact (stepLeader_step stepped).effect inv₁ leader

/-- A tick moves the clocks, steps a `MsgHup` past the election timeout, or a leader's `MsgBeat`. -/
theorem tick_effect (inv : NodeInv ids r) (votes : VotesFrom granted r) (done : r.tick = .ok r') :
    Effect ids granted r r' := by
  cases state : r.state
  case stateLeader => exact (tick_leaderStep state done).effect inv state
  all_goals
    simp only [tick, state] at done
    rcases tickElection_cases done with rfl | ⟨e, -, stepped⟩
    · exact Quiet.effect ⟨rfl, rfl, fun leader => ⟨leader, rfl⟩⟩
        ⟨inv.id_mem, inv.peers, inv.noSnapshot, inv.campaigning⟩ votes
    · refine Effect.of_quiet ?_ (step_effect (r := { r with electionElapsed := 0 })
        ⟨inv.id_mem, inv.peers, inv.noSnapshot, inv.campaigning⟩ votes (.of_isLocal (by rfl))
        (fun grant => by simp [Message.Grant] at grant) stepped)
      exact ⟨rfl, rfl, fun leader => ⟨leader, rfl⟩⟩

/-- A driver applying an entry that is not a conf change moves only `applied`. -/
theorem applyNext_effect (inv : NodeInv ids r) (votes : VotesFrom granted r)
    (plain : r.nextIsConfChange = false) (done : r.applyNext = .ok r') : Effect ids granted r r' := by
  obtain ⟨raftLog, applied, rfl⟩ := applyNext_of_plain plain done
  obtain ⟨a, rfl⟩ := RaftLog.appliedTo_frame applied
  exact Quiet.effect ⟨rfl, rfl, fun leader => ⟨leader, rfl⟩⟩
    ⟨inv.id_mem, inv.peers, inv.noSnapshot, inv.campaigning⟩ votes

end Raft

end TinyKVRaft
