import TinyKVRaft.StepCases

namespace TinyKVRaft

/-!
# Terms only grow, and one vote per term

Every `Step` and every `tick` that returns leaves the term where it was or moves it
forward, and within one term the vote moves only from `None` to the sender of a
`MsgRequestVote`, in the call that queues the grant to it.  Every grant a `Step` queues
names the vote and the term the node ends in, so the grants of one term all name the
one candidate it voted for; a `tick` queues none.  The one assumption is the one `send`
guarantees: a message of term 0 is local (`MsgHup`, `MsgBeat`, `MsgPropose`, or a
driver's `MsgTransferLeader`).  A replication message of term 0 would make a candidate
`becomeFollower(0, …)` and move the term back.
-/

/-- A granted vote: an answer to `MsgRequestVote` that does not reject. -/
def Message.Grant (m : Message) : Prop :=
  m.msgType = .msgRequestVoteResponse ∧ m.reject = false

instance : DecidablePred Message.Grant := fun m =>
  inferInstanceAs (Decidable (m.msgType = .msgRequestVoteResponse ∧ m.reject = false))

namespace Raft

variable {r r' r₁ : Raft} {m : Message} {e : Option StepError}

/--
The term rule of one step on `m`: the term does not go back, and in the same term the
vote stays, or goes from `None` to the sender of a `MsgRequestVote` in a call that
queues one message, a grant to that sender.
-/
def TermVoteRule (m : Message) (r r' : Raft) : Prop :=
  r.term ≤ r'.term ∧
    (r'.term = r.term →
      r'.vote = r.vote ∨
        r.vote = None ∧ r'.vote = m.from ∧ m.msgType = .msgRequestVote ∧
          ∃ g, r'.msgs = r.msgs ++ [g] ∧ g.Grant ∧ g.to = m.from)

/-- Every grant a step on `m` queues answers a `MsgRequestVote`, to the node's new vote in its new term. -/
def GrantsVote (m : Message) (r r' : Raft) : Prop :=
  Outbox (fun g => g.Grant → m.msgType = .msgRequestVote ∧ g.to = r'.vote ∧ g.term = r'.term) r r'

/-- A call that queues no answer to a vote request. -/
def SendsNoVoteAnswer (r r' : Raft) : Prop :=
  Outbox (fun g => g.msgType ≠ .msgRequestVoteResponse) r r'

namespace TermVoteRule

theorem of_keeps (term : r'.term = r.term) (vote : r'.vote = r.vote) : TermVoteRule m r r' :=
  ⟨term.ge, fun _ => .inl vote⟩

theorem of_lt (later : r.term < r'.term) : TermVoteRule m r r' :=
  ⟨later.le, fun same => absurd same (Nat.ne_of_gt later)⟩

/-- A step that first moved to a later term keeps the rule from the start. -/
theorem of_lt_of_rule (later : r.term < r₁.term) (rule : TermVoteRule m r₁ r') :
    TermVoteRule m r r' :=
  of_lt (Nat.lt_of_lt_of_le later rule.1)

end TermVoteRule

/-- A replication handler keeps the term and the vote. -/
theorem Handles.term_vote {r₀ : Raft} (handled : Handles r₀ m r') :
    r'.term = r₀.term ∧ r'.vote = r₀.vote := by
  obtain ⟨_, _, _, rfl⟩ := handled.frame
  exact ⟨rfl, rfl⟩

/-- Replication messages are not local, so under `TermSet` they carry a term. -/
theorem Handles.term_ne_zero {r₀ : Raft} (termSet : m.TermSet) (handled : Handles r₀ m r') :
    m.term ≠ 0 := by
  intro termless
  have isLocal := termSet termless
  rcases handled with ⟨replication, -⟩ | ⟨replication, -⟩ | ⟨replication, -⟩ <;>
    simp [replication, MessageType.isLocal] at isLocal

theorem stepFollower_termVote (done : r.stepFollower m = .ok (r', e)) : TermVoteRule m r r' := by
  rcases stepFollower_cases done with rfl | ⟨-, sent⟩ | handled | ⟨-, -, campaigned⟩
  · exact .of_keeps rfl rfl
  · obtain ⟨msgs, rfl⟩ := send_queues sent
    exact .of_keeps rfl rfl
  · exact .of_keeps handled.term_vote.1 handled.term_vote.2
  · exact .of_lt (by simp [(campaign_eq_ok campaigned).2.1])

/--
A candidate that only sees messages of its own term keeps its term and vote: it steps
down with `becomeFollower` in that same term, or wins it.
-/
theorem stepCandidate_term_vote (termSet : m.TermSet) (ownTerm : m.term = 0 ∨ m.term = r.term)
    (done : r.stepCandidate m = .ok (r', e)) : r'.term = r.term ∧ r'.vote = r.vote := by
  rcases stepCandidate_cases done with rfl | handled | ⟨-, ⟨-, r₁, became, sent⟩ | rfl | rfl⟩
  · exact ⟨rfl, rfl⟩
  · have sameTerm : m.term = r.term := ownTerm.resolve_left (handled.term_ne_zero termSet)
    obtain ⟨term, vote⟩ := handled.term_vote
    simp [term, vote, sameTerm]
  · obtain ⟨term, vote, -⟩ := becomeLeader_eq_ok became
    obtain ⟨msgs, rfl⟩ := (bcastAppend_outgoing sent).frame
    exact ⟨term, vote⟩
  · simp [poll]
  · exact ⟨rfl, rfl⟩

/-- The term rule holds over every branch of `Step`. -/
theorem step_termVote (termSet : m.TermSet) (done : r.step m = .ok (r', e)) :
    TermVoteRule m r r' := by
  rcases step_cases done with ⟨-, rfl⟩ | ⟨r₁, gated, branch⟩
  · exact .of_keeps rfl rfl
  -- the gate passes `r` itself, or a follower of a later term
  have gate : r₁ = r ∧ (m.term = 0 ∨ m.term = r.term) ∨
      r.term < r₁.term ∧ r₁.state = .stateFollower := by
    rcases stepTerm_cases gated with same | ⟨later, rfl | rfl⟩
    · exact .inl same
    all_goals exact .inr ⟨by simpa using later, rfl⟩
  have rule : TermVoteRule m r₁ r' := by
    rcases branch with ⟨-, rfl | ⟨-, -, campaigned⟩⟩ |
        ⟨vote, ⟨canVote, -, r₂, sent, rfl⟩ | sent⟩ | ⟨-, stepped⟩ | ⟨candidate, stepped⟩ |
        ⟨-, stepped⟩
    · exact .of_keeps rfl rfl
    · exact .of_lt (by simp [(campaign_eq_ok campaigned).2.1])
    · obtain ⟨g, rfl, -, to', type', reject', -⟩ := send_spec sent
      refine ⟨le_rfl, fun _ => ?_⟩
      rcases canVote with repeated | ⟨none, -⟩
      · exact .inl repeated.symm
      · exact .inr ⟨none, rfl, vote, g, rfl, ⟨type', reject'⟩, to'⟩
    · obtain ⟨msgs, rfl⟩ := send_queues sent
      exact .of_keeps rfl rfl
    · exact stepFollower_termVote stepped
    · rcases gate with ⟨rfl, ownTerm⟩ | ⟨-, follower⟩
      · obtain ⟨term, vote⟩ := stepCandidate_term_vote termSet ownTerm stepped
        exact .of_keeps term vote
      · simp [follower] at candidate
    · exact .of_keeps (stepLeader_frame stepped).term_eq (stepLeader_frame stepped).vote_eq
  rcases gate with ⟨rfl, -⟩ | ⟨later, -⟩
  · exact rule
  · exact .of_lt_of_rule later rule

/-! ## The grants a call queues -/

namespace SendsNoVoteAnswer

theorem of_outbox {x : Raft} (queued : Outbox (Outgoing x) r r') : SendsNoVoteAnswer r r' :=
  queued.mono fun _ out => out.2.1

/-- A call that kept the queue, then queued only `Outgoing` messages. -/
theorem of_queues {x : Raft} (queued : Queues (Outgoing x) r₁ r') (kept : r₁.msgs = r.msgs) :
    SendsNoVoteAnswer r r' :=
  (Outbox.of_msgs_eq kept).trans (of_outbox queued.outbox)

theorem grantsVote (quiet : SendsNoVoteAnswer r r') : GrantsVote m r r' :=
  quiet.mono fun _ notAnswer grant => absurd grant.1 notAnswer

end SendsNoVoteAnswer

theorem Handles.sendsNoVoteAnswer (handled : Handles r m r') : SendsNoVoteAnswer r r' := by
  rcases handled with ⟨-, handled⟩ | ⟨-, handled⟩ | ⟨-, handled⟩
  · obtain ⟨raftLog, queued, -⟩ := handleAppendEntries_eq_ok handled
    exact .of_queues queued rfl
  · obtain ⟨raftLog, queued, -⟩ := handleHeartbeat_eq_ok handled
    exact .of_queues queued rfl
  · obtain ⟨s, r₁, restored, -, restoredOk, queued⟩ := handleSnapshot_eq_ok handled
    refine .of_queues queued ?_
    rcases restore_eq_ok restoredOk with ⟨-, raftLog, rfl, -⟩ | ⟨-, -, prs, rfl⟩ <;> rfl

theorem campaign_sendsNoVoteAnswer (campaigned : r.campaign = .ok r') : SendsNoVoteAnswer r r' := by
  unfold campaign at campaigned
  obtain ⟨r₁, became, rest⟩ := bind_eq_ok.mp campaigned
  obtain ⟨-, -, -, -, -, -, kept, -⟩ := becomeCandidate_eq_ok became
  dsimp only at rest
  split_ifs at rest
  · exact Outbox.of_msgs_eq ((becomeLeader_eq_ok rest).2.2.2.2.2.1.trans kept)
  · exact .of_queues (requestVotes_outgoing rest) kept

theorem stepFollower_sendsNoVoteAnswer (done : r.stepFollower m = .ok (r', e)) :
    SendsNoVoteAnswer r r' := by
  rcases stepFollower_cases done with rfl | ⟨transfer, sent⟩ | handled | ⟨-, -, campaigned⟩
  · exact Outbox.refl _
  · obtain ⟨g, rfl, -, -, type', -⟩ := send_spec sent
    refine ⟨[g], rfl, fun _ mem => ?_⟩
    cases List.mem_singleton.mp mem
    simp [type', transfer]
  · exact handled.sendsNoVoteAnswer
  · exact campaign_sendsNoVoteAnswer campaigned

theorem stepCandidate_sendsNoVoteAnswer (done : r.stepCandidate m = .ok (r', e)) :
    SendsNoVoteAnswer r r' := by
  rcases stepCandidate_cases done with rfl | handled | ⟨-, ⟨-, r₁, became, sent⟩ | rfl | rfl⟩
  · exact Outbox.refl _
  · exact (Outbox.of_msgs_eq (becomeFollower_msgs r _ _)).trans handled.sendsNoVoteAnswer
  · exact .of_queues (bcastAppend_outgoing sent) (becomeLeader_eq_ok became).2.2.2.2.2.1
  · exact Outbox.of_msgs_eq (becomeFollower_msgs _ _ _)
  · exact Outbox.of_msgs_eq rfl

/-- The term gate keeps the queue, and a message with a term carries the term the node then has. -/
theorem stepTerm_msgs_term (gated : r.stepTerm m = some r₁) :
    r₁.msgs = r.msgs ∧ (m.term ≠ 0 → m.term = r₁.term) := by
  rcases stepTerm_cases gated with ⟨rfl, zeroOrSame⟩ | ⟨-, rfl | rfl⟩
  · exact ⟨rfl, zeroOrSame.resolve_left⟩
  all_goals exact ⟨by simp, fun _ => by simp⟩

/--
Only a granted `MsgRequestVote` queues a grant, and it names the sender, whom the node
now votes for, in the node's term: `send` refuses a vote answer without a term.
-/
theorem step_grantsVote (done : r.step m = .ok (r', e)) : GrantsVote m r r' := by
  rcases step_cases done with ⟨-, rfl⟩ | ⟨r₁, gated, branch⟩
  · exact Outbox.refl _
  obtain ⟨kept, ownTerm⟩ := stepTerm_msgs_term gated
  refine Outbox.trans (Outbox.of_msgs_eq kept) ?_
  rcases branch with ⟨-, rfl | ⟨-, -, campaigned⟩⟩ | ⟨request, ⟨-, -, r₂, sent, rfl⟩ | sent⟩ |
      ⟨-, stepped⟩ | ⟨-, stepped⟩ | ⟨-, stepped⟩
  · exact Outbox.refl _
  · exact (campaign_sendsNoVoteAnswer campaigned).grantsVote
  · obtain ⟨g, rfl, -, to', -, -, voteTerm, -⟩ := send_spec sent
    obtain ⟨sameTerm, termed⟩ := voteTerm (.inr rfl)
    refine ⟨[g], rfl, fun _ mem _ => ?_⟩
    cases List.mem_singleton.mp mem
    exact ⟨request, to', sameTerm.trans (ownTerm termed)⟩
  · obtain ⟨g, rfl, -, -, -, reject', -⟩ := send_spec sent
    refine ⟨[g], rfl, fun _ mem grant => ?_⟩
    cases List.mem_singleton.mp mem
    simp [Message.Grant, reject'] at grant
  · exact (stepFollower_sendsNoVoteAnswer stepped).grantsVote
  · exact (stepCandidate_sendsNoVoteAnswer stepped).grantsVote
  · exact (SendsNoVoteAnswer.of_outbox (stepLeader_step stepped).2.2).grantsVote

/-! ## `tick` -/

/-- A tick never moves the term back, and never changes the vote within a term. -/
theorem tick_term_vote (done : r.tick = .ok r') :
    r.term ≤ r'.term ∧ (r'.term = r.term → r'.vote = r.vote) := by
  cases state : r.state
  case stateLeader =>
    have framed := tick_leaderFrame state done
    exact ⟨framed.term_eq.ge, fun _ => framed.vote_eq⟩
  all_goals
    simp only [tick, state] at done
    rcases tickElection_cases done with rfl | ⟨e, -, stepped⟩
    · exact ⟨le_rfl, fun _ => rfl⟩
    · obtain ⟨later, sameVote⟩ := step_termVote (by simp [Message.TermSet, MessageType.isLocal])
        stepped
      exact ⟨later, fun same => (sameVote same).resolve_right (by simp)⟩

/-- A tick queues no grant: it steps only a `MsgHup` or a `MsgBeat`. -/
theorem tick_sendsNoGrant (done : r.tick = .ok r') : Outbox (fun g => ¬g.Grant) r r' := by
  cases state : r.state
  case stateLeader => exact (tick_leaderStep state done).2.2.mono fun _ out grant => out.2.1 grant.1
  all_goals
    simp only [tick, state] at done
    rcases tickElection_cases done with rfl | ⟨e, -, stepped⟩
    · exact Outbox.of_msgs_eq rfl
    · exact (step_grantsVote stepped).mono fun _ grants grant => by simpa using (grants grant).1

/--
`Step` on any message that follows the term convention of `send`, and `tick`, never
move the term back.  Within one term a `Step` keeps the vote, or moves it from `None` to
the sender of a `MsgRequestVote` while queuing one grant to it; every grant it queues
names the vote and the term it ends in.  A `tick` keeps the vote within a term and
queues no grant.
-/
theorem step_tick_term_vote :
    (∀ (r r' : Raft) (m : Message) (e : Option StepError), m.TermSet →
        r.step m = .ok (r', e) → TermVoteRule m r r' ∧ GrantsVote m r r') ∧
      ∀ r r' : Raft, r.tick = .ok r' →
        r.term ≤ r'.term ∧ (r'.term = r.term → r'.vote = r.vote) ∧ Outbox (fun g => ¬g.Grant) r r' :=
  ⟨fun _ _ _ _ termSet done => ⟨step_termVote termSet done, step_grantsVote done⟩,
    fun _ _ done => ⟨(tick_term_vote done).1, (tick_term_vote done).2, tick_sendsNoGrant done⟩⟩

/-- Node 2 of the group `{1, 2, 3}`, a follower of term 1 that holds `(1, 1)` and has not voted. -/
def threeNodeFollower : Raft where
  id := 2
  term := 1
  raftLog := { ents := [{ term := 1, index := 1 }] }
  prs := ((∅ : ProgressMap).insert 3 {}).insert 2 {} |>.insert 1 {}
  heartbeatTimeout := 1
  electionTimeout := 10
  id_ne_none := by decide
  heartbeatTimeout_pos := by decide
  heartbeat_lt_election := by decide

/-- The follower grants node 3's request of its own term, within the rule, and queues the grant. -/
theorem threeNodeFollower_grants :
    ∃ r' e, threeNodeFollower.step
        { msgType := .msgRequestVote, «from» := 3, term := 1, index := 1, logTerm := 1 } =
        .ok (r', e) ∧ r'.vote = 3 ∧
      TermVoteRule { msgType := .msgRequestVote, «from» := 3, term := 1, index := 1, logTerm := 1 }
        threeNodeFollower r' ∧
      GrantsVote { msgType := .msgRequestVote, «from» := 3, term := 1, index := 1, logTerm := 1 }
        threeNodeFollower r' := by
  obtain ⟨⟨r', e⟩, stepped⟩ : ∃ p, threeNodeFollower.step
      { msgType := .msgRequestVote, «from» := 3, term := 1, index := 1, logTerm := 1 } = .ok p :=
    ⟨_, rfl⟩
  have granted : r'.vote = 3 := by
    cases stepped
    rfl
  exact ⟨r', e, stepped, granted, step_tick_term_vote.1 threeNodeFollower r' _ e (by decide) stepped⟩

end Raft

end TinyKVRaft
