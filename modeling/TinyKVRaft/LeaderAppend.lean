import TinyKVRaft.TermVote
import TinyKVRaft.QuorumCommit
import TinyKVRaft.Cluster

namespace TinyKVRaft

/-!
# A leader only appends

Within its term a leader stays leader and its log only grows: `stepLeader` has no
branch for `MsgAppend`, `MsgHeartbeat` or `MsgSnapshot`, a vote request changes only
the vote, and `tick`, `addNode` and `removeNode` only append, commit and move
bookkeeping.  A leader stops leading only when the term gate moves it to a later term.

None of these paths writes `Lead`.  That a leader records itself is an invariant of the
states a node reaches from `newRaft` (`Reached.leadsItself`): `newRaft` starts a follower,
and a node becomes leader only through `becomeLeader`, which sets `Lead` to its id.
-/

namespace Raft

variable {r r' r₁ : Raft} {m : Message} {e : Option StepError}

/-! ## A reached leader records itself -/

/--
The states a node reaches from `newRaft` through the calls its driver makes: `Step` of
any message, `tick`, `addNode` and `removeNode`, applying its next committed entry, and
taking its queued messages.
-/
inductive Reached : Raft → Prop
  | start {c : Config} {r : Raft} : newRaft c = .ok r → Reached r
  | step {r r' : Raft} {m : Message} {e : Option StepError} : Reached r → r.step m = .ok (r', e) → Reached r'
  | tick {r r' : Raft} : Reached r → r.tick = .ok r' → Reached r'
  | addNode {r : Raft} (id : Nat) : Reached r → Reached (r.addNode id)
  | removeNode {r r' : Raft} {id : Nat} : Reached r → r.removeNode id = .ok r' → Reached r'
  | applyNext {r r' : Raft} : Reached r → r.applyNext = .ok r' → Reached r'
  | takeMsgs {r : Raft} : Reached r → Reached { r with msgs := [] }

/-- A leader records itself as the leader. -/
def LeadsItself (r : Raft) : Prop :=
  r.state = .stateLeader → r.lead = r.id

namespace LeadsItself

theorem of_not_leader (notLeader : r.state ≠ .stateLeader) : LeadsItself r :=
  fun leader => absurd leader notLeader

theorem of_leaderFrame (selfLed : LeadsItself r) (framed : LeaderFrame r r') : LeadsItself r' := by
  obtain ⟨_, _, _, _, _, _, _, rfl, -⟩ := framed
  exact selfLed

theorem of_becomeLeader (became : r.becomeLeader = .ok r') : LeadsItself r' := fun _ => by
  obtain ⟨-, -, -, lead, sameId, -⟩ := becomeLeader_eq_ok became
  rw [lead, sameId]

theorem of_campaign (campaigned : r.campaign = .ok r') : LeadsItself r' := fun leader => by
  obtain ⟨-, -, -, sameId, -, candidate | ⟨-, lead⟩⟩ := campaign_eq_ok campaigned
  · exact absurd (leader.symm.trans candidate) (by simp)
  · rw [lead, sameId]

/-- A follower stays follower, or leads itself after a campaign. -/
theorem of_stepFollower (follower : r.state = .stateFollower) (done : r.stepFollower m = .ok (r', e)) :
    LeadsItself r' := by
  rcases stepFollower_cases done with rfl | ⟨-, sent⟩ | handled | ⟨-, -, campaigned⟩
  · exact of_not_leader (by simp [follower])
  · obtain ⟨msgs, rfl⟩ := send_queues sent
    exact of_not_leader (by simp [follower])
  · obtain ⟨raftLog, prs, msgs, rfl⟩ := handled.frame
    exact of_not_leader (by simp [follower])
  · exact of_campaign campaigned

/-- A candidate stays candidate, steps down, or leads itself through `becomeLeader`. -/
theorem of_stepCandidate (candidate : r.state = .stateCandidate)
    (done : r.stepCandidate m = .ok (r', e)) : LeadsItself r' := by
  rcases stepCandidate_cases done with rfl | handled | ⟨-, ⟨-, r₁, became, sent⟩ | rfl | rfl⟩
  · exact of_not_leader (by simp [candidate])
  · obtain ⟨raftLog, prs, msgs, rfl⟩ := handled.frame
    exact of_not_leader (by simp)
  · obtain ⟨msgs, rfl⟩ := (bcastAppend_outgoing sent).frame
    exact (of_becomeLeader became : LeadsItself r₁)
  · exact of_not_leader (by simp)
  · exact of_not_leader (by simp [poll_eq, candidate])

theorem of_step (selfLed : LeadsItself r) (done : r.step m = .ok (r', e)) : LeadsItself r' := by
  rcases step_cases done with ⟨-, rfl⟩ | ⟨r₁, gated, branch⟩
  · exact selfLed
  have selfLed₁ : LeadsItself r₁ := by
    rcases stepTerm_cases gated with ⟨rfl, -⟩ | ⟨-, rfl | rfl⟩
    · exact selfLed
    all_goals exact of_not_leader (by simp)
  rcases branch with ⟨-, rfl | ⟨-, -, campaigned⟩⟩ | ⟨-, ⟨-, -, r₂, sent, rfl⟩ | sent⟩ |
      ⟨follower, stepped⟩ | ⟨candidate, stepped⟩ | ⟨-, stepped⟩
  · exact selfLed₁
  · exact of_campaign campaigned
  · obtain ⟨msgs, rfl⟩ := send_queues sent
    exact selfLed₁
  · obtain ⟨msgs, rfl⟩ := send_queues sent
    exact selfLed₁
  · exact of_stepFollower follower stepped
  · exact of_stepCandidate candidate stepped
  · exact selfLed₁.of_leaderFrame (stepLeader_frame stepped)

theorem of_tick (selfLed : LeadsItself r) (done : r.tick = .ok r') : LeadsItself r' := by
  cases state : r.state
  case stateLeader => exact selfLed.of_leaderFrame (tick_leaderFrame state done)
  all_goals
    simp only [tick, state] at done
    rcases tickElection_cases done with rfl | ⟨e, -, stepped⟩
    · exact selfLed
    · exact of_step (r := { r with electionElapsed := 0 }) selfLed stepped

end LeadsItself

/-- Every leader a node reaches from `newRaft` records itself as the leader. -/
theorem Reached.leadsItself (reached : Reached r) : LeadsItself r := by
  induction reached with
  | start started => exact .of_not_leader (by simp [(newRaft_eq_ok started).1])
  | step _ stepped selfLed => exact selfLed.of_step stepped
  | tick _ ticked selfLed => exact selfLed.of_tick ticked
  | addNode id _ selfLed =>
      obtain ⟨prs, added⟩ := addNode_eq _ id
      rw [added]
      exact selfLed
  | removeNode _ removed selfLed =>
      obtain ⟨raftLog, prs, msgs, leadTransferee, rfl, -⟩ := removeNode_eq_ok removed
      exact selfLed
  | applyNext _ applied selfLed =>
      obtain ⟨-, raftLog, prs, msgs, leadTransferee, rfl, -⟩ := applyNext_eq_ok applied
      exact selfLed
  | takeMsgs _ selfLed => exact selfLed

/-! ## A leader keeps its role and its log -/

/-- What a leader's call keeps: the role, and every entry it held. -/
def KeepsRole (r r' : Raft) : Prop :=
  r'.state = .stateLeader ∧ r.raftLog.Extends r'.raftLog

/-- What a leader keeps: the role, itself as the recorded leader, and every entry it held. -/
def KeepsLeadership (r r' : Raft) : Prop :=
  r'.state = .stateLeader ∧ r'.lead = r'.id ∧ r.raftLog.Extends r'.raftLog

theorem KeepsRole.keepsLeadership (kept : KeepsRole r r') (selfLed : LeadsItself r') :
    KeepsLeadership r r' :=
  ⟨kept.1, selfLed kept.1, kept.2⟩

theorem LeaderFrame.keepsRole (framed : LeaderFrame r r') (leader : r.state = .stateLeader) :
    KeepsRole r r' :=
  ⟨framed.state_eq.trans leader, framed.extends_raftLog⟩

/-- A `Step` whose term gate moved the node to a later term ends in that term or a later one. -/
theorem step_later_term (done : r.step m = .ok (r', e)) (gated : r.stepTerm m = some r₁)
    (later : r.term < m.term) : m.term ≤ r'.term := by
  rcases step_cases done with ⟨ungated, -⟩ | ⟨r₂, gated', branch⟩
  · simp [gated] at ungated
  obtain rfl : r₁ = r₂ := Option.some.inj (gated.symm.trans gated')
  rcases stepTerm_cases gated with ⟨-, termless | same⟩ | ⟨-, rfl | rfl⟩
  · omega
  · omega
  all_goals
    rcases branch with ⟨-, rfl | ⟨-, -, campaigned⟩⟩ | ⟨-, ⟨-, -, r₂, sent, rfl⟩ | sent⟩ |
        ⟨-, stepped⟩ | ⟨candidate, -⟩ | ⟨leader', -⟩
    · simp
    · simp [(campaign_eq_ok campaigned).2.1]
    · obtain ⟨msgs, rfl⟩ := send_queues sent
      simp
    · obtain ⟨msgs, rfl⟩ := send_queues sent
      simp
    · simpa using (stepFollower_termVote stepped).1
    · simp at candidate
    · simp at leader'

/--
A leader's `Step` in its own term keeps it leader with an extended log; a step that ends
its leadership moved it to a later term.
-/
theorem step_keepsRole (leader : r.state = .stateLeader) (done : r.step m = .ok (r', e)) :
    (r'.term = r.term → KeepsRole r r') ∧ (r'.state ≠ .stateLeader → r.term < r'.term) := by
  rcases step_cases done with ⟨-, rfl⟩ | ⟨r₁, gated, branch⟩
  · exact ⟨fun _ => ⟨leader, .refl _⟩, fun notLeader => absurd leader notLeader⟩
  rcases stepTerm_cases gated with ⟨same, -⟩ | ⟨later, -⟩
  · subst r₁
    have kept : KeepsRole r r' := by
      rcases branch with ⟨-, rfl | ⟨notLeader, -⟩⟩ | ⟨-, ⟨-, -, r₂, sent, rfl⟩ | sent⟩ |
          ⟨follower, -⟩ | ⟨candidate, -⟩ | ⟨-, stepped⟩
      · exact ⟨leader, .refl _⟩
      · exact absurd leader notLeader
      -- answering a vote request moves neither the role nor the log
      · obtain ⟨msgs, rfl⟩ := send_queues sent
        exact ⟨leader, .refl _⟩
      · obtain ⟨msgs, rfl⟩ := send_queues sent
        exact ⟨leader, .refl _⟩
      · simp [leader] at follower
      · simp [leader] at candidate
      · exact (stepLeader_frame stepped).keepsRole leader
    exact ⟨fun _ => kept, fun notLeader => absurd kept.1 notLeader⟩
  -- a later term: the node is a follower of it, and its term only grows from there
  have grown := step_later_term done gated later
  exact ⟨fun same => by omega, fun _ => by omega⟩

theorem tick_keepsRole (leader : r.state = .stateLeader) (done : r.tick = .ok r') : KeepsRole r r' :=
  (tick_leaderFrame leader done).keepsRole leader

theorem addNode_keepsRole (leader : r.state = .stateLeader) (id : Nat) : KeepsRole r (r.addNode id) := by
  obtain ⟨prs, added⟩ := addNode_eq r id
  rw [added]
  exact ⟨leader, .refl _⟩

theorem removeNode_keepsRole {id : Nat} (leader : r.state = .stateLeader)
    (done : r.removeNode id = .ok r') : KeepsRole r r' := by
  obtain ⟨raftLog, prs, msgs, leadTransferee, rfl, extended, -⟩ := removeNode_eq_ok done
  exact ⟨leader, extended⟩

/--
A leader a node reached from `newRaft` that takes a `Step` and stays in its term, ticks,
or adds or removes a peer, is still leader, records itself as the leader, and its log
only grew by appending and committing; a `Step` that ends its leadership moved it to a
later term.
-/
theorem leader_keeps_role_and_log :
    (∀ (r r' : Raft) (m : Message) (e : Option StepError), Reached r → r.state = .stateLeader →
        r.step m = .ok (r', e) →
        (r'.term = r.term → KeepsLeadership r r') ∧ (r'.state ≠ .stateLeader → r.term < r'.term)) ∧
      (∀ r r' : Raft, Reached r → r.state = .stateLeader → r.tick = .ok r' → KeepsLeadership r r') ∧
      (∀ (r : Raft) (id : Nat), Reached r → r.state = .stateLeader →
        KeepsLeadership r (r.addNode id)) ∧
      ∀ (r r' : Raft) (id : Nat), Reached r → r.state = .stateLeader → r.removeNode id = .ok r' →
        KeepsLeadership r r' :=
  ⟨fun _ _ _ _ reached leader done =>
      ⟨fun same => ((step_keepsRole leader done).1 same).keepsLeadership (reached.step done).leadsItself,
        (step_keepsRole leader done).2⟩,
    fun _ _ reached leader done =>
      (tick_keepsRole leader done).keepsLeadership (reached.tick done).leadsItself,
    fun _ id reached leader =>
      (addNode_keepsRole leader id).keepsLeadership (reached.addNode id).leadsItself,
    fun _ _ _ reached leader done =>
      (removeNode_keepsRole leader done).keepsLeadership (reached.removeNode done).leadsItself⟩

/-- Node 1 of a group of one. -/
def soloConfig : Config where
  id := 1
  peers := [1]
  electionTick := 10
  heartbeatTick := 1

/--
Node 1 of a group of one, started by `newRaft`, wins term 1 on its own vote; it then
proposes an entry, ticks, adds node 2 and removes node 2, and stays leader of its log,
recording itself, each time.
-/
theorem soloLeader_keeps_role :
    ∃ r₀ r₁ e₁ r₂ e₂ r₃ r₄, newRaft soloConfig = .ok r₀ ∧
      r₀.step { msgType := .msgHup } = .ok (r₁, e₁) ∧ r₁.state = .stateLeader ∧
      r₁.step { msgType := .msgPropose, entries := [{ data := [7] }] } = .ok (r₂, e₂) ∧
      r₂.term = r₁.term ∧ KeepsLeadership r₁ r₂ ∧
      r₁.tick = .ok r₃ ∧ KeepsLeadership r₁ r₃ ∧ KeepsLeadership r₁ (r₁.addNode 2) ∧
      r₁.removeNode 2 = .ok r₄ ∧ KeepsLeadership r₁ r₄ := by
  obtain ⟨r₀, started⟩ : ∃ r₀, newRaft soloConfig = .ok r₀ := ⟨_, rfl⟩
  obtain ⟨⟨r₁, e₁⟩, elected⟩ : ∃ p, r₀.step { msgType := .msgHup } = .ok p := by
    cases started
    exact ⟨_, rfl⟩
  have reached : Reached r₁ := (Reached.start started).step elected
  have leader : r₁.state = .stateLeader := by
    cases started
    cases elected
    rfl
  obtain ⟨⟨r₂, e₂⟩, proposed⟩ :
      ∃ p, r₁.step { msgType := .msgPropose, entries := [{ data := [7] }] } = .ok p := by
    cases started
    cases elected
    exact ⟨_, rfl⟩
  have same : r₂.term = r₁.term := by
    cases started
    cases elected
    cases proposed
    rfl
  obtain ⟨r₃, ticked⟩ : ∃ r₃, r₁.tick = .ok r₃ := by
    cases started
    cases elected
    exact ⟨_, rfl⟩
  obtain ⟨r₄, removed⟩ : ∃ r₄, r₁.removeNode 2 = .ok r₄ := by
    cases started
    cases elected
    exact ⟨_, rfl⟩
  exact ⟨r₀, r₁, e₁, r₂, e₂, r₃, r₄, started, elected, leader, proposed, same,
    (leader_keeps_role_and_log.1 _ _ _ _ reached leader proposed).1 same, ticked,
    leader_keeps_role_and_log.2.1 _ _ reached leader ticked,
    leader_keeps_role_and_log.2.2.1 _ 2 reached leader, removed,
    leader_keeps_role_and_log.2.2.2 _ _ _ reached leader removed⟩

end Raft

end TinyKVRaft
