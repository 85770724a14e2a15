import TinyKVRaft.Effects

namespace TinyKVRaft

/-!
# What one step can do

One inversion lemma per handler of `Step`: each says everything a successful call can
have done to the node, so that the invariants of the later modules are case analyses
over these lemmas and never unfold a handler again.  A leader's own handler only
appends to its log and moves its bookkeeping (`LeaderFrame`); a follower or candidate
answers replication messages through one of three handlers (`Handles`); `Step` gates on
the term, then dispatches on the message and the role.
-/

namespace Raft

variable {r r' r₁ r₂ r₃ : Raft} {m : Message} {e : Option StepError}

/--
What a leader's handler may change: its log, only by committing and appending entries of
its term, its peer map, its queue, its pending conf index, its transfer target and its
two clocks.
-/
def LeaderFrame (r r' : Raft) : Prop :=
  ∃ raftLog prs msgs pendingConfIndex leadTransferee electionElapsed heartbeatElapsed,
    r' = { r with
      raftLog, prs, msgs, pendingConfIndex, leadTransferee, electionElapsed, heartbeatElapsed } ∧
      r.raftLog.Stamped r.term raftLog

namespace LeaderFrame

theorem refl (r : Raft) : LeaderFrame r r :=
  ⟨_, _, _, _, _, _, _, rfl, .refl _ _⟩

theorem trans (first : LeaderFrame r₁ r₂) (second : LeaderFrame r₂ r₃) : LeaderFrame r₁ r₃ := by
  obtain ⟨_, _, _, _, _, _, _, rfl, stamped⟩ := first
  obtain ⟨_, _, _, _, _, _, _, rfl, stamped'⟩ := second
  exact ⟨_, _, _, _, _, _, _, rfl, stamped.trans stamped'⟩

theorem of_queues (queued : ∃ msgs, r' = { r with msgs }) : LeaderFrame r r' := by
  obtain ⟨_, rfl⟩ := queued
  exact .refl _

theorem of_bookkeeping (prs : ProgressMap)
    (pendingConfIndex leadTransferee electionElapsed heartbeatElapsed : Nat) :
    LeaderFrame r
      { r with prs, pendingConfIndex, leadTransferee, electionElapsed, heartbeatElapsed } :=
  ⟨_, _, _, _, _, _, _, rfl, .refl _ _⟩

theorem of_sendAppend {target : Nat} {sent : Bool} (appended : r.sendAppend target = .ok (r', sent)) :
    LeaderFrame r r' :=
  .of_queues (sendAppend_outgoing appended).frame

theorem of_maybeCommit {committed : Bool} (done : r.maybeCommit = .ok (r', committed)) :
    LeaderFrame r r' := by
  obtain ⟨-, extended⟩ := maybeCommit_extends done
  obtain ⟨c, rfl, -⟩ := maybeCommit_eq_ok done
  exact ⟨_, _, _, _, _, _, _, rfl, extended.stamped_of_ents_eq rfl _⟩

theorem of_appendEntry {es : List Entry} (done : r.appendEntry es = .ok r') : LeaderFrame r r' := by
  obtain ⟨frame, stamped, -⟩ := appendEntry_stamped done
  rw [frame] at stamped ⊢
  exact ⟨_, _, _, _, _, _, _, rfl, stamped⟩

theorem term_eq (framed : LeaderFrame r r') : r'.term = r.term := by
  obtain ⟨_, _, _, _, _, _, _, rfl, -⟩ := framed
  rfl

theorem vote_eq (framed : LeaderFrame r r') : r'.vote = r.vote := by
  obtain ⟨_, _, _, _, _, _, _, rfl, -⟩ := framed
  rfl

theorem state_eq (framed : LeaderFrame r r') : r'.state = r.state := by
  obtain ⟨_, _, _, _, _, _, _, rfl, -⟩ := framed
  rfl

theorem lead_eq (framed : LeaderFrame r r') : r'.lead = r.lead := by
  obtain ⟨_, _, _, _, _, _, _, rfl, -⟩ := framed
  rfl

theorem stamped (framed : LeaderFrame r r') : r.raftLog.Stamped r.term r'.raftLog := by
  obtain ⟨_, _, _, _, _, _, _, rfl, stamped⟩ := framed
  exact stamped

theorem extends_raftLog (framed : LeaderFrame r r') : r.raftLog.Extends r'.raftLog :=
  framed.stamped.1

end LeaderFrame

/--
Within a leader's frame, a message `Outgoing` from the earlier state is `Outgoing` from
the later one: the log only grew.
-/
theorem LeaderFrame.outgoing (framed : LeaderFrame r r') (out : Outgoing r m) : Outgoing r' m := by
  obtain ⟨_, _, _, _, _, _, _, rfl, stamped⟩ := framed
  obtain ⟨from', notAnswer, request, term, snapshot, cut⟩ := out
  exact ⟨from', notAnswer, request, term, fun isSnapshot => stamped.1.snapshot_eq ▸ snapshot isSnapshot,
    cut.of_extends stamped.1⟩

/--
A leader's step as the rest of the cluster sees it: within `LeaderFrame`, with the same
peers, and queuing only messages `Outgoing` from the state it ends in.
-/
def LeaderStep (r r' : Raft) : Prop :=
  LeaderFrame r r' ∧ (∀ id, id ∈ r'.prs ↔ id ∈ r.prs) ∧ Outbox (Outgoing r') r r'

namespace LeaderStep

theorem refl (r : Raft) : LeaderStep r r :=
  ⟨.refl r, fun _ => Iff.rfl, .refl r⟩

theorem trans (first : LeaderStep r₁ r₂) (second : LeaderStep r₂ r₃) : LeaderStep r₁ r₃ :=
  ⟨first.1.trans second.1, fun id => (second.2.1 id).trans (first.2.1 id),
    (first.2.2.mono fun _ => second.1.outgoing).trans second.2.2⟩

theorem of_queues (queued : Queues (Outgoing r) r r') : LeaderStep r r' := by
  obtain ⟨_, rfl⟩ := queued.frame
  exact ⟨.of_queues ⟨_, rfl⟩, fun _ => Iff.rfl, queued.outbox⟩

theorem of_bookkeeping {prs : ProgressMap} (samePeers : ∀ id, id ∈ prs ↔ id ∈ r.prs)
    (pendingConfIndex leadTransferee electionElapsed heartbeatElapsed : Nat) :
    LeaderStep r
      { r with prs, pendingConfIndex, leadTransferee, electionElapsed, heartbeatElapsed } :=
  ⟨.of_bookkeeping _ _ _ _ _, samePeers, .of_msgs_eq rfl⟩

theorem of_sendAppend {target : Nat} {sent : Bool} (appended : r.sendAppend target = .ok (r', sent)) :
    LeaderStep r r' :=
  .of_queues (sendAppend_outgoing appended)

theorem of_maybeCommit {committed : Bool} (done : r.maybeCommit = .ok (r', committed)) :
    LeaderStep r r' := by
  obtain ⟨frame, -⟩ := maybeCommit_extends done
  exact ⟨.of_maybeCommit done, by rw [frame]; exact fun _ => Iff.rfl, .of_msgs_eq (by rw [frame])⟩

theorem of_appendEntry {es : List Entry} (done : r.appendEntry es = .ok r') : LeaderStep r r' := by
  obtain ⟨frame, -, samePeers⟩ := appendEntry_stamped done
  exact ⟨.of_appendEntry done, samePeers, .of_msgs_eq (by rw [frame])⟩

end LeaderStep

/--
A leader's move that appends nothing and leaves `PendingConfIndex` alone: every branch of
`stepLeader` but a proposal's, and a leader's `tick`.
-/
def NoAppend (r r' : Raft) : Prop :=
  LeaderStep r r' ∧ r'.pendingConfIndex = r.pendingConfIndex ∧ r'.raftLog.ents = r.raftLog.ents

namespace NoAppend

theorem refl (r : Raft) : NoAppend r r :=
  ⟨.refl r, rfl, rfl⟩

theorem trans (first : NoAppend r₁ r₂) (second : NoAppend r₂ r₃) : NoAppend r₁ r₃ :=
  ⟨first.1.trans second.1, second.2.1.trans first.2.1, second.2.2.trans first.2.2⟩

theorem of_queues (queued : Queues (Outgoing r) r r') : NoAppend r r' := by
  obtain ⟨_, rfl⟩ := queued.frame
  exact ⟨.of_queues queued, rfl, rfl⟩

theorem of_bookkeeping {prs : ProgressMap} (samePeers : ∀ id, id ∈ prs ↔ id ∈ r.prs)
    (leadTransferee electionElapsed heartbeatElapsed : Nat) :
    NoAppend r { r with prs, leadTransferee, electionElapsed, heartbeatElapsed } :=
  ⟨.of_bookkeeping samePeers r.pendingConfIndex _ _ _, rfl, rfl⟩

theorem of_sendAppend {target : Nat} {sent : Bool} (appended : r.sendAppend target = .ok (r', sent)) :
    NoAppend r r' :=
  .of_queues (sendAppend_outgoing appended)

theorem of_maybeCommit {committed : Bool} (done : r.maybeCommit = .ok (r', committed)) :
    NoAppend r r' := by
  refine ⟨.of_maybeCommit done, ?_⟩
  obtain ⟨c, rfl, -⟩ := maybeCommit_eq_ok done
  exact ⟨rfl, rfl⟩

end NoAppend

/--
`stepLeader` appends nothing and keeps `PendingConfIndex`, or takes a proposal: it moves `PendingConfIndex` as the loop over
the proposal's entries leaves it, appends what the loop returns, and broadcasts.
-/
theorem stepLeader_noAppend_or_proposes (done : r.stepLeader m = .ok (r', e)) :
    NoAppend r r' ∨ m.msgType = .msgPropose ∧ ∃ r₁,
      { r with pendingConfIndex :=
          (proposalEntries r.raftLog.applied r.raftLog.lastIndex r.pendingConfIndex 0 m.entries).2 }.appendEntry
        (proposalEntries r.raftLog.applied r.raftLog.lastIndex r.pendingConfIndex 0 m.entries).1 = .ok r₁ ∧
      r₁.bcastAppend = .ok r' := by
  unfold stepLeader at done
  simp only [pure_bind] at done
  refine if ignored : (r.getProgress m.from).isNone ∧ m.msgType ≠ .msgBeat ∧
      m.msgType ≠ .msgPropose then ?_ else ?_
  · rw [if_pos ignored] at done
    cases pure_eq_ok.mp done
    exact .inl (.refl r)
  rw [if_neg ignored] at done
  cases messageType : m.msgType <;> simp only [messageType, pure_bind, throw_bind] at done
  case msgPropose =>
    split_ifs at done <;> try (cases pure_eq_ok.mp done; exact .inl (.refl r))
    obtain ⟨r₁, appended, rest⟩ := bind_eq_ok.mp done
    obtain ⟨r₂, sent, rest⟩ := bind_eq_ok.mp rest
    cases pure_eq_ok.mp rest
    exact .inr ⟨rfl, r₁, appended, sent⟩
  case msgBeat =>
    obtain ⟨r₁, sent, rest⟩ := bind_eq_ok.mp done
    cases pure_eq_ok.mp rest
    exact .inl (.of_queues (bcastHeartbeat_outgoing sent))
  case msgAppendResponse =>
    refine .inl ?_
    cases progress : r.getProgress m.from with
    | none =>
        simp only [progress] at done
        exact absurd done throw_ne_ok
    | some pr =>
        simp only [progress] at done
        have updated := mem_insert_of_getProgress progress
        split at done
        · split at done
          · obtain ⟨⟨r₁, _⟩, sent, rest⟩ := bind_eq_ok.mp done
            cases pure_eq_ok.mp rest
            exact (NoAppend.of_bookkeeping (updated _) _ _ _).trans (.of_sendAppend sent)
          · cases pure_eq_ok.mp done
            exact .of_bookkeeping (updated _) _ _ _
        split at done
        · cases pure_eq_ok.mp done
          exact .of_bookkeeping (updated _) _ _ _
        · obtain ⟨⟨r₁, committed⟩, committedOk, rest⟩ := bind_eq_ok.mp done
          have committedStep :=
            (NoAppend.of_bookkeeping (updated _) _ _ _).trans (NoAppend.of_maybeCommit committedOk)
          have transferred : ∀ {r₂ : Raft} {ready : Prop} [Decidable ready], NoAppend r r₂ →
              (if ready then (do
                  let x ← r₂.sendTimeoutNow m.from
                  pure (x, none))
                else pure (r₂, none) : Except Panic (Raft × Option StepError)) = .ok (r', e) →
              NoAppend r r' := by
            intro r₂ ready _ stepped rest
            split at rest
            · obtain ⟨r₃, sent, rest⟩ := bind_eq_ok.mp rest
              cases pure_eq_ok.mp rest
              exact stepped.trans (.of_queues (sendTimeoutNow_outgoing sent))
            · cases pure_eq_ok.mp rest
              exact stepped
          split at rest
          · obtain ⟨r₂, sent, rest⟩ := bind_eq_ok.mp rest
            exact transferred (committedStep.trans (.of_queues (bcastAppend_outgoing sent))) rest
          · exact transferred committedStep rest
  case msgHeartbeatResponse =>
    refine .inl ?_
    cases progress : r.getProgress m.from with
    | none =>
        simp only [progress] at done
        exact absurd done throw_ne_ok
    | some pr =>
        simp only [progress] at done
        split at done
        · obtain ⟨⟨r₁, _⟩, sent, rest⟩ := bind_eq_ok.mp done
          cases pure_eq_ok.mp rest
          exact .of_sendAppend sent
        · cases pure_eq_ok.mp done
          exact .refl r
  case msgTransferLeader =>
    refine .inl ?_
    cases progress : r.getProgress m.from with
    | none =>
        simp only [progress] at done
        exact absurd done throw_ne_ok
    | some pr =>
        simp only [progress] at done
        generalize aborted : (if r.leadTransferee ≠ None then r.abortLeaderTransfer else r) = r₁ at done
        have abortedStep : NoAppend r r₁ := by
          subst aborted
          split
          · exact .of_bookkeeping (fun _ => Iff.rfl) _ _ _
          · exact .refl r
        split_ifs at done
        · cases pure_eq_ok.mp done
          exact .refl r
        · cases pure_eq_ok.mp done
          exact abortedStep
        · obtain ⟨r₂, sent, rest⟩ := bind_eq_ok.mp done
          cases pure_eq_ok.mp rest
          exact abortedStep.trans ((NoAppend.of_bookkeeping (fun _ => Iff.rfl) _ _ _).trans
            (.of_queues (sendTimeoutNow_outgoing sent)))
        · obtain ⟨⟨r₂, _⟩, sent, rest⟩ := bind_eq_ok.mp done
          cases pure_eq_ok.mp rest
          exact abortedStep.trans
            ((NoAppend.of_bookkeeping (fun _ => Iff.rfl) _ _ _).trans (.of_sendAppend sent))
  all_goals cases pure_eq_ok.mp done; exact .inl (.refl r)

/--
`stepLeader` only appends to the log and moves the leader's bookkeeping; it keeps the
peers and sends only `Outgoing` messages.
-/
theorem stepLeader_step (done : r.stepLeader m = .ok (r', e)) : LeaderStep r r' := by
  rcases stepLeader_noAppend_or_proposes done with noAppend | ⟨-, r₁, appended, sent⟩
  · exact noAppend.1
  · exact (LeaderStep.of_bookkeeping (fun _ => Iff.rfl) _ _ _ _).trans
      ((LeaderStep.of_appendEntry appended).trans (.of_queues (bcastAppend_outgoing sent)))

/-- `stepLeader` only appends to the log and moves the leader's bookkeeping. -/
theorem stepLeader_frame (done : r.stepLeader m = .ok (r', e)) : LeaderFrame r r' :=
  (stepLeader_step done).1

/--
A follower's or candidate's answer to a replication message: `handleAppendEntries`,
`handleHeartbeat` or `handleSnapshot`, chosen by the message type.
-/
def Handles (r : Raft) (m : Message) (r' : Raft) : Prop :=
  m.msgType = .msgAppend ∧ r.handleAppendEntries m = .ok r' ∨
    m.msgType = .msgHeartbeat ∧ r.handleHeartbeat m = .ok r' ∨
    m.msgType = .msgSnapshot ∧ r.handleSnapshot m = .ok r'

/-- The replication handlers change only the log, the peer map and the queue. -/
theorem Handles.frame (handled : Handles r m r') :
    ∃ raftLog prs msgs, r' = { r with raftLog, prs, msgs } := by
  rcases handled with ⟨-, handled⟩ | ⟨-, handled⟩ | ⟨-, handled⟩
  · obtain ⟨raftLog, queued, -⟩ := handleAppendEntries_eq_ok handled
    obtain ⟨msgs, rfl⟩ := queued.frame
    exact ⟨_, _, _, rfl⟩
  · obtain ⟨raftLog, queued, -⟩ := handleHeartbeat_eq_ok handled
    obtain ⟨msgs, rfl⟩ := queued.frame
    exact ⟨_, _, _, rfl⟩
  · obtain ⟨s, r₁, restored, -, restoredOk, queued⟩ := handleSnapshot_eq_ok handled
    obtain ⟨msgs, rfl⟩ := queued.frame
    rcases restore_eq_ok restoredOk with ⟨-, raftLog, rfl, -⟩ | ⟨-, -, prs, rfl⟩ <;>
      exact ⟨_, _, _, rfl⟩

/--
`stepCandidate` ignores the message, steps down and answers a replication message, or
counts a vote and then becomes leader, steps down, or waits.
-/
theorem stepCandidate_cases (done : r.stepCandidate m = .ok (r', e)) :
    r' = r ∨ Handles (r.becomeFollower m.term m.from) m r' ∨
      m.msgType = .msgRequestVoteResponse ∧
        (((r.poll m.from !m.reject).1.quorum = (r.poll m.from !m.reject).2 ∧
            ∃ r₁, (r.poll m.from !m.reject).1.becomeLeader = .ok r₁ ∧ r₁.bcastAppend = .ok r') ∨
          r' = (r.poll m.from !m.reject).1.becomeFollower r.term None ∨
          r' = (r.poll m.from !m.reject).1) := by
  unfold stepCandidate at done
  cases messageType : m.msgType <;> simp only [messageType, pure_bind] at done
  case msgAppend =>
    obtain ⟨r₁, handled, rest⟩ := bind_eq_ok.mp done
    cases pure_eq_ok.mp rest
    exact .inr (.inl (.inl ⟨messageType, handled⟩))
  case msgHeartbeat =>
    obtain ⟨r₁, handled, rest⟩ := bind_eq_ok.mp done
    cases pure_eq_ok.mp rest
    exact .inr (.inl (.inr (.inl ⟨messageType, handled⟩)))
  case msgSnapshot =>
    obtain ⟨r₁, handled, rest⟩ := bind_eq_ok.mp done
    cases pure_eq_ok.mp rest
    exact .inr (.inl (.inr (.inr ⟨messageType, handled⟩)))
  case msgRequestVoteResponse =>
    refine .inr (.inr ⟨rfl, ?_⟩)
    split_ifs at done with won
    · obtain ⟨r₁, became, rest⟩ := bind_eq_ok.mp done
      obtain ⟨r₂, sent, rest⟩ := bind_eq_ok.mp rest
      cases pure_eq_ok.mp rest
      exact .inl ⟨won, r₁, became, sent⟩
    · cases pure_eq_ok.mp done
      exact .inr (.inl rfl)
    · cases pure_eq_ok.mp done
      exact .inr (.inr rfl)
  all_goals cases pure_eq_ok.mp done; exact .inl rfl

/--
`stepFollower` ignores the message, forwards it, answers a replication message after
adopting its sender as leader, or campaigns on a `MsgTimeoutNow` when promotable.
-/
theorem stepFollower_cases (done : r.stepFollower m = .ok (r', e)) :
    r' = r ∨ m.msgType = .msgTransferLeader ∧ r.send { m with «to» := r.lead } = .ok r' ∨
      Handles { r with electionElapsed := 0, lead := m.from } m r' ∨
      m.msgType = .msgTimeoutNow ∧ r.promotable ∧ r.campaign = .ok r' := by
  unfold stepFollower at done
  cases messageType : m.msgType <;> simp only [messageType, pure_bind] at done
  case msgAppend =>
    obtain ⟨r₁, handled, rest⟩ := bind_eq_ok.mp done
    cases pure_eq_ok.mp rest
    exact .inr (.inr (.inl (.inl ⟨messageType, handled⟩)))
  case msgHeartbeat =>
    obtain ⟨r₁, handled, rest⟩ := bind_eq_ok.mp done
    cases pure_eq_ok.mp rest
    exact .inr (.inr (.inl (.inr (.inl ⟨messageType, handled⟩))))
  case msgSnapshot =>
    obtain ⟨r₁, handled, rest⟩ := bind_eq_ok.mp done
    cases pure_eq_ok.mp rest
    exact .inr (.inr (.inl (.inr (.inr ⟨messageType, handled⟩))))
  case msgTransferLeader =>
    split_ifs at done
    · cases pure_eq_ok.mp done
      exact .inl rfl
    · obtain ⟨r₁, sent, rest⟩ := bind_eq_ok.mp done
      cases pure_eq_ok.mp rest
      exact .inr (.inl ⟨rfl, sent⟩)
  case msgTimeoutNow =>
    split_ifs at done with promotable
    · obtain ⟨r₁, campaigned, rest⟩ := bind_eq_ok.mp done
      cases pure_eq_ok.mp rest
      exact .inr (.inr (.inr ⟨rfl, promotable, campaigned⟩))
    · cases pure_eq_ok.mp done
      exact .inl rfl
  all_goals cases pure_eq_ok.mp done; exact .inl rfl

/--
The term gate of `Step`: a message of the current term or a local one passes as is, one
of a later term first makes the node follower of that term.
-/
theorem stepTerm_cases (gated : r.stepTerm m = some r₁) :
    r₁ = r ∧ (m.term = 0 ∨ m.term = r.term) ∨
      r.term < m.term ∧ (r₁ = r.becomeFollower m.term m.from ∨ r₁ = r.becomeFollower m.term None) := by
  unfold stepTerm at gated
  split_ifs at gated with termless later replication stale <;> cases gated
  · exact .inl ⟨rfl, .inl termless⟩
  · exact .inr ⟨later, .inl rfl⟩
  · exact .inr ⟨later, .inr rfl⟩
  · exact .inl ⟨rfl, .inr (by omega)⟩

/--
`Step`: after the term gate, a `MsgHup` campaigns unless the node leads or a committed
conf change is unapplied, a `MsgRequestVote` is granted or rejected, and every other
message goes to the handler of the node's role.
-/
theorem step_cases (done : r.step m = .ok (r', e)) :
    r.stepTerm m = none ∧ r' = r ∨
      ∃ r₁, r.stepTerm m = some r₁ ∧
        (m.msgType = .msgHup ∧
            (r' = r₁ ∨ r₁.state ≠ .stateLeader ∧
              (∃ ents, r₁.raftLog.slice (r₁.raftLog.applied + 1) (r₁.raftLog.committed + 1) = .ok ents ∧
                ¬(numOfPendingConf ents ≠ 0 ∧ r₁.raftLog.applied < r₁.raftLog.committed)) ∧
              r₁.campaign = .ok r') ∨
          m.msgType = .msgRequestVote ∧
            (((r₁.vote = m.from ∨ r₁.vote = None ∧ r₁.lead = None) ∧
                r₁.raftLog.isUpToDate m.index m.logTerm ∧
                ∃ r₂, r₁.send { «to» := m.from, term := m.term, msgType := .msgRequestVoteResponse } =
                    .ok r₂ ∧ r' = { r₂ with electionElapsed := 0, vote := m.from }) ∨
              r₁.send
                { «to» := m.from, term := r₁.term, msgType := .msgRequestVoteResponse, reject := true } =
                .ok r') ∨
          r₁.state = .stateFollower ∧ r₁.stepFollower m = .ok (r', e) ∨
          r₁.state = .stateCandidate ∧ r₁.stepCandidate m = .ok (r', e) ∨
          r₁.state = .stateLeader ∧ r₁.stepLeader m = .ok (r', e)) := by
  unfold step at done
  cases gated : r.stepTerm m with
  | none =>
      simp only [gated] at done
      cases pure_eq_ok.mp done
      exact .inl ⟨rfl, rfl⟩
  | some r₁ =>
      simp only [gated] at done
      refine .inr ⟨r₁, rfl, ?_⟩
      cases messageType : m.msgType <;> simp only [messageType, pure_bind] at done
      case msgHup =>
        refine .inl ⟨rfl, ?_⟩
        split_ifs at done with notLeader
        · split at done
          · rename_i ents sliced
            split_ifs at done with pending
            · cases pure_eq_ok.mp done
              exact .inl rfl
            · obtain ⟨r₂, campaigned, rest⟩ := bind_eq_ok.mp done
              cases pure_eq_ok.mp rest
              exact .inr ⟨notLeader, ⟨ents, sliced, pending⟩, campaigned⟩
          · exact absurd done throw_ne_ok
        · cases pure_eq_ok.mp done
          exact .inl rfl
      case msgRequestVote =>
        refine .inr (.inl ⟨rfl, ?_⟩)
        split_ifs at done with granted
        · obtain ⟨r₂, sent, rest⟩ := bind_eq_ok.mp done
          cases pure_eq_ok.mp rest
          exact .inl ⟨granted.1, granted.2, r₂, sent, rfl⟩
        · obtain ⟨r₂, sent, rest⟩ := bind_eq_ok.mp done
          cases pure_eq_ok.mp rest
          exact .inr sent
      all_goals
        refine .inr (.inr ?_)
        cases state : r₁.state <;> simp only [state] at done
        exacts [.inl ⟨rfl, done⟩, .inr (.inl ⟨rfl, done⟩), .inr (.inr ⟨rfl, done⟩)]

/-- `tickElection` counts the tick, or past the timeout steps a `MsgHup` from a clean clock. -/
theorem tickElection_cases (done : r.tickElection = .ok r') :
    r' = { r with electionElapsed := r.electionElapsed + 1 } ∨
      ∃ e, r.promotable ∧
        { r with electionElapsed := 0 }.step { «from» := r.id, msgType := .msgHup } = .ok (r', e) := by
  unfold tickElection at done
  simp only [pure_bind] at done
  split_ifs at done with timedOut
  · obtain ⟨⟨r₁, e⟩, stepped, rest⟩ := bind_eq_ok.mp done
    cases pure_eq_ok.mp rest
    exact .inr ⟨e, timedOut.1, stepped⟩
  · exact .inl (pure_eq_ok.mp done).symm

/--
`tickHeartbeat` moves the clocks and may abort a transfer; a leader whose heartbeat is
due then steps a `MsgBeat`.
-/
theorem tickHeartbeat_cases (done : r.tickHeartbeat = .ok r') :
    ∃ heartbeatElapsed electionElapsed leadTransferee,
      r' = { r with heartbeatElapsed, electionElapsed, leadTransferee } ∨
        ∃ e, r.state = .stateLeader ∧
          { r with heartbeatElapsed, electionElapsed, leadTransferee }.step
            { «from» := r.id, msgType := .msgBeat } = .ok (r', e) := by
  unfold tickHeartbeat at done
  simp only [pure_bind] at done
  obtain ⟨heartbeatElapsed, electionElapsed, leadTransferee, clocked⟩ :
      ∃ heartbeatElapsed electionElapsed leadTransferee,
        (if r.electionTimeout ≤ r.electionElapsed + 1 then
          if r.state = .stateLeader ∧ r.leadTransferee ≠ None then
            { r with heartbeatElapsed := r.heartbeatElapsed + 1, electionElapsed := 0 }.abortLeaderTransfer
          else { r with heartbeatElapsed := r.heartbeatElapsed + 1, electionElapsed := 0 }
        else { r with heartbeatElapsed := r.heartbeatElapsed + 1, electionElapsed := r.electionElapsed + 1 }) =
          { r with heartbeatElapsed, electionElapsed, leadTransferee } := by
    split_ifs <;> exact ⟨_, _, _, rfl⟩
  simp only [clocked] at done
  split at done
  · exact ⟨_, _, _, .inl (pure_eq_ok.mp done).symm⟩
  rename_i leader
  split at done
  · obtain ⟨⟨r₂, e⟩, stepped, rest⟩ := bind_eq_ok.mp done
    cases pure_eq_ok.mp rest
    exact ⟨0, electionElapsed, leadTransferee, .inr ⟨e, by simpa using leader, stepped⟩⟩
  · exact ⟨_, _, _, .inl (pure_eq_ok.mp done).symm⟩

/-- A leader's tick only moves its clocks and bookkeeping and may broadcast heartbeats. -/
theorem tick_noAppend (leader : r.state = .stateLeader) (done : r.tick = .ok r') : NoAppend r r' := by
  simp only [tick, leader] at done
  obtain ⟨heartbeatElapsed, electionElapsed, leadTransferee, rfl | ⟨e, -, stepped⟩⟩ :=
    tickHeartbeat_cases done
  · exact .of_bookkeeping (fun _ => Iff.rfl) _ _ _
  · refine (NoAppend.of_bookkeeping (r := r) (fun _ => Iff.rfl) leadTransferee electionElapsed
      heartbeatElapsed).trans ?_
    rcases step_cases stepped with ⟨gated, -⟩ | ⟨r₁, gated, stepped⟩
    · simp [stepTerm] at gated
    · simp only [stepTerm, if_pos, Option.some.injEq] at gated
      subst gated
      rcases stepped with ⟨beat, -⟩ | ⟨voted, -⟩ | ⟨follower, -⟩ | ⟨candidate, -⟩ | ⟨-, stepped⟩
      · cases beat
      · cases voted
      · simp [leader] at follower
      · simp [leader] at candidate
      · rcases stepLeader_noAppend_or_proposes stepped with noAppend | ⟨beat, -⟩
        · exact noAppend
        · cases beat

theorem tick_leaderStep (leader : r.state = .stateLeader) (done : r.tick = .ok r') :
    LeaderStep r r' :=
  (tick_noAppend leader done).1

theorem tick_leaderFrame (leader : r.state = .stateLeader) (done : r.tick = .ok r') :
    LeaderFrame r r' :=
  (tick_leaderStep leader done).1

/-!
## The guards of the two campaign paths

`Step` starts a campaign on two paths.  A `MsgHup` checks that no committed conf change
is still unapplied, but not that the node is a voting member; a `MsgTimeoutNow` checks
membership (`promotable`), but not the pending conf change.  Each path therefore
campaigns in a state the other refuses.  Spec §4.3 asks a `MsgTimeoutNow` campaign for
membership only; the conf-change guard is the one `Step` applies to `MsgHup`.
-/

/-- Node 4, a follower of term 1 whose peer map `{1, 2, 3}` does not hold it. -/
def nonMemberFollower : Raft where
  id := 4
  term := 1
  raftLog := { ents := [{ term := 1, index := 1 }], committed := 1, applied := 1 }
  prs := ((∅ : ProgressMap).insert 3 {}).insert 2 {} |>.insert 1 {}
  heartbeatTimeout := 1
  electionTimeout := 10
  id_ne_none := by decide
  heartbeatTimeout_pos := by decide
  heartbeat_lt_election := by decide

/--
Node 2 of `{1, 2, 3}`, a follower of term 1 whose entry 2, a conf change, is committed
but not yet applied.
-/
def pendingConfFollower : Raft where
  id := 2
  term := 1
  raftLog :=
    { ents := [{ term := 1, index := 1 }, { entryType := .entryConfChange, term := 1, index := 2 }]
      committed := 2
      applied := 1 }
  prs := ((∅ : ProgressMap).insert 3 {}).insert 2 {} |>.insert 1 {}
  heartbeatTimeout := 1
  electionTimeout := 10
  id_ne_none := by decide
  heartbeatTimeout_pos := by decide
  heartbeat_lt_election := by decide

/--
The two paths campaign on different guards: a `MsgHup` makes the non-member a
candidate, which its `MsgTimeoutNow` refuses, and a `MsgTimeoutNow` makes the node with
an unapplied committed conf change a candidate, which its `MsgHup` refuses.
-/
theorem campaign_paths_check_different_guards :
    nonMemberFollower.promotable = false ∧
      (∃ r', nonMemberFollower.step { msgType := .msgHup, «from» := 4 } = .ok (r', none) ∧
        r'.state = .stateCandidate ∧ r'.term = 2) ∧
      nonMemberFollower.step { msgType := .msgTimeoutNow, «from» := 1, term := 1 } =
        .ok (nonMemberFollower, none) ∧
      (∃ ents, pendingConfFollower.raftLog.slice 2 3 = .ok ents ∧ numOfPendingConf ents = 1) ∧
      (∃ r', pendingConfFollower.step { msgType := .msgTimeoutNow, «from» := 1, term := 1 } =
          .ok (r', none) ∧ r'.state = .stateCandidate ∧ r'.term = 2) ∧
      pendingConfFollower.step { msgType := .msgHup, «from» := 2 } = .ok (pendingConfFollower, none) := by
  obtain ⟨r₁, hupCampaigns⟩ : ∃ r₁, nonMemberFollower.step { msgType := .msgHup, «from» := 4 } =
      .ok (r₁, none) := ⟨_, rfl⟩
  obtain ⟨r₂, transferCampaigns⟩ : ∃ r₂, pendingConfFollower.step
      { msgType := .msgTimeoutNow, «from» := 1, term := 1 } = .ok (r₂, none) := ⟨_, rfl⟩
  have candidates : (r₁.state = .stateCandidate ∧ r₁.term = 2) ∧
      r₂.state = .stateCandidate ∧ r₂.term = 2 := by
    cases hupCampaigns
    cases transferCampaigns
    exact ⟨⟨rfl, rfl⟩, rfl, rfl⟩
  exact ⟨rfl, ⟨r₁, hupCampaigns, candidates.1⟩, rfl, ⟨_, rfl, rfl⟩,
    ⟨r₂, transferCampaigns, candidates.2⟩, rfl⟩

end Raft

end TinyKVRaft
