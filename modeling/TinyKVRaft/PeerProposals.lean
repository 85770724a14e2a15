import TinyKVRaft.Peer
import TinyKVRaft.PendingConf

namespace TinyKVRaft

/-!
# A peer's proposals name their entries

What `PostPropose` records about a command is what the raft group did with it.  Over every
run of a peer (proposals, messages stepped into its raft group, ticks, application of
committed entries, moves of its storage's applied index, hand-overs to the applier), while
the raft group is in the term of a recorded proposal it leads, and its log holds at the
proposal's index an entry of that term, a conf change exactly when the proposal is one.
Proposals of one term come in increasing index order, which is the order the applier's
queue relies on, and a conf change is proposed only once every conf change proposed before
it in its term is at or below the storage's applied index.

The run leans on two facts of the raft group: a leader that stays in its term keeps every
entry it holds (it only appends), and `Step` and `tick` never move `applied`, so the
storage's applied index, which follows the entries the raft group handed out, stays at or
below it.  That is what lets `ProposeConfChange`'s check stand for the raft group's own:
the conf change is appended as one, not turned into an empty entry.
-/

/-- A success with its error relabelled is the same success. -/
@[simp] theorem mapError_eq_ok {ε ε' α : Type} {x : Except ε α} {f : ε → ε'} {a : α} :
    x.mapError f = .ok a ↔ x = .ok a := by
  cases x <;> simp [Except.mapError]

namespace RaftLog

theorem Extends.applied_eq {l l' : RaftLog} (extended : l.Extends l') : l'.applied = l.applied := by
  obtain ⟨added, c, rfl, -⟩ := extended
  rfl

end RaftLog

namespace Raft

variable {r r' r₁ : Raft} {m : Message} {e : Option StepError}

/-! ## `applied` moves only when an entry is applied -/

theorem Handles.applied_eq (handled : Handles r m r') : r'.raftLog.applied = r.raftLog.applied := by
  rcases handled with ⟨-, handled⟩ | ⟨-, handled⟩ | ⟨-, handled⟩
  · obtain ⟨raftLog, queued, rfl | ⟨-, lastnewi, appended⟩⟩ := handleAppendEntries_eq_ok handled <;>
      obtain ⟨msgs, rfl⟩ := queued.frame
    · rfl
    · obtain ⟨ents, c, rfl⟩ := RaftLog.maybeAppend_frame appended
      rfl
  · obtain ⟨raftLog, queued, committedTo⟩ := handleHeartbeat_eq_ok handled
    obtain ⟨msgs, rfl⟩ := queued.frame
    rw [(RaftLog.commitTo_eq_ok committedTo).1]
  · obtain ⟨s, r₁, restored, -, restoredOk, queued⟩ := handleSnapshot_eq_ok handled
    obtain ⟨msgs, rfl⟩ := queued.frame
    rcases restore_eq_ok restoredOk with ⟨-, raftLog, rfl, rfl | committedTo⟩ | ⟨-, -, prs, rfl⟩
    · rfl
    · rw [(RaftLog.commitTo_eq_ok committedTo).1]
    · rfl

theorem stepFollower_applied (done : r.stepFollower m = .ok (r', e)) :
    r'.raftLog.applied = r.raftLog.applied := by
  rcases stepFollower_cases done with rfl | ⟨-, sent⟩ | handled | ⟨-, -, campaigned⟩
  · rfl
  · obtain ⟨msgs, rfl⟩ := send_queues sent
    rfl
  · exact handled.applied_eq
  · exact (campaign_eq_ok campaigned).2.2.2.2.1.applied_eq

theorem stepCandidate_applied (done : r.stepCandidate m = .ok (r', e)) :
    r'.raftLog.applied = r.raftLog.applied := by
  rcases stepCandidate_cases done with rfl | handled | ⟨-, ⟨-, r₁, became, sent⟩ | rfl | rfl⟩
  · rfl
  · simpa using handled.applied_eq
  · obtain ⟨msgs, rfl⟩ := (bcastAppend_outgoing sent).frame
    exact (becomeLeader_eq_ok became).2.2.2.2.2.2.1.1.applied_eq
  · simp [poll_eq]
  · simp [poll_eq]

/-- `Step` never moves `applied`. -/
theorem step_applied (done : r.step m = .ok (r', e)) : r'.raftLog.applied = r.raftLog.applied := by
  rcases step_cases done with ⟨-, rfl⟩ | ⟨r₁, gated, branch⟩
  · rfl
  rw [← stepTerm_raftLog gated]
  rcases branch with ⟨-, rfl | ⟨-, -, campaigned⟩⟩ | ⟨-, ⟨-, -, r₂, sent, rfl⟩ | sent⟩ |
      ⟨-, stepped⟩ | ⟨-, stepped⟩ | ⟨-, stepped⟩
  · rfl
  · exact (campaign_eq_ok campaigned).2.2.2.2.1.applied_eq
  · obtain ⟨msgs, rfl⟩ := send_queues sent
    rfl
  · obtain ⟨msgs, rfl⟩ := send_queues sent
    rfl
  · exact stepFollower_applied stepped
  · exact stepCandidate_applied stepped
  · exact (stepLeader_frame stepped).extends_raftLog.applied_eq

/-- `tick` never moves `applied`. -/
theorem tick_applied (done : r.tick = .ok r') : r'.raftLog.applied = r.raftLog.applied := by
  cases state : r.state
  case stateLeader => exact (tick_leaderFrame state done).extends_raftLog.applied_eq
  all_goals
    simp only [tick, state] at done
    rcases tickElection_cases done with rfl | ⟨e, -, stepped⟩
    · rfl
    · exact (step_applied stepped).trans rfl

/-! ## A proposal of one entry -/

/--
The loop over a proposal of one entry keeps it; a conf change, kept once `applied` has
reached `PendingConfIndex`, moves `PendingConfIndex` to its index.
-/
theorem proposalEntries_one {applied lastIndex pending : Nat} {e₁ : Entry}
    (reached : e₁.entryType = .entryConfChange → pending ≤ applied) :
    proposalEntries applied lastIndex pending 0 [e₁] =
      ([e₁], if e₁.entryType = .entryConfChange then lastIndex + 1 else pending) := by
  by_cases conf : e₁.entryType = .entryConfChange
  · simp [proposalEntries, conf, Nat.not_lt.mpr (reached conf)]
  · simp [proposalEntries, conf]

/--
A local proposal of one entry that `Step` takes without an error is the leader's: the
node leads, stays in its term, and appends and broadcasts the loop's entries.
-/
theorem step_propose_one {e₁ : Entry} (kind : m.msgType = .msgPropose) (termless : m.term = 0)
    (single : m.entries = [e₁]) (done : r.step m = .ok (r', none)) :
    r.state = .stateLeader ∧ r'.term = r.term ∧ ∃ r₁, { r with pendingConfIndex :=
      (proposalEntries r.raftLog.applied r.raftLog.lastIndex r.pendingConfIndex 0 [e₁]).2 }.appendEntry
        (proposalEntries r.raftLog.applied r.raftLog.lastIndex r.pendingConfIndex 0 [e₁]).1 = .ok r₁ ∧
      r₁.bcastAppend = .ok r' := by
  unfold step at done
  simp only [stepTerm, termless, if_true, kind] at done
  -- a follower or a candidate drops the proposal
  have leader : r.state = .stateLeader := by
    cases state : r.state
    case stateLeader => rfl
    all_goals
      simp only [state, stepFollower, stepCandidate, kind] at done
      cases pure_eq_ok.mp done
  simp only [leader] at done
  unfold stepLeader at done
  simp only [kind, single, ne_eq, not_true_eq_false, and_false, if_false, List.isEmpty_cons,
    Bool.false_eq_true, pure_bind] at done
  -- a leader without itself in the peer map, or transferring, drops it too
  split_ifs at done with member idle
  · obtain ⟨r₁, appended, rest⟩ := bind_eq_ok.mp done
    obtain ⟨r₂, sent, rest⟩ := bind_eq_ok.mp rest
    cases pure_eq_ok.mp rest
    refine ⟨leader, ?_, r₁, appended, sent⟩
    obtain ⟨msgs, rfl⟩ := (bcastAppend_outgoing sent).frame
    obtain ⟨c, prs, rfl, -⟩ := appendEntry_eq_ok appended
    rfl
  all_goals cases pure_eq_ok.mp done

/-- Appending one entry and broadcasting it: the entry, stamped, becomes the log's last one. -/
theorem appendEntry_one {e₁ : Entry} {pending : Nat}
    (appended : { r with pendingConfIndex := pending }.appendEntry [e₁] = .ok r₁)
    (sent : r₁.bcastAppend = .ok r') :
    r'.state = r.state ∧ r'.term = r.term ∧ r'.pendingConfIndex = pending ∧
      r.raftLog.Extends r'.raftLog ∧ r'.raftLog.lastIndex = r.raftLog.lastIndex + 1 ∧
      r'.raftLog.entryAt (r.raftLog.lastIndex + 1) =
        some { e₁ with term := r.term, index := r.raftLog.lastIndex + 1 } := by
  obtain ⟨msgs, rfl⟩ := (bcastAppend_outgoing sent).frame
  obtain ⟨c, prs, rfl, raised, inLog, -⟩ := appendEntry_eq_ok appended
  refine ⟨rfl, rfl, rfl, ⟨_, c, rfl, raised, fun moved => by simpa using inLog moved⟩, ?_, ?_⟩
  · simp [RaftLog.lastIndex, RaftLog.snapshotIndex, stampEntries]
    omega
  · simp [RaftLog.entryAt, RaftLog.lastIndex, RaftLog.firstIndex, RaftLog.snapshotIndex, stampEntries]
    omega

/-! ## The calls of a peer's message handler -/

/--
A call the message handler of a peer makes on its raft group: a `Step` of a message whose
term follows the convention of `send`, a `tick`, or handing out the next committed entry.
-/
def HandlerCall (r r' : Raft) : Prop :=
  (∃ m e, m.TermSet ∧ r.step m = .ok (r', e)) ∨ r.tick = .ok r' ∨ r.applyNext = .ok r'

namespace HandlerCall

theorem call (handled : HandlerCall r r') : Call r r' := by
  rcases handled with ⟨m, e, -, done⟩ | ticked | applied
  · exact .inl ⟨m, e, done⟩
  · exact .inr (.inl ticked)
  · exact .inr (.inr applied)

theorem term_le (handled : HandlerCall r r') : r.term ≤ r'.term := by
  rcases handled with ⟨m, e, termSet, done⟩ | ticked | applied
  · exact (step_termVote termSet done).1
  · exact (tick_term_vote ticked).1
  · obtain ⟨-, raftLog, prs, msgs, leadTransferee, rfl, -⟩ := applyNext_eq_ok applied
    exact le_rfl

/-- Only handing out an entry moves `applied`, and only forward. -/
theorem applied_le (handled : HandlerCall r r') : r.raftLog.applied ≤ r'.raftLog.applied := by
  rcases handled with ⟨m, e, -, done⟩ | ticked | applied
  · exact (step_applied done).ge
  · exact (tick_applied ticked).ge
  · obtain ⟨-, raftLog, prs, msgs, leadTransferee, rfl, extended, -⟩ := applyNext_eq_ok applied
    rw [extended.applied_eq]
    exact Nat.le_succ _

/-- A leader whose call ends in its term is still the leader: the call is a `LeaderCall`. -/
theorem leaderCall (handled : HandlerCall r r') (leader : r.state = .stateLeader)
    (same : r'.term = r.term) : LeaderCall r r' := by
  refine ⟨leader, ?_, same, handled.call⟩
  rcases handled with ⟨m, e, -, done⟩ | ticked | applied
  · exact ((step_keepsRole leader done).1 same).1
  · exact (tick_keepsRole leader ticked).1
  · obtain ⟨-, raftLog, prs, msgs, leadTransferee, rfl, -⟩ := applyNext_eq_ok applied
    exact leader

end HandlerCall

/-- A proposal keeps every entry and moves `PendingConfIndex` only forward. -/
theorem Proposes.keeps {es : List Entry} (proposed : Proposes es r r') (bounded : r.raftLog.Bounded) :
    r.raftLog.Extends r'.raftLog ∧ r.pendingConfIndex ≤ r'.pendingConfIndex := by
  obtain ⟨r₁, appended, sent⟩ := proposed
  obtain ⟨msgs, rfl⟩ := (bcastAppend_outgoing sent).frame
  rcases looped : proposalEntries r.raftLog.applied r.raftLog.lastIndex r.pendingConfIndex 0 es
    with ⟨out, p⟩
  simp only [looped] at appended
  refine ⟨(appendEntry_stamped appended).2.1.1, ?_⟩
  obtain ⟨c, prs, rfl, -⟩ := appendEntry_eq_ok appended
  obtain ⟨-, none | ⟨reached, k, rfl, -⟩⟩ :=
    proposalEntries_spec looped (bounded.1.trans bounded.2)
  · exact none.2.ge
  · have := bounded.1.trans bounded.2
    dsimp only
    omega

/-- A leader's call that ends in its term keeps every entry and moves `PendingConfIndex` only forward. -/
theorem LeaderCall.keeps (call : LeaderCall r r') (bounded : r.raftLog.Bounded) :
    (∀ i e, r.raftLog.entryAt i = some e → r'.raftLog.entryAt i = some e) ∧
      r.pendingConfIndex ≤ r'.pendingConfIndex := by
  rcases call.cases with kept | ⟨es, proposed⟩
  · exact ⟨fun i e held => (kept.entryAt_eq i).trans held, kept.1.ge⟩
  · obtain ⟨extended, raised⟩ := proposed.keeps bounded
    exact ⟨fun i e held => extended.entryAt_of_held held, raised⟩

end Raft

namespace RawNode

variable {r r' : Raft} {e : Option StepError}

theorem propose_call {data : List Nat} (stepped : propose r data = .ok (r', e)) : Raft.HandlerCall r r' :=
  .inl ⟨{ msgType := .msgPropose, «from» := r.id, entries := [{ data }] }, e, fun _ => rfl, stepped⟩

theorem proposeConfChange_call {cc : ConfChange} (stepped : proposeConfChange r cc = .ok (r', e)) :
    Raft.HandlerCall r r' :=
  .inl ⟨{ msgType := .msgPropose, entries := [{ entryType := .entryConfChange, data := cc.encode }] }, e,
    fun _ => rfl, stepped⟩

theorem transferLeader_call {transferee : Nat} (stepped : transferLeader r transferee = .ok r') :
    Raft.HandlerCall r r' := by
  obtain ⟨⟨r₁, e⟩, done, rfl⟩ := map_eq_ok.mp stepped
  exact .inl ⟨{ msgType := .msgTransferLeader, «from» := transferee }, e, fun _ => rfl, done⟩

end RawNode

namespace Raftstore

/-! ## The proposal paths of `Propose` -/

/-- `inspect` proposes a command normally only without a `ChangePeer` request. -/
theorem inspect_proposeNormal {req : RaftCmdpb.RaftCmdRequest} (normal : inspect req = .ok .proposeNormal) :
    RaftCmdpb.getChangePeerCmd req = none := by
  unfold inspect at normal
  split_ifs at normal with changing transferring
  · cases normal
  · cases normal
  · exact Option.not_isSome_iff_eq_none.mp changing

/-- The loop of `inspect` ends in an error or a normal proposal. -/
theorem inspectRequests_ne_invalid : ∀ (hasRead hasWrite : Bool) (rs : List RaftCmdpb.Request),
    inspectRequests hasRead hasWrite rs ≠ .ok .invalid
  | _, _, [] => by simp [inspectRequests]
  | hasRead, hasWrite, r :: rs => by
      unfold inspectRequests
      split
      split_ifs
      · simp
      · simp
      · exact inspectRequests_ne_invalid _ _ rs

/-- `inspect` never returns `RequestPolicy_Invalid`, so `Propose` never falls through its switch. -/
theorem inspect_ne_invalid (req : RaftCmdpb.RaftCmdRequest) : inspect req ≠ .ok .invalid := by
  unfold inspect
  split_ifs
  · simp
  · simp
  · exact inspectRequests_ne_invalid false false req.requests

namespace RaftPeer

variable {p p' : RaftPeer} {req : RaftCmdpb.RaftCmdRequest} {result : Except ProposeError Nat}

/--
`ProposeNormal` steps the marshalled command into the raft group, and takes the next index
only when the raft group took the proposal without an error.
-/
theorem proposeNormal_eq_ok (done : p.proposeNormal req = .ok (p', result)) :
    ∃ raftGroup err, RawNode.propose p.raftGroup req.view.marshal = .ok (raftGroup, err) ∧
      p' = { p with raftGroup } ∧ ∀ idx, result = .ok idx → err = none ∧ idx = p.nextProposalIndex := by
  unfold proposeNormal at done
  obtain ⟨⟨raftGroup, err⟩, stepped, rest⟩ := bind_eq_ok.mp done
  refine ⟨raftGroup, err, mapError_eq_ok.mp stepped, ?_⟩
  rcases err with _ | err
  · dsimp only at rest
    split_ifs at rest
    · cases pure_eq_ok.mp rest
      exact ⟨rfl, fun _ answered => by cases answered⟩
    · cases pure_eq_ok.mp rest
      exact ⟨rfl, fun _ answered => ⟨rfl, (Except.ok.inj answered).symm⟩⟩
  · cases pure_eq_ok.mp rest
    exact ⟨rfl, fun _ answered => by cases answered⟩

/--
`ProposeConfChange` refuses, leaving the peer as it was, or, with no conf change pending
above the storage's applied index, steps the command's conf change into the raft group and
takes the next index only when the raft group took it without an error.
-/
theorem proposeConfChange_eq_ok (done : p.proposeConfChange req = .ok (p', result)) :
    p' = p ∧ (∀ idx, result ≠ .ok idx) ∨
      p.raftGroup.pendingConfIndex ≤ p.appliedIndex ∧ ∃ changePeer, RaftCmdpb.getChangePeerCmd req = some changePeer ∧
        ∃ raftGroup err, RawNode.proposeConfChange p.raftGroup
            { changeType := changePeer.changeType, nodeId := changePeer.peer.id } = .ok (raftGroup, err) ∧
          p' = { p with raftGroup } ∧ ∀ idx, result = .ok idx → err = none ∧ idx = p.nextProposalIndex := by
  unfold proposeConfChange at done
  split_ifs at done with pending
  · cases pure_eq_ok.mp done
    exact .inl ⟨rfl, fun _ answered => by cases answered⟩
  simp only [pure_bind] at done
  rcases changing : RaftCmdpb.getChangePeerCmd req with _ | changePeer <;>
    simp only [changing] at done
  · exact absurd done throw_ne_ok
  split at done
  · cases pure_eq_ok.mp done
    exact .inl ⟨rfl, fun _ answered => by cases answered⟩
  obtain ⟨⟨raftGroup, err⟩, stepped, rest⟩ := bind_eq_ok.mp done
  refine .inr ⟨Nat.not_lt.mp pending, changePeer, rfl, raftGroup, err, mapError_eq_ok.mp stepped, ?_⟩
  rcases err with _ | err
  · dsimp only at rest
    split_ifs at rest
    · cases pure_eq_ok.mp rest
      exact ⟨rfl, fun _ answered => by cases answered⟩
    · cases pure_eq_ok.mp rest
      exact ⟨rfl, fun _ answered => ⟨rfl, (Except.ok.inj answered).symm⟩⟩
  · cases pure_eq_ok.mp rest
    exact ⟨rfl, fun _ answered => by cases answered⟩

/--
What `Propose` does with a command: it records nothing, its raft group unchanged or moved
by one call, or the raft group took a local proposal of one entry without an error and
`PostPropose` recorded it at the next index in the raft group's term, as a conf change
exactly when the entry is one, and a conf change only with no conf change pending above
the storage's applied index.
-/
theorem propose_cases {cb : Nat} {accepted : Bool} (done : p.propose cb req = .ok (p', accepted)) :
    p'.proposed = p.proposed ∧ p'.appliedIndex = p.appliedIndex ∧
        (p'.raftGroup = p.raftGroup ∨ Raft.HandlerCall p.raftGroup p'.raftGroup) ∨
      ∃ (m : Message) (r' : Raft) (e₁ : Entry) (isConfChange : Bool), p.raftGroup.step m = .ok (r', none) ∧
        m.msgType = .msgPropose ∧ m.term = 0 ∧ m.entries = [e₁] ∧
        (e₁.entryType = .entryConfChange ↔ isConfChange = true) ∧
        (isConfChange = true → p.raftGroup.pendingConfIndex ≤ p.appliedIndex) ∧
        p' = { p with raftGroup := r' }.postPropose p.nextProposalIndex r'.term isConfChange cb := by
  unfold RaftPeer.propose at done
  split_ifs at done with stopped
  · cases pure_eq_ok.mp done
    exact .inl ⟨rfl, rfl, .inl rfl⟩
  simp only [pure_bind] at done
  split at done
  · -- `inspect` refused the command
    cases pure_eq_ok.mp done
    exact .inl ⟨rfl, rfl, .inl rfl⟩
  · -- a normal proposal
    obtain ⟨⟨p₁, result⟩, proposed, rest⟩ := bind_eq_ok.mp done
    obtain ⟨raftGroup, err, stepped, rfl, took⟩ := proposeNormal_eq_ok proposed
    rcases result with err' | idx <;> cases pure_eq_ok.mp rest
    · exact .inl ⟨rfl, rfl, .inr (RawNode.propose_call stepped)⟩
    · obtain ⟨rfl, rfl⟩ := took idx rfl
      exact .inr ⟨_, _, _, false, stepped, rfl, rfl, rfl, by simp, by simp, rfl⟩
  · -- a leader transfer, answered at once
    unfold proposeTransferLeader at done
    rcases transferring : RaftCmdpb.getTransferLeaderCmd req with _ | peer <;>
      simp only [transferring] at done
    · exact absurd done throw_ne_ok
    obtain ⟨raftGroup, stepped, rest⟩ := bind_eq_ok.mp done
    cases pure_eq_ok.mp rest
    exact .inl ⟨rfl, rfl, .inr (RawNode.transferLeader_call (mapError_eq_ok.mp stepped))⟩
  · -- a conf change
    obtain ⟨⟨p₁, result⟩, proposed, rest⟩ := bind_eq_ok.mp done
    rcases proposeConfChange_eq_ok proposed with
      ⟨rfl, refused⟩ | ⟨reached, changePeer, -, raftGroup, err, stepped, rfl, took⟩
    · rcases result with err' | idx <;> cases pure_eq_ok.mp rest
      · exact .inl ⟨rfl, rfl, .inl rfl⟩
      · exact absurd rfl (refused idx)
    · rcases result with err' | idx <;> cases pure_eq_ok.mp rest
      · exact .inl ⟨rfl, rfl, .inr (RawNode.proposeConfChange_call stepped)⟩
      · obtain ⟨rfl, rfl⟩ := took idx rfl
        exact .inr ⟨_, _, _, true, stepped, rfl, rfl, rfl, by simp, fun _ => reached, rfl⟩
  · -- `RequestPolicy_Invalid`, which `inspect` never returns
    exact absurd ‹_› (inspect_ne_invalid req)

/-! ## The invariant -/

/--
The raft group leads, and its log holds at the proposal's index an entry of the
proposal's term, a conf change exactly when the proposal is one.
-/
def Names (r : Raft) (q : Proposal) : Prop :=
  r.state = .stateLeader ∧ ∃ e, r.raftLog.entryAt q.index = some e ∧ e.term = q.term ∧
    (e.entryType = .entryConfChange ↔ q.isConfChange = true)

/-- A leader's call in its term keeps every entry a proposal names. -/
theorem Names.leaderCall {r r' : Raft} {q : Proposal} (named : Names r q) (call : Raft.LeaderCall r r')
    (bounded : r.raftLog.Bounded) : Names r' q := by
  obtain ⟨-, e, held, sameTerm, sameKind⟩ := named
  exact ⟨call.2.1, e, (call.keeps bounded).1 _ _ held, sameTerm, sameKind⟩

/--
What a peer's proposals record of its raft group.  Within the current term each names its
entry in the leader's log, and a conf change stands at or below `PendingConfIndex`; no
proposal is of a later term, and proposals of one term come in index order.  The
storage's applied index trails the raft group's, whose log keeps its bounds.
-/
structure ProposalsNamed (p : RaftPeer) : Prop where
  bounded : p.raftGroup.raftLog.Bounded
  behind : p.appliedIndex ≤ p.raftGroup.raftLog.applied
  past : ∀ q ∈ p.proposed, q.term ≤ p.term
  ordered : p.proposed.Pairwise fun q q' => q.term = q'.term → q.index < q'.index
  named : ∀ q ∈ p.proposed, q.term = p.term → Names p.raftGroup q
  pending : ∀ q ∈ p.proposed, q.term = p.term → q.isConfChange = true →
    q.index ≤ p.raftGroup.pendingConfIndex

namespace ProposalsNamed

variable {r' : Raft} {cb : Nat}

/-- A peer that has proposed nothing, its storage at or below the raft group's applied index. -/
theorem init (bounded : p.raftGroup.raftLog.Bounded) (behind : p.appliedIndex ≤ p.raftGroup.raftLog.applied)
    (fresh : p.proposed = []) : ProposalsNamed p where
  bounded := bounded
  behind := behind
  past := by simp [fresh]
  ordered := by simp [fresh]
  named := by simp [fresh]
  pending := by simp [fresh]

/-- The invariant reads only the raft group, the storage's applied index and the proposals. -/
theorem congr (inv : ProposalsNamed p) (raftGroup : p'.raftGroup = p.raftGroup)
    (appliedIndex : p'.appliedIndex = p.appliedIndex) (proposed : p'.proposed = p.proposed) :
    ProposalsNamed p' := by
  obtain ⟨bounded, behind, past, ordered, named, pending⟩ := inv
  simp only [RaftPeer.term, ← raftGroup, ← appliedIndex, ← proposed] at *
  exact ⟨bounded, behind, past, ordered, named, pending⟩

theorem answer (inv : ProposalsNamed p) (resp : PeerResp) : ProposalsNamed (p.answer cb resp) :=
  inv.congr rfl rfl rfl

/--
A call of the message handler keeps the invariant: a proposal still of the current term
was of the term before, so the raft group led through the call, which keeps its entries.
-/
theorem raftCall (inv : ProposalsNamed p) (handled : Raft.HandlerCall p.raftGroup r') :
    ProposalsNamed { p with raftGroup := r' } := by
  have stood : ∀ q ∈ p.proposed, q.term = r'.term →
      q.term = p.term ∧ Raft.LeaderCall p.raftGroup r' := by
    intro q mem current
    have same : q.term = p.term := le_antisymm (inv.past q mem) (current ▸ handled.term_le)
    exact ⟨same, handled.leaderCall (inv.named q mem same).1 (current.symm.trans same)⟩
  refine ⟨handled.call.bounded inv.bounded, inv.behind.trans handled.applied_le,
    fun q mem => (inv.past q mem).trans handled.term_le, inv.ordered, fun q mem current => ?_,
    fun q mem current conf => ?_⟩
  · obtain ⟨same, call⟩ := stood q mem current
    exact (inv.named q mem same).leaderCall call inv.bounded
  · obtain ⟨same, call⟩ := stood q mem current
    exact (inv.pending q mem same conf).trans (call.keeps inv.bounded).2

/--
`PostPropose` after the raft group took a local proposal of one entry keeps the invariant:
the leader appended the entry at the index `ProposeNormal` or `ProposeConfChange` took,
past every index named before, and a conf change moved `PendingConfIndex` to it.
-/
theorem postPropose (inv : ProposalsNamed p) {m : Message} (done : p.raftGroup.step m = .ok (r', none))
    {e₁ : Entry} (kind : m.msgType = .msgPropose) (termless : m.term = 0) (single : m.entries = [e₁])
    {isConfChange : Bool} (sameKind : e₁.entryType = .entryConfChange ↔ isConfChange = true)
    (reached : isConfChange = true → p.raftGroup.pendingConfIndex ≤ p.appliedIndex) :
    ProposalsNamed ({ p with raftGroup := r' }.postPropose p.nextProposalIndex r'.term isConfChange cb) := by
  obtain ⟨leader, -, r₁, appended, sent⟩ := Raft.step_propose_one kind termless single done
  have reached' : e₁.entryType = .entryConfChange → p.raftGroup.pendingConfIndex ≤ p.raftGroup.raftLog.applied :=
    fun conf => (reached (sameKind.mp conf)).trans inv.behind
  rw [Raft.proposalEntries_one reached'] at appended
  obtain ⟨state, term, pending, extended, -, held⟩ := Raft.appendEntry_one appended sent
  have call : Raft.LeaderCall p.raftGroup r' :=
    (Raft.HandlerCall.leaderCall (.inl ⟨m, none, fun _ => by simp [kind, MessageType.isLocal], done⟩)
      leader term)
  -- every proposal named before lies at or below the old last index
  have below : ∀ q ∈ p.proposed, q.term = r'.term → q.index < p.nextProposalIndex := by
    intro q mem current
    obtain ⟨-, e, held', -⟩ := inv.named q mem (current.trans term)
    exact Nat.lt_succ_of_le (RaftLog.le_lastIndex_of_entryAt held')
  refine ⟨call.2.2.2.bounded inv.bounded, extended.applied_eq ▸ inv.behind, ?_, ?_, ?_, ?_⟩
  · intro q mem
    rcases (by simpa using mem : q ∈ p.proposed ∨ q = _) with old | rfl
    · exact (inv.past q old).trans term.ge
    · exact le_rfl
  · simp only [postPropose_proposed, List.pairwise_append, List.pairwise_singleton, List.mem_singleton,
      forall_eq, true_and]
    exact ⟨inv.ordered, below⟩
  · intro q mem current
    rcases (by simpa using mem : q ∈ p.proposed ∨ q = _) with old | rfl
    · exact (inv.named q old (current.trans term)).leaderCall call inv.bounded
    · exact ⟨state.trans leader, _, held, term.symm, sameKind⟩
  · intro q mem current conf
    rcases (by simpa using mem : q ∈ p.proposed ∨ q = _) with old | rfl
    · exact (inv.pending q old (current.trans term) conf).trans (call.keeps inv.bounded).2
    · simp only [postPropose_raftGroup, pending, if_pos (sameKind.mpr conf)]
      exact le_rfl

/-- `Propose` keeps the invariant, whatever it does with the command. -/
theorem propose (inv : ProposalsNamed p) {req : RaftCmdpb.RaftCmdRequest} {accepted : Bool}
    (done : p.propose cb req = .ok (p', accepted)) : ProposalsNamed p' := by
  rcases propose_cases done with ⟨proposed, applied, same | handled⟩ |
    ⟨m, r', e₁, isConfChange, stepped, kind, termless, single, sameKind, reached, rfl⟩
  · exact inv.congr same applied proposed
  · exact (inv.raftCall handled).congr rfl applied proposed
  · exact inv.postPropose stepped kind termless single sameKind reached

/-- Every event the world allows keeps the invariant. -/
theorem handle (inv : ProposalsNamed p) {ev : PeerEvent} (allowed : ev.Allowed p)
    (done : p.handle ev = .ok p') : ProposalsNamed p' := by
  cases ev with
  | propose cb req =>
      obtain ⟨⟨p₁, accepted⟩, proposed, rfl⟩ := map_eq_ok.mp done
      exact inv.propose proposed
  | step m =>
      obtain ⟨⟨raftGroup, e⟩, stepped, rest⟩ := bind_eq_ok.mp done
      cases pure_eq_ok.mp rest
      exact inv.raftCall (.inl ⟨m, e, allowed, mapError_eq_ok.mp stepped⟩)
  | tick =>
      obtain ⟨raftGroup, ticked, rest⟩ := bind_eq_ok.mp done
      cases pure_eq_ok.mp rest
      exact inv.raftCall (.inr (.inl (mapError_eq_ok.mp ticked)))
  | applyNext =>
      obtain ⟨raftGroup, applied, rest⟩ := bind_eq_ok.mp done
      cases pure_eq_ok.mp rest
      exact inv.raftCall (.inr (.inr (mapError_eq_ok.mp applied)))
  | applied index =>
      cases pure_eq_ok.mp done
      exact ⟨inv.bounded, allowed, inv.past, inv.ordered, inv.named, inv.pending⟩
  | takeApplyProposals =>
      cases pure_eq_ok.mp done
      unfold takeApplyProposals
      split_ifs <;> exact inv.congr rfl rfl rfl
  | destroy =>
      cases pure_eq_ok.mp done
      exact inv.congr rfl rfl rfl

/-- Every peer a run reaches from one that keeps the invariant keeps it. -/
theorem reachable {p₀ : RaftPeer} (inv₀ : ProposalsNamed p₀) (reached : Reachable p₀ p) :
    ProposalsNamed p := by
  induction reached with
  | start => exact inv₀
  | step _ allowed handled inductionHypothesis => exact inductionHypothesis.handle allowed handled

end ProposalsNamed

/-! ## What a peer's runs keep -/

/--
Node 1, the only peer of its region, leading term 1 with the empty entry of its term
committed and applied, and its storage caught up.
-/
def soloLeader : RaftPeer where
  meta := { id := 1, storeId := 1 }
  regionId := 1
  raftGroup :=
    { id := 1
      term := 1
      vote := 1
      raftLog := { ents := [{ term := 1, index := 1 }], committed := 1, applied := 1 }
      prs := (∅ : ProgressMap).insert 1 { «match» := 1, next := 2 }
      state := .stateLeader
      lead := 1
      heartbeatTimeout := 1
      electionTimeout := 10
      id_ne_none := by decide
      heartbeatTimeout_pos := by decide
      heartbeat_lt_election := by decide }
  appliedIndex := 1
  truncatedIndex := 0

/-- A `ChangePeer` command adding node `id` on store `id`. -/
def addPeer (id : Nat) : RaftCmdpb.RaftCmdRequest :=
  { adminRequest := some
      { cmdType := .changePeer, changePeer := some { changeType := .addNode, peer := { id, storeId := id } } } }

/-- A put, then a conf change adding node 2; both entries handed out and applied. -/
def soloRun : List PeerEvent :=
  [.propose 7 { requests := [{ cmdType := .put, key := [1], value := [2] }] }, .propose 8 (addPeer 2),
    .applyNext, .applyNext, .applied 3]

/--
A peer's proposals name their entries.  Along every run of a peer that starts with nothing
proposed and its storage's applied index at or below its raft group's, each proposal of
the current term names its entry in the leader's log (an entry of its term at its index,
a conf change exactly when the proposal is one), and the proposals of one term come in
increasing index order.
-/
theorem proposals_name_entries {p₀ : RaftPeer} (bounded : p₀.raftGroup.raftLog.Bounded)
    (behind : p₀.appliedIndex ≤ p₀.raftGroup.raftLog.applied) (fresh : p₀.proposed = [])
    (reached : Reachable p₀ p) :
    (∀ q ∈ p.proposed, q.term = p.term → Names p.raftGroup q) ∧
      p.proposed.Pairwise fun q q' => q.term = q'.term → q.index < q'.index :=
  have inv := (ProposalsNamed.init bounded behind fresh).reachable reached
  ⟨inv.named, inv.ordered⟩

/-- After `soloRun` and a second conf change, the three proposals name their entries. -/
theorem soloRun_names : ∃ p, soloLeader.run (soloRun ++ [PeerEvent.propose 9 (addPeer 3)]) = some p ∧
    p.proposed = [⟨false, 2, 1, 7⟩, ⟨true, 3, 1, 8⟩, ⟨true, 4, 1, 9⟩] ∧
    (∀ q ∈ p.proposed, q.term = p.term → Names p.raftGroup q) ∧
      p.proposed.Pairwise fun q q' => q.term = q'.term → q.index < q'.index := by
  obtain ⟨p, ran⟩ : ∃ p, soloLeader.run (soloRun ++ [PeerEvent.propose 9 (addPeer 3)]) = some p := ⟨_, rfl⟩
  refine ⟨p, ran, ?_, proposals_name_entries (by decide) (by decide) rfl (Reachable.start.run ran)⟩
  cases ran
  rfl

/--
One conf change at a time.  Along every run as above, when `Propose` records a conf
change, every conf change proposed before it in its term stands at or below the storage's
applied index: the raft group keeps `PendingConfIndex` at or above each of them, and
`ProposeConfChange` proposes only when `PendingConfIndex` is at or below that index.
-/
theorem confChange_after_applied {p₀ : RaftPeer} (bounded : p₀.raftGroup.raftLog.Bounded)
    (behind : p₀.appliedIndex ≤ p₀.raftGroup.raftLog.applied) (fresh : p₀.proposed = [])
    (reached : Reachable p₀ p) {cb : Nat} {accepted : Bool}
    (done : p.propose cb req = .ok (p', accepted)) {q : Proposal}
    (recorded : p'.proposed = p.proposed ++ [q]) (conf : q.isConfChange = true) :
    ∀ q' ∈ p.proposed, q'.isConfChange = true → q'.term = q.term → q'.index ≤ p.appliedIndex := by
  have inv := (ProposalsNamed.init bounded behind fresh).reachable reached
  rcases propose_cases done with ⟨same, -⟩ |
    ⟨m, r', e₁, isConfChange, stepped, kind, termless, single, -, reached, rfl⟩
  · simp [same] at recorded
  obtain ⟨-, term, -⟩ := Raft.step_propose_one kind termless single stepped
  obtain rfl : _ = q := List.append_inj_right' recorded rfl |> List.singleton_inj.mp
  intro q' mem conf' current
  exact (inv.pending q' mem (current.trans term) conf').trans (reached conf)

/--
After `soloRun` the second conf change is proposed at index 4, and the first, at index 3,
is at the storage's applied index.
-/
theorem soloRun_confChange : ∃ p p', soloLeader.run soloRun = some p ∧
    p.propose 9 (addPeer 3) = .ok (p', true) ∧ p'.proposed = p.proposed ++ [⟨true, 4, 1, 9⟩] ∧
    (⟨true, 3, 1, 8⟩ : Proposal) ∈ p.proposed ∧ p.appliedIndex = 3 ∧
    ∀ q' ∈ p.proposed, q'.isConfChange = true → q'.term = 1 → q'.index ≤ p.appliedIndex := by
  obtain ⟨p, ran⟩ : ∃ p, soloLeader.run soloRun = some p := ⟨_, rfl⟩
  obtain ⟨⟨p', accepted⟩, done⟩ : ∃ x, p.propose 9 (addPeer 3) = .ok x := by
    cases ran
    exact ⟨_, rfl⟩
  have facts : accepted = true ∧ p'.proposed = p.proposed ++ [⟨true, 4, 1, 9⟩] ∧
      (⟨true, 3, 1, 8⟩ : Proposal) ∈ p.proposed ∧ p.appliedIndex = 3 := by
    cases ran
    cases done
    exact ⟨rfl, rfl, by decide, rfl⟩
  obtain ⟨rfl, recorded, member, applied⟩ := facts
  exact ⟨p, p', ran, done, recorded, member, applied,
    confChange_after_applied (by decide) (by decide) rfl (Reachable.start.run ran) done recorded rfl⟩

end RaftPeer

end Raftstore

end TinyKVRaft
