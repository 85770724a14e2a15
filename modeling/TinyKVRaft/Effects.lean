import TinyKVRaft.Step

namespace TinyKVRaft

/-!
# What each helper changes

One lemma per helper of `raft.go`, stating which fields of the node a normal return can
have changed.  The frame is an equation `r' = { r with … }`, so that a later proof
substitutes it and reads every other field off by `rfl`; where a helper moves the log,
the lemma also says how.  The theorems about `Step` are assembled from these lemmas and
never unfold a helper again.
-/

namespace Raft

variable {r r' r₁ r₂ : Raft}

/-! ## Role changes -/

@[simp] theorem reset_term (r : Raft) (term : Nat) : (r.reset term).term = term := by
  unfold reset
  split <;> simp_all [resetRandomizedElectionTimeout, abortLeaderTransfer]

@[simp] theorem reset_vote (r : Raft) (term : Nat) :
    (r.reset term).vote = if r.term = term then r.vote else None := by
  unfold reset
  split <;> simp_all [resetRandomizedElectionTimeout, abortLeaderTransfer]

@[simp] theorem reset_raftLog (r : Raft) (term : Nat) : (r.reset term).raftLog = r.raftLog := by
  unfold reset
  split <;> rfl

@[simp] theorem reset_state (r : Raft) (term : Nat) : (r.reset term).state = r.state := by
  unfold reset
  split <;> rfl

@[simp] theorem reset_id (r : Raft) (term : Nat) : (r.reset term).id = r.id := by
  unfold reset
  split <;> rfl

@[simp] theorem reset_msgs (r : Raft) (term : Nat) : (r.reset term).msgs = r.msgs := by
  unfold reset
  split <;> rfl

@[simp] theorem reset_votes (r : Raft) (term : Nat) : (r.reset term).votes = ∅ := by
  unfold reset
  split <;> rfl

@[simp] theorem reset_lead (r : Raft) (term : Nat) : (r.reset term).lead = None := by
  unfold reset
  split <;> rfl

@[simp] theorem mem_resetProgress {id self lastIndex : Nat} {prs : ProgressMap} :
    id ∈ resetProgress self lastIndex prs ↔ id ∈ prs := by
  simp [resetProgress, AList.mem_keys, AList.keys, List.keys]

@[simp] theorem mem_reset_prs {id : Nat} (r : Raft) (term : Nat) : id ∈ (r.reset term).prs ↔ id ∈ r.prs := by
  unfold reset
  split <;> simp [resetRandomizedElectionTimeout, abortLeaderTransfer]

@[simp] theorem becomeFollower_term (r : Raft) (term lead : Nat) :
    (r.becomeFollower term lead).term = term :=
  reset_term r term

@[simp] theorem becomeFollower_vote (r : Raft) (term lead : Nat) :
    (r.becomeFollower term lead).vote = if r.term = term then r.vote else None :=
  reset_vote r term

@[simp] theorem becomeFollower_raftLog (r : Raft) (term lead : Nat) :
    (r.becomeFollower term lead).raftLog = r.raftLog :=
  reset_raftLog r term

@[simp] theorem becomeFollower_state (r : Raft) (term lead : Nat) :
    (r.becomeFollower term lead).state = .stateFollower :=
  rfl

@[simp] theorem becomeFollower_lead (r : Raft) (term lead : Nat) :
    (r.becomeFollower term lead).lead = lead :=
  rfl

@[simp] theorem becomeFollower_id (r : Raft) (term lead : Nat) :
    (r.becomeFollower term lead).id = r.id :=
  reset_id r term

@[simp] theorem becomeFollower_msgs (r : Raft) (term lead : Nat) :
    (r.becomeFollower term lead).msgs = r.msgs :=
  reset_msgs r term

/-- `becomeCandidate` moves to the next term with a vote for self, log untouched. -/
theorem becomeCandidate_eq_ok (became : r.becomeCandidate = .ok r') :
    r.state ≠ .stateLeader ∧ r'.term = r.term + 1 ∧ r'.vote = r.id ∧
      r'.state = .stateCandidate ∧ r'.raftLog = r.raftLog ∧ r'.id = r.id ∧ r'.msgs = r.msgs ∧
      r'.votes = ∅ ∧ ∀ id, id ∈ r'.prs ↔ id ∈ r.prs := by
  unfold becomeCandidate at became
  split_ifs at became with leader
  cases pure_eq_ok.mp became
  exact ⟨leader, by simp, rfl, rfl, by simp, by simp, by simp, by simp, by simp⟩

/-! ## Helpers that only send -/

/--
What a `MsgAppend` cut from log `l` carries: the index before `Next` and its term in
`l`, then the entries of `l` from `Next` on, or a prefix of them once `l` has grown.
-/
def AppendOf (l : RaftLog) (m : Message) : Prop :=
  m.msgType = .msgAppend → ∃ next rest, m.index = pred64 next ∧ l.term m.index = .ok m.logTerm ∧
    l.entries next = .ok (m.entries ++ rest)

/-- A message cut from a log is cut from every extension of it. -/
theorem AppendOf.of_extends {l l' : RaftLog} {m : Message} (extended : l.Extends l')
    (cut : AppendOf l m) : AppendOf l' m := fun isAppend => by
  obtain ⟨next, rest, index, term, sliced⟩ := cut isAppend
  obtain ⟨added, sliced'⟩ := extended.entries_eq sliced
  exact ⟨next, rest ++ added, index, extended.term_eq term, by rw [sliced', List.append_assoc]⟩

/--
A message `r` puts on the wire outside the vote exchange: it comes from `r`, is never a
vote answer, carries `r`'s term unless it is local or a vote request (which carries a
term of its own, never 0), is a snapshot only when `r`'s log can produce one, and is an
append only as `sendAppend` cuts one from `r`'s log.
-/
def Outgoing (r : Raft) (m : Message) : Prop :=
  m.from = r.id ∧ m.msgType ≠ .msgRequestVoteResponse ∧
    (m.msgType = .msgRequestVote → m.term ≠ 0) ∧
    (m.msgType ≠ .msgRequestVote → m.msgType.isLocal = false → m.term = r.term) ∧
    (m.msgType = .msgSnapshot → ∃ s, r.raftLog.snapshot = .ok s) ∧ AppendOf r.raftLog m

/-- A call that only queues messages, each satisfying `P`. -/
def Queues (P : Message → Prop) (r r' : Raft) : Prop :=
  ∃ new, r' = { r with msgs := r.msgs ++ new } ∧ ∀ m ∈ new, P m

/-- The messages a call queued, each satisfying `P`; the other fields are left to the frame lemmas. -/
def Outbox (P : Message → Prop) (r r' : Raft) : Prop :=
  ∃ new, r'.msgs = r.msgs ++ new ∧ ∀ m ∈ new, P m

variable {P Q : Message → Prop}

theorem Queues.refl (r : Raft) : Queues P r r :=
  ⟨[], by simp, by simp⟩

theorem Queues.trans (first : Queues P r₁ r₂) (second : Queues P r₂ r') : Queues P r₁ r' := by
  obtain ⟨new₁, rfl, sent₁⟩ := first
  obtain ⟨new₂, rfl, sent₂⟩ := second
  refine ⟨new₁ ++ new₂, by simp, fun m sent => ?_⟩
  rcases List.mem_append.mp sent with first | second
  exacts [sent₁ m first, sent₂ m second]

theorem Queues.frame (queued : Queues P r r') : ∃ msgs, r' = { r with msgs } := by
  obtain ⟨new, rfl, -⟩ := queued
  exact ⟨_, rfl⟩

theorem Queues.outbox (queued : Queues P r r') : Outbox P r r' := by
  obtain ⟨new, rfl, sent⟩ := queued
  exact ⟨new, rfl, sent⟩

theorem Outbox.refl (r : Raft) : Outbox P r r :=
  ⟨[], by simp, by simp⟩

theorem Outbox.of_msgs_eq (same : r'.msgs = r.msgs) : Outbox P r r' :=
  ⟨[], by simp [same], by simp⟩

theorem Outbox.trans (first : Outbox P r₁ r₂) (second : Outbox P r₂ r') : Outbox P r₁ r' := by
  obtain ⟨new₁, queued₁, sent₁⟩ := first
  obtain ⟨new₂, queued₂, sent₂⟩ := second
  refine ⟨new₁ ++ new₂, by simp [queued₁, queued₂], fun m sent => ?_⟩
  rcases List.mem_append.mp sent with first | second
  exacts [sent₁ m first, sent₂ m second]

theorem Outbox.mono (queued : Outbox P r r') (weaker : ∀ m, P m → Q m) : Outbox Q r r' := by
  obtain ⟨new, queued, sent⟩ := queued
  exact ⟨new, queued, fun m member => weaker m (sent m member)⟩

/--
`send` queues the message stamped with the sender, and with the current term unless it
is a vote message or a proposal; a vote message without a term is fatal.
-/
theorem send_spec {m : Message} (sent : r.send m = .ok r') :
    ∃ m', r' = { r with msgs := r.msgs ++ [m'] } ∧ m'.from = r.id ∧ m'.to = m.to ∧
      m'.msgType = m.msgType ∧ m'.reject = m.reject ∧
      (m.msgType = .msgRequestVote ∨ m.msgType = .msgRequestVoteResponse →
        m'.term = m.term ∧ m.term ≠ 0) ∧
      (m.msgType ≠ .msgRequestVote → m.msgType ≠ .msgRequestVoteResponse →
        m.msgType ≠ .msgPropose → m'.term = r.term) ∧
      m'.index = m.index ∧ m'.logTerm = m.logTerm ∧ m'.entries = m.entries := by
  unfold send at sent
  dsimp only at sent
  split_ifs at sent with vote termless unstamped notPropose <;>
    simp only [throw_ne_ok, pure_eq_ok] at sent <;> subst sent
  · exact ⟨_, rfl, rfl, rfl, rfl, rfl, fun _ => ⟨rfl, termless⟩, fun notRequest notAnswer =>
      absurd vote (by simp [notRequest, notAnswer]), rfl, rfl, rfl⟩
  · exact ⟨_, rfl, rfl, rfl, rfl, rfl, fun isVote => absurd isVote vote, fun _ _ _ => rfl, rfl, rfl, rfl⟩
  · exact ⟨_, rfl, rfl, rfl, rfl, rfl, fun isVote => absurd isVote vote,
      fun _ _ propose => absurd (by simpa using notPropose) propose, rfl, rfl, rfl⟩

theorem send_queues {m : Message} (sent : r.send m = .ok r') : ∃ msgs, r' = { r with msgs } := by
  obtain ⟨_, rfl, -⟩ := send_spec sent
  exact ⟨_, rfl⟩

/-- A message other than a vote answer goes out as `Outgoing`. -/
theorem send_outgoing {m : Message} (sent : r.send m = .ok r')
    (notAnswer : m.msgType ≠ .msgRequestVoteResponse)
    (snapshotReady : m.msgType = .msgSnapshot → ∃ s, r.raftLog.snapshot = .ok s)
    (cut : m.msgType = .msgAppend → ∃ next, m.index = pred64 next ∧
      r.raftLog.term m.index = .ok m.logTerm ∧ r.raftLog.entries next = .ok m.entries) :
    Queues (Outgoing r) r r' := by
  obtain ⟨m', rfl, from', -, type', -, voteTerm, otherTerm, index', logTerm', entries'⟩ := send_spec sent
  refine ⟨[m'], rfl, fun _ member => ?_⟩
  cases List.mem_singleton.mp member
  refine ⟨from', type' ▸ notAnswer, fun request => ?_, fun notRequest notLocal => ?_,
    fun snapshot => snapshotReady (type' ▸ snapshot), fun isAppend => ?_⟩
  · obtain ⟨same, nonzero⟩ := voteTerm (.inl (type' ▸ request))
    rwa [same]
  · refine otherTerm (type' ▸ notRequest) notAnswer fun propose => ?_
    simp [type', propose, MessageType.isLocal] at notLocal
  · obtain ⟨next, index, term, sliced⟩ := cut (type' ▸ isAppend)
    exact ⟨next, [], index'.trans index, by rw [index', logTerm', term],
      by rw [entries', List.append_nil, sliced]⟩

theorem sendAppend_outgoing {target : Nat} {sent : Bool}
    (appended : r.sendAppend target = .ok (r', sent)) : Queues (Outgoing r) r r' := by
  unfold sendAppend at appended
  split at appended
  · split at appended
    · rename_i t ents termOk entriesOk
      obtain ⟨r₁, queued, same⟩ := bind_eq_ok.mp appended
      cases pure_eq_ok.mp same
      exact send_outgoing queued (by simp) (by simp) fun _ => ⟨_, rfl, termOk, entriesOk⟩
    · split at appended
      · cases pure_eq_ok.mp appended
        exact .refl r
      · rename_i snapshot ready
        obtain ⟨r₁, queued, same⟩ := bind_eq_ok.mp appended
        cases pure_eq_ok.mp same
        exact send_outgoing queued (by simp) (fun _ => ⟨snapshot, ready⟩) (by simp)
  · exact absurd appended throw_ne_ok

theorem sendHeartbeat_outgoing {target : Nat} (sent : r.sendHeartbeat target = .ok r') :
    Queues (Outgoing r) r r' := by
  unfold sendHeartbeat at sent
  split at sent
  · exact send_outgoing sent (by simp) (by simp) (by simp)
  · exact absurd sent throw_ne_ok

theorem sendTimeoutNow_outgoing {target : Nat} (sent : r.sendTimeoutNow target = .ok r') :
    Queues (Outgoing r) r r' :=
  send_outgoing sent (by simp) (by simp) (by simp)

/--
A `forEachProgress` whose every call only sends `Outgoing` messages of the node it
started from only sends those.
-/
theorem forEachProgress_outgoing {f : Raft → Nat → Progress → Except Panic Raft}
    (each : ∀ msgs id pr r₂, f { r with msgs } id pr = .ok r₂ → Queues (Outgoing r) { r with msgs } r₂)
    (done : r.forEachProgress f = .ok r') : Queues (Outgoing r) r r' := by
  unfold forEachProgress at done
  suffices loop : ∀ (peers : List (Σ _ : Nat, Progress)) msgs,
      peers.foldlM (fun r' p => f r' p.1 p.2) { r with msgs } = .ok r' →
        Queues (Outgoing r) { r with msgs } r' from
    loop _ r.msgs done
  intro peers
  induction peers with
  | nil =>
      intro msgs done
      cases pure_eq_ok.mp done
      exact .refl _
  | cons peer rest inductionHypothesis =>
      intro msgs done
      obtain ⟨r₁, first, later⟩ := bind_eq_ok.mp done
      have queued := each _ _ _ _ first
      obtain ⟨_, rfl⟩ := queued.frame
      exact queued.trans (inductionHypothesis _ later)

theorem bcastAppend_outgoing (sent : r.bcastAppend = .ok r') : Queues (Outgoing r) r r' := by
  refine forEachProgress_outgoing (fun msgs id _ r₂ step => ?_) sent
  split at step
  · cases pure_eq_ok.mp step
    exact .refl _
  · obtain ⟨⟨r₃, _⟩, appended, rfl⟩ := map_eq_ok.mp step
    exact sendAppend_outgoing appended

theorem bcastHeartbeat_outgoing (sent : r.bcastHeartbeat = .ok r') : Queues (Outgoing r) r r' := by
  refine forEachProgress_outgoing (fun msgs id _ r₂ step => ?_) sent
  split at step
  · cases pure_eq_ok.mp step
    exact .refl _
  · exact sendHeartbeat_outgoing step

theorem requestVotes_outgoing {term : Nat} {ids : List Nat}
    (sent : requestVotes term r ids = .ok r') : Queues (Outgoing r) r r' := by
  induction ids generalizing r with
  | nil =>
      cases pure_eq_ok.mp sent
      exact .refl _
  | cons id rest inductionHypothesis =>
      unfold requestVotes at sent
      split at sent
      · exact inductionHypothesis sent
      · obtain ⟨r₁, first, later⟩ := bind_eq_ok.mp sent
        have queued := send_outgoing first (by simp) (by simp) (by simp)
        obtain ⟨_, rfl⟩ := queued.frame
        exact queued.trans (inductionHypothesis later)

/-! ## Helpers that move the log -/

/-- `maybeCommit` only raises `committed`, onto an entry of the current term it holds. -/
theorem maybeCommit_eq_ok {committed : Bool} (done : r.maybeCommit = .ok (r', committed)) :
    ∃ c, r' = { r with raftLog := { r.raftLog with committed := c } } ∧
      r.raftLog.committed ≤ c ∧
      (r.raftLog.committed < c →
        c ≤ r.raftLog.lastIndex ∧ RaftLog.zeroTermOnRangeErr (r.raftLog.term c) = r.term) := by
  unfold maybeCommit at done
  dsimp only at done
  split at done
  · obtain ⟨⟨raftLog, b⟩, logCommitted, same⟩ := bind_eq_ok.mp done
    cases pure_eq_ok.mp same
    obtain ⟨c, rfl, raised, checked⟩ := RaftLog.maybeCommit_eq_ok logCommitted
    exact ⟨c, rfl, raised, checked⟩
  · exact absurd done throw_ne_ok

theorem maybeCommit_extends {committed : Bool} (done : r.maybeCommit = .ok (r', committed)) :
    r' = { r with raftLog := r'.raftLog } ∧ r.raftLog.Extends r'.raftLog := by
  obtain ⟨c, rfl, raised, checked⟩ := maybeCommit_eq_ok done
  exact ⟨rfl, [], c, by simp, raised, fun moved => by simpa using (checked moved).1⟩

@[simp] theorem stampEntries_length (term index : Nat) (es : List Entry) :
    (stampEntries term index es).length = es.length := by
  induction es generalizing index <;> simp_all [stampEntries]

/-- The `k`-th stamped entry is the `k`-th given one, with the term and the index `index + k`. -/
theorem getElem?_stampEntries (term : Nat) :
    ∀ (index : Nat) (es : List Entry) (k : Nat),
      (stampEntries term index es)[k]? = es[k]?.map fun e => { e with term, index := index + k }
  | _, [], _ => rfl
  | index, e :: es, 0 => by simp [stampEntries]
  | index, e :: es, k + 1 => by
      simp only [stampEntries, List.getElem?_cons_succ, getElem?_stampEntries term (index + 1) es k]
      congr 2
      funext e
      congr 1
      omega

/-- Updating the progress of a peer the map holds keeps its keys. -/
theorem mem_insert_of_getProgress {id : Nat} {pr : Progress} (found : r.getProgress id = some pr)
    (p : Progress) (k : Nat) : k ∈ r.prs.insert id p ↔ k ∈ r.prs := by
  have held : id ∈ r.prs := AList.lookup_isSome.mp (by unfold getProgress at found; simp [found])
  simp only [AList.mem_insert]
  exact ⟨fun | .inl same => same ▸ held | .inr member => member, .inr⟩

/-- `appendEntry` puts the stamped entries after the last one, and may then commit. -/
theorem appendEntry_eq_ok {es : List Entry} (done : r.appendEntry es = .ok r') :
    ∃ c prs, r' = { r with
        raftLog := { r.raftLog with
          ents := r.raftLog.ents ++ stampEntries r.term (r.raftLog.lastIndex + 1) es
          committed := c }
        prs } ∧
      r.raftLog.committed ≤ c ∧ (r.raftLog.committed < c → c ≤ r.raftLog.lastIndex + es.length) ∧
      ∀ id, id ∈ prs ↔ id ∈ r.prs := by
  unfold appendEntry at done
  obtain ⟨raftLog, appended, rest⟩ := bind_eq_ok.mp done
  have shape : raftLog = { r.raftLog with
      ents := r.raftLog.ents ++ stampEntries r.term (r.raftLog.lastIndex + 1) es } := by
    cases es with
    | nil =>
        simp only [stampEntries, RaftLog.append, pure_eq_ok] at appended
        subst appended
        simp only [stampEntries, List.append_nil]
    | cons e es =>
        obtain ⟨rfl, -⟩ := RaftLog.append_eq_ok appended
        simp [stampEntries, RaftLog.lastIndex, RaftLog.firstIndex]
  subst shape
  dsimp only at rest
  split at rest
  · rename_i pr found
    obtain ⟨⟨r₂, b⟩, committed, rfl⟩ := map_eq_ok.mp rest
    obtain ⟨c, rfl, raised, inLog⟩ := maybeCommit_eq_ok committed
    refine ⟨c, _, rfl, raised, fun moved => ?_, mem_insert_of_getProgress found _⟩
    simpa [RaftLog.lastIndex, RaftLog.snapshotIndex, Nat.add_assoc] using (inLog moved).1
  · exact absurd rest throw_ne_ok

/-- `appendEntry` extends the log with entries of the current term, each at its own index. -/
theorem appendEntry_stamped {es : List Entry} (done : r.appendEntry es = .ok r') :
    r' = { r with raftLog := r'.raftLog, prs := r'.prs } ∧ r.raftLog.Stamped r.term r'.raftLog ∧
      ∀ id, id ∈ r'.prs ↔ id ∈ r.prs := by
  obtain ⟨c, prs, rfl, raised, inLog, samePeers⟩ := appendEntry_eq_ok done
  refine ⟨rfl, ⟨⟨_, c, rfl, raised, fun moved => by simpa using inLog moved⟩, fun i e past held => ?_⟩,
    samePeers⟩
  simp only [RaftLog.entryAt, RaftLog.lastIndex, RaftLog.firstIndex, RaftLog.snapshotIndex] at past held
  rw [if_pos (by omega), List.getElem?_append_right (by omega), getElem?_stampEntries] at held
  obtain ⟨x, -, rfl⟩ := Option.map_eq_some'.mp held
  exact ⟨rfl, by simp only; omega⟩

/-- `becomeLeader` takes the leader role in the same term and stamps its own log. -/
theorem becomeLeader_eq_ok (done : r.becomeLeader = .ok r') :
    r'.term = r.term ∧ r'.vote = r.vote ∧ r'.state = .stateLeader ∧ r'.lead = r.id ∧
      r'.id = r.id ∧ r'.msgs = r.msgs ∧ r.raftLog.Stamped r.term r'.raftLog ∧
      ∀ id, id ∈ r'.prs ↔ id ∈ r.prs := by
  obtain ⟨frame, stamped, samePeers⟩ := appendEntry_stamped done
  rw [frame] at stamped ⊢
  exact ⟨by simp, by simp, rfl, rfl, by simp, by simp, by simpa using stamped,
    fun id => (samePeers id).trans (by simp)⟩

/-- `poll` records at most one answer and changes nothing but the votes. -/
theorem poll_eq (r : Raft) (id : Nat) (v : Bool) :
    (r.poll id v).1 = { r with votes := if id ∈ r.votes then r.votes else r.votes.insert id v } :=
  rfl

/--
`campaign` moves to the next term with a vote for self, as candidate or, when its own
vote is a quorum, as leader; only the leader's empty entry can extend the log.
-/
theorem campaign_eq_ok (done : r.campaign = .ok r') :
    r.state ≠ .stateLeader ∧ r'.term = r.term + 1 ∧ r'.vote = r.id ∧ r'.id = r.id ∧
      r.raftLog.Extends r'.raftLog ∧
      (r'.state = .stateCandidate ∨ (r'.state = .stateLeader ∧ r'.lead = r.id)) := by
  unfold campaign at done
  obtain ⟨r₁, became, rest⟩ := bind_eq_ok.mp done
  obtain ⟨notLeader, term₁, vote₁, state₁, log₁, id₁, -⟩ := becomeCandidate_eq_ok became
  dsimp only at rest
  split_ifs at rest
  · obtain ⟨term', vote', state', lead', id', -, extended, -⟩ := becomeLeader_eq_ok rest
    exact ⟨notLeader, term'.trans term₁, vote'.trans vote₁, id'.trans id₁, log₁ ▸ extended.1,
      .inr ⟨state', lead'.trans id₁⟩⟩
  · obtain ⟨_, rfl⟩ := (requestVotes_outgoing rest).frame
    exact ⟨notLeader, term₁, vote₁, id₁, log₁ ▸ RaftLog.Extends.refl _, .inl state₁⟩

/-- `setProgress`, and so `restoreNode` and `addNode`, change only the peer map. -/
theorem setProgress_eq (r : Raft) (id «match» next : Nat) :
    ∃ prs, r.setProgress id «match» next = { r with prs } :=
  ⟨_, rfl⟩

theorem restoreNode_eq (r : Raft) (nodes : List Nat) : ∃ prs, r.restoreNode nodes = { r with prs } := by
  induction nodes generalizing r with
  | nil => exact ⟨_, rfl⟩
  | cons n nodes inductionHypothesis =>
      obtain ⟨prs, restored⟩ := inductionHypothesis (r.setProgress n _ _)
      exact ⟨prs, restored⟩

theorem addNode_eq (r : Raft) (id : Nat) : ∃ prs, r.addNode id = { r with prs } := by
  unfold addNode
  split
  · exact ⟨_, rfl⟩
  · exact ⟨_, rfl⟩

/-- `removeNode` changes the peer map, may commit and broadcast, and may abort a transfer. -/
theorem removeNode_eq_ok {id : Nat} (done : r.removeNode id = .ok r') :
    ∃ raftLog prs msgs leadTransferee,
      r' = { r with raftLog, prs, msgs, leadTransferee } ∧ r.raftLog.Extends raftLog ∧
        raftLog.ents = r.raftLog.ents := by
  unfold removeNode at done
  dsimp only at done
  split_ifs at done with empty
  · cases pure_eq_ok.mp done
    exact ⟨_, _, _, _, rfl, RaftLog.Extends.refl _, rfl⟩
  · simp only [pure_bind] at done
    obtain ⟨⟨r₁, committed⟩, maybeCommitted, rest⟩ := bind_eq_ok.mp done
    obtain ⟨frame₁, extended⟩ := maybeCommit_extends maybeCommitted
    obtain ⟨c, committedShape, -⟩ := maybeCommit_eq_ok maybeCommitted
    rw [frame₁] at extended
    have queued : ∃ msgs r₂, r₂ = { r₁ with msgs } ∧
        (if r₂.state = .stateLeader ∧ r₂.leadTransferee = id then pure r₂.abortLeaderTransfer
          else pure r₂ : Except Panic Raft) = .ok r' := by
      split at rest
      · obtain ⟨r₂, broadcast, rest⟩ := bind_eq_ok.mp rest
        obtain ⟨msgs, rfl⟩ := (bcastAppend_outgoing broadcast).frame
        exact ⟨msgs, _, rfl, rest⟩
      · exact ⟨r₁.msgs, r₁, rfl, rest⟩
    obtain ⟨msgs, r₂, rfl, rest⟩ := queued
    split_ifs at rest <;> simp only [abortLeaderTransfer, pure_eq_ok] at rest <;> subst rest <;>
      exact ⟨_, _, _, _, by rw [frame₁], by simpa using extended, by simp [committedShape]⟩

/-! ## Follower-side handlers -/

/--
`handleAppendEntries` moves only the log and sends one answer; the log moves only
through a `maybeAppend` at an index at or past `committed`.
-/
theorem handleAppendEntries_eq_ok {m : Message} (done : r.handleAppendEntries m = .ok r') :
    ∃ raftLog, Queues (Outgoing { r with raftLog }) { r with raftLog } r' ∧
      (raftLog = r.raftLog ∨
        r.raftLog.committed ≤ m.index ∧
          ∃ lastnewi, r.raftLog.maybeAppend m.index m.logTerm m.commit m.entries =
            .ok (some (raftLog, lastnewi))) := by
  unfold handleAppendEntries at done
  split_ifs at done with stale
  · exact ⟨_, send_outgoing (by simpa using done) (by simp) (by simp) (by simp), .inl rfl⟩
  · simp only [pure_bind] at done
    obtain ⟨result, appended, rest⟩ := bind_eq_ok.mp done
    split at rest
    · exact ⟨_, send_outgoing rest (by simp) (by simp) (by simp),
        .inr ⟨Nat.le_of_not_lt stale, _, appended⟩⟩
    · exact ⟨_, send_outgoing rest (by simp) (by simp) (by simp), .inl rfl⟩

/-- `handleHeartbeat` commits to the attached index and answers. -/
theorem handleHeartbeat_eq_ok {m : Message} (done : r.handleHeartbeat m = .ok r') :
    ∃ raftLog, Queues (Outgoing { r with raftLog }) { r with raftLog } r' ∧
      r.raftLog.commitTo m.commit = .ok raftLog := by
  unfold handleHeartbeat at done
  obtain ⟨raftLog, committedTo, rest⟩ := bind_eq_ok.mp done
  exact ⟨_, send_outgoing rest (by simp) (by simp) (by simp), committedTo⟩

/--
`restore` either leaves the log alone, or fast-forwards its commit, or, for a snapshot
past `committed` that the log does not match, stands the log on the snapshot and
rebuilds the peer map.
-/
theorem restore_eq_ok {s : Snapshot} {restored : Bool} (done : r.restore s = .ok (r', restored)) :
    (restored = false ∧ ∃ raftLog, r' = { r with raftLog } ∧
        (raftLog = r.raftLog ∨ r.raftLog.commitTo s.metadata.index = .ok raftLog)) ∨
      (restored = true ∧ r.raftLog.committed < s.metadata.index ∧
        ∃ prs, r' = { r with raftLog := r.raftLog.restore s, prs }) := by
  unfold restore at done
  simp only [pure_bind] at done
  split_ifs at done with stale matched
  · cases pure_eq_ok.mp done
    exact .inl ⟨rfl, _, rfl, .inl rfl⟩
  · obtain ⟨raftLog, committedTo, rest⟩ := bind_eq_ok.mp done
    cases pure_eq_ok.mp rest
    exact .inl ⟨rfl, _, rfl, .inr committedTo⟩
  · cases pure_eq_ok.mp done
    obtain ⟨prs, restoredNodes⟩ := restoreNode_eq { r with raftLog := r.raftLog.restore s, prs := ∅ }
      s.metadata.confState.nodes
    exact .inr ⟨rfl, Nat.lt_of_not_le stale, prs, restoredNodes⟩

/-- `handleSnapshot` restores the snapshot it carries and answers. -/
theorem handleSnapshot_eq_ok {m : Message} (done : r.handleSnapshot m = .ok r') :
    ∃ s r₁ restored, m.snapshot = some s ∧ r.restore s = .ok (r₁, restored) ∧
      Queues (Outgoing r₁) r₁ r' := by
  unfold handleSnapshot at done
  split at done
  · rename_i s carried
    obtain ⟨⟨r₁, restored⟩, restoredOk, rest⟩ := bind_eq_ok.mp done
    refine ⟨s, r₁, restored, carried, restoredOk, ?_⟩
    dsimp only at rest
    split at rest <;> exact send_outgoing rest (by simp) (by simp) (by simp)
  · exact absurd done throw_ne_ok

end Raft

end TinyKVRaft
