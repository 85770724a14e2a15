import TinyKVRaft.TermVote

namespace TinyKVRaft

/-!
# The committed prefix is stable

A log that keeps `applied ≤ committed ≤ lastIndex` keeps it across every `Step` and
`tick` that returns, `committed` never goes back, and every entry up to it stays as it
was, unless the node restored a snapshot past it.  The only place `raft.go` can cut a
log is `maybeAppend` on a `MsgAppend`; `handleAppendEntries` answers a stale `Index`
before that, and entries numbered on from `Index`, as `sendAppend` builds them, never
conflict at or below `committed`, so the fatal branch of `maybeAppend` is unreachable.
-/

namespace RaftLog

variable {l l' : RaftLog}

/-- The bounds of spec §4.1: `applied ≤ committed ≤ lastIndex`. -/
def Bounded (l : RaftLog) : Prop :=
  l.applied ≤ l.committed ∧ l.committed ≤ l.lastIndex

instance : DecidablePred Bounded :=
  fun l => inferInstanceAs (Decidable (l.applied ≤ l.committed ∧ l.committed ≤ l.lastIndex))

/--
What a step may do to a log: `committed` does not go back and the bounds hold, and
every entry up to the old `committed` stays as it was, unless the log now stands on a
snapshot past the old `committed`.
-/
def KeepsCommitted (l l' : RaftLog) : Prop :=
  l.committed ≤ l'.committed ∧ l'.Bounded ∧
    ((∀ i ≤ l.committed, l'.entryAt i = l.entryAt i) ∨
      ∃ s : Snapshot, l.committed < s.metadata.index ∧ l' = l.restore s)

theorem KeepsCommitted.refl (bounded : l.Bounded) : KeepsCommitted l l :=
  ⟨le_rfl, bounded, .inl fun _ _ => rfl⟩

/-- Appending and committing within the log keep the committed prefix. -/
theorem Extends.keepsCommitted (extended : l.Extends l') (bounded : l.Bounded) :
    KeepsCommitted l l' := by
  have raised : l.committed ≤ l'.committed ∧ l'.applied = l.applied := by
    obtain ⟨_, _, rfl, raised, -⟩ := extended
    exact ⟨raised, rfl⟩
  exact ⟨raised.1, ⟨raised.2 ▸ bounded.1.trans raised.1, extended.committed_le_lastIndex bounded.2⟩,
    .inl fun _ below => extended.entryAt_eq (below.trans bounded.2)⟩

/-- Standing on a snapshot past `committed` keeps the bounds. -/
theorem restore_keepsCommitted {s : Snapshot} (bounded : l.Bounded)
    (past : l.committed < s.metadata.index) : KeepsCommitted l (l.restore s) :=
  ⟨past.le, ⟨bounded.1.trans past.le, by simp [restore, lastIndex, snapshotIndex]⟩, .inr ⟨s, past, rfl⟩⟩

/-- After `append`, the log ends at the last new entry. -/
theorem append_lastIndex {e : Entry} {rest : List Entry} (appended : l.append (e :: rest) = .ok l') :
    l'.lastIndex = e.index + rest.length := by
  obtain ⟨rfl, -, past, within⟩ := append_eq_ok appended
  simp only [lastIndex, snapshotIndex, firstIndex, List.length_append, List.length_take,
    List.length_cons] at past within ⊢
  omega

/-- `append` keeps every entry before the first new one. -/
theorem append_entryAt_of_lt {e : Entry} {rest : List Entry} (appended : l.append (e :: rest) = .ok l')
    {i : Nat} (before : i < e.index) : l'.entryAt i = l.entryAt i := by
  obtain ⟨rfl, -, past, within⟩ := append_eq_ok appended
  simp only [entryAt, snapshotIndex, firstIndex, lastIndex] at past within ⊢
  split_ifs with held
  · rw [List.getElem?_append_left (by simp only [List.length_take]; omega),
      List.getElem?_take_of_lt (by omega)]
  · rfl

/--
A successful `maybeAppend` cuts the log, if at all, past `committed`, and raises
`committed` only within the new log: it keeps the committed prefix.
-/
theorem maybeAppend_keepsCommitted {index logTerm committed lastnewi : Nat} {ents : List Entry}
    (bounded : l.Bounded)
    (appended : l.maybeAppend index logTerm committed ents = .ok (some (l', lastnewi))) :
    KeepsCommitted l l' := by
  unfold maybeAppend at appended
  simp only [pure_bind, throw_bind] at appended
  split at appended
  · simp at appended
  -- whatever the cut, it left every entry up to `committed` and the log still reaches it
  have committedWithin : ∀ ents₁ : List Entry,
      (∀ i ≤ l.committed, ({ l with ents := ents₁ } : RaftLog).entryAt i = l.entryAt i) →
      l.committed ≤ ({ l with ents := ents₁ } : RaftLog).lastIndex →
      (do
        let log ← ({ l with ents := ents₁ } : RaftLog).commitTo (min committed (index + ents.length))
        pure (some (log, index + ents.length)) : Except Panic _) = .ok (some (l', lastnewi)) →
      KeepsCommitted l l' := by
    intro ents₁ kept within done
    obtain ⟨l₂, committedTo, rest⟩ := bind_eq_ok.mp done
    cases pure_eq_ok.mp rest
    obtain ⟨rfl, inRange⟩ := commitTo_eq_ok committedTo
    simp only [lastIndex, snapshotIndex] at within inRange
    refine ⟨le_max_left _ _, ⟨bounded.1.trans (le_max_left _ _), ?_⟩, .inl fun i below => kept i below⟩
    simp only [lastIndex, snapshotIndex]
    omega
  split_ifs at appended with noConflict withinCommitted outOfBounds
  · exact committedWithin l.ents (fun _ _ => rfl) bounded.2 appended
  · obtain ⟨l₁, truncated, rest⟩ := bind_eq_ok.mp appended
    cases dropped : ents.drop (l.findConflict ents - (index + 1)) with
    | nil =>
        simp only [dropped, append, pure_eq_ok] at truncated
        subst truncated
        exact committedWithin l.ents (fun _ _ => rfl) bounded.2 rest
    | cons e rest' =>
        rw [dropped] at truncated
        obtain ⟨frame, past, -, -⟩ := append_eq_ok truncated
        have within := append_lastIndex truncated
        subst frame
        exact committedWithin _ (fun i below => append_entryAt_of_lt truncated (by omega))
          (by omega) rest

/-- `findConflict` answers 0 or the index of one of the entries it was given. -/
theorem findConflict_eq_zero_or_mem (l : RaftLog) (ents : List Entry) :
    l.findConflict ents = 0 ∨ ∃ e ∈ ents, l.findConflict ents = e.index := by
  induction ents with
  | nil => exact .inl rfl
  | cons e rest inductionHypothesis =>
      simp only [findConflict]
      split_ifs
      · rcases inductionHypothesis with zero | ⟨e', member, found⟩
        · exact .inl zero
        · exact .inr ⟨e', .tail _ member, found⟩
      · exact .inr ⟨e, .head _, rfl⟩

theorem append_ne_conflictWithCommitted {es : List Entry} {ci c : Nat} :
    l.append es ≠ .error (.conflictWithCommitted ci c) := by
  cases es with
  | nil => exact pure_ne_error
  | cons e rest =>
      simp only [append]
      split_ifs <;> simp

theorem commitTo_ne_conflictWithCommitted {tocommit ci c : Nat} :
    l.commitTo tocommit ≠ .error (.conflictWithCommitted ci c) := by
  unfold commitTo
  split_ifs <;> simp

/--
When the entries are numbered on from `index + 1` and `index` is at or past `committed`,
a conflict `findConflict` reports is past `committed`: `maybeAppend` never panics with
a conflict at a committed entry.
-/
theorem maybeAppend_ne_conflictWithCommitted {index logTerm committed ci c : Nat}
    {ents : List Entry} (consecutive : ents.map (·.index) = List.range' (index + 1) ents.length)
    (atOrPast : l.committed ≤ index) :
    l.maybeAppend index logTerm committed ents ≠ .error (.conflictWithCommitted ci c) := by
  have pastCommitted : l.findConflict ents = 0 ∨ l.committed < l.findConflict ents := by
    rcases findConflict_eq_zero_or_mem l ents with zero | ⟨e, member, found⟩
    · exact .inl zero
    · have numbered : e.index ∈ List.range' (index + 1) ents.length :=
        consecutive ▸ List.mem_map_of_mem _ member
      rw [List.mem_range'_1] at numbered
      exact .inr (by omega)
  intro thrown
  unfold maybeAppend at thrown
  simp only [pure_bind, throw_bind] at thrown
  split at thrown
  · exact pure_ne_error thrown
  split_ifs at thrown with noConflict withinCommitted outOfBounds
  · rcases bind_eq_error.mp thrown with commitThrown | ⟨_, -, rest⟩
    · exact commitTo_ne_conflictWithCommitted commitThrown
    · exact pure_ne_error rest
  · omega
  · simp at thrown
  · rcases bind_eq_error.mp thrown with appendThrown | ⟨l₁, -, rest⟩
    · exact append_ne_conflictWithCommitted appendThrown
    rcases bind_eq_error.mp rest with commitThrown | ⟨_, -, rest⟩
    · exact commitTo_ne_conflictWithCommitted commitThrown
    · exact pure_ne_error rest

end RaftLog

open RaftLog

namespace Raft

variable {r r' r₁ : Raft} {m : Message} {e : Option StepError}

theorem handleAppendEntries_keepsCommitted (bounded : r.raftLog.Bounded)
    (done : r.handleAppendEntries m = .ok r') : KeepsCommitted r.raftLog r'.raftLog := by
  obtain ⟨raftLog, queued, rfl | ⟨-, lastnewi, appended⟩⟩ := handleAppendEntries_eq_ok done <;>
    obtain ⟨msgs, rfl⟩ := queued.frame
  · exact .refl bounded
  · exact maybeAppend_keepsCommitted bounded appended

theorem handleSnapshot_keepsCommitted (bounded : r.raftLog.Bounded)
    (done : r.handleSnapshot m = .ok r') : KeepsCommitted r.raftLog r'.raftLog := by
  obtain ⟨s, r₁, restored, -, restoredOk, queued⟩ := handleSnapshot_eq_ok done
  obtain ⟨msgs, rfl⟩ := queued.frame
  rcases restore_eq_ok restoredOk with ⟨-, raftLog, rfl, rfl | committedTo⟩ | ⟨-, past, prs, rfl⟩
  · exact .refl bounded
  · exact (commitTo_extends committedTo).keepsCommitted bounded
  · exact restore_keepsCommitted bounded past

theorem Handles.keepsCommitted (handled : Handles r m r') (bounded : r.raftLog.Bounded) :
    KeepsCommitted r.raftLog r'.raftLog := by
  rcases handled with ⟨-, handled⟩ | ⟨-, handled⟩ | ⟨-, handled⟩
  · exact handleAppendEntries_keepsCommitted bounded handled
  · obtain ⟨raftLog, queued, committedTo⟩ := handleHeartbeat_eq_ok handled
    obtain ⟨msgs, rfl⟩ := queued.frame
    exact (commitTo_extends committedTo).keepsCommitted bounded
  · exact handleSnapshot_keepsCommitted bounded handled

theorem stepTerm_raftLog (gated : r.stepTerm m = some r₁) : r₁.raftLog = r.raftLog := by
  rcases stepTerm_cases gated with ⟨rfl, -⟩ | ⟨-, rfl | rfl⟩ <;> simp

theorem stepFollower_keepsCommitted (bounded : r.raftLog.Bounded)
    (done : r.stepFollower m = .ok (r', e)) : KeepsCommitted r.raftLog r'.raftLog := by
  rcases stepFollower_cases done with rfl | ⟨-, sent⟩ | handled | ⟨-, -, campaigned⟩
  · exact .refl bounded
  · obtain ⟨msgs, rfl⟩ := send_queues sent
    exact .refl bounded
  · exact handled.keepsCommitted bounded
  · exact (campaign_eq_ok campaigned).2.2.2.2.1.keepsCommitted bounded

theorem stepCandidate_keepsCommitted (bounded : r.raftLog.Bounded)
    (done : r.stepCandidate m = .ok (r', e)) : KeepsCommitted r.raftLog r'.raftLog := by
  rcases stepCandidate_cases done with rfl | handled | ⟨-, ⟨-, r₁, became, sent⟩ | rfl | rfl⟩
  · exact .refl bounded
  · simpa using handled.keepsCommitted (by simpa using bounded)
  · obtain ⟨-, -, -, -, -, -, stamped, -⟩ := becomeLeader_eq_ok became
    obtain ⟨msgs, rfl⟩ := (bcastAppend_outgoing sent).frame
    exact stamped.1.keepsCommitted bounded
  · simpa [poll] using KeepsCommitted.refl bounded
  · exact .refl bounded

/-- Every branch of `Step` keeps the committed prefix of a bounded log. -/
theorem step_keepsCommitted (done : r.step m = .ok (r', e)) (bounded : r.raftLog.Bounded) :
    KeepsCommitted r.raftLog r'.raftLog := by
  rcases step_cases done with ⟨-, rfl⟩ | ⟨r₁, gated, branch⟩
  · exact .refl bounded
  rw [← stepTerm_raftLog gated] at bounded ⊢
  rcases branch with ⟨-, rfl | ⟨-, -, campaigned⟩⟩ | ⟨-, ⟨-, -, r₂, sent, rfl⟩ | sent⟩ |
      ⟨-, stepped⟩ | ⟨-, stepped⟩ | ⟨-, stepped⟩
  · exact .refl bounded
  · exact (campaign_eq_ok campaigned).2.2.2.2.1.keepsCommitted bounded
  all_goals try (obtain ⟨msgs, rfl⟩ := send_queues sent; exact .refl bounded)
  · exact stepFollower_keepsCommitted bounded stepped
  · exact stepCandidate_keepsCommitted bounded stepped
  · exact (stepLeader_frame stepped).extends_raftLog.keepsCommitted bounded

theorem tick_keepsCommitted (bounded : r.raftLog.Bounded) (done : r.tick = .ok r') :
    KeepsCommitted r.raftLog r'.raftLog := by
  cases state : r.state
  case stateLeader => exact (tick_leaderFrame state done).extends_raftLog.keepsCommitted bounded
  all_goals
    simp only [tick, state] at done
    rcases tickElection_cases done with rfl | ⟨e, -, stepped⟩
    · exact .refl bounded
    · exact (step_keepsCommitted stepped bounded :)

theorem send_ne_conflictWithCommitted {ci c : Nat} :
    r.send m ≠ .error (.conflictWithCommitted ci c) := by
  unfold send
  dsimp only
  split_ifs <;> simp

/-- `handleAppendEntries` never meets the fatal branch of `maybeAppend`. -/
theorem handleAppendEntries_ne_conflictWithCommitted {ci c : Nat}
    (consecutive : m.entries.map (·.index) = List.range' (m.index + 1) m.entries.length) :
    r.handleAppendEntries m ≠ .error (.conflictWithCommitted ci c) := by
  intro thrown
  unfold handleAppendEntries at thrown
  simp only [pure_bind, bind_pure] at thrown
  split at thrown
  · exact send_ne_conflictWithCommitted thrown
  rcases bind_eq_error.mp thrown with appendThrown | ⟨result, -, rest⟩
  · exact maybeAppend_ne_conflictWithCommitted consecutive (by omega) appendThrown
  · split at rest <;> exact send_ne_conflictWithCommitted rest

/--
On a log with `applied ≤ committed ≤ lastIndex`, a `Step` or `tick` that returns keeps
`committed` from going back and the bounds, and keeps every entry up to the old
`committed`, unless it restored a snapshot past it; and on entries numbered on from
`Index`, `handleAppendEntries` never reaches the fatal conflict of `maybeAppend`.
-/
theorem step_tick_keep_committed_prefix :
    (∀ (r r' : Raft) (m : Message) (e : Option StepError), r.raftLog.Bounded →
        r.step m = .ok (r', e) → KeepsCommitted r.raftLog r'.raftLog) ∧
      (∀ r r' : Raft, r.raftLog.Bounded → r.tick = .ok r' → KeepsCommitted r.raftLog r'.raftLog) ∧
      ∀ (r : Raft) (m : Message) (ci c : Nat),
        m.entries.map (·.index) = List.range' (m.index + 1) m.entries.length →
        r.handleAppendEntries m ≠ .error (.conflictWithCommitted ci c) :=
  ⟨fun _ _ _ _ bounded done => step_keepsCommitted done bounded,
    fun _ _ bounded done => tick_keepsCommitted bounded done,
    fun _ _ _ _ consecutive => handleAppendEntries_ne_conflictWithCommitted consecutive⟩

/--
The follower of term 1 takes `(1, 2)` from leader 1 with commit 2, and ticks: both keep
its committed prefix, and the append cannot meet the fatal conflict.
-/
theorem threeNodeFollower_appends :
    ∃ r' e r'', threeNodeFollower.step
        { msgType := .msgAppend, «from» := 1, term := 1, index := 1, logTerm := 1
          entries := [{ term := 1, index := 2 }], commit := 2 } = .ok (r', e) ∧
      r'.raftLog.committed = 2 ∧ KeepsCommitted threeNodeFollower.raftLog r'.raftLog ∧
      threeNodeFollower.tick = .ok r'' ∧ KeepsCommitted threeNodeFollower.raftLog r''.raftLog ∧
      ∀ ci c, threeNodeFollower.handleAppendEntries
        { msgType := .msgAppend, «from» := 1, term := 1, index := 1, logTerm := 1
          entries := [{ term := 1, index := 2 }], commit := 2 } ≠ .error (.conflictWithCommitted ci c) := by
  obtain ⟨⟨r', e⟩, stepped⟩ : ∃ p, threeNodeFollower.step
      { msgType := .msgAppend, «from» := 1, term := 1, index := 1, logTerm := 1
        entries := [{ term := 1, index := 2 }], commit := 2 } = .ok p :=
    ⟨_, rfl⟩
  obtain ⟨r'', ticked⟩ : ∃ r'', threeNodeFollower.tick = .ok r'' := ⟨_, rfl⟩
  have committed : r'.raftLog.committed = 2 := by
    cases stepped
    rfl
  have bounded : threeNodeFollower.raftLog.Bounded := by decide
  exact ⟨r', e, r'', stepped, committed,
    step_tick_keep_committed_prefix.1 _ _ _ _ bounded stepped, ticked,
    step_tick_keep_committed_prefix.2.1 _ _ bounded ticked,
    fun ci c => step_tick_keep_committed_prefix.2.2 _ _ ci c (by decide)⟩

end Raft

end TinyKVRaft
