import TinyKVRaft.Step

namespace TinyKVRaft

/-!
# Bounds on replication progress

The design asks every progress to keep `1 ≤ Next` and `Match < Next`.  The constructors
of progress establish both: `reset` (which `newRaft`, through `becomeFollower`, and every
change of role apply), `addNode` and `restoreNode`.  `1 ≤ Next` then survives every
update, so `sendAppend`'s `Next − 1` never wraps.  `Match < Next` does not:
`maybeUpdate` loses it when `n + 1` wraps to `0`, and `maybeDecrTo` takes `Next` from
the rejection's hint without comparing it with `Match`.  A rejection that arrives after a
later acknowledgement, which a network that duplicates messages delivers, therefore moves
`Next` to or below `Match`, and the leader's next probe starts below an index it already
knows to match.
-/

namespace Progress

/-- The design's invariant of one progress. -/
def Valid (pr : Progress) : Prop :=
  1 ≤ pr.next ∧ pr.match < pr.next

instance (pr : Progress) : Decidable pr.Valid :=
  inferInstanceAs (Decidable (_ ∧ _))

variable {pr : Progress}

/-- `maybeUpdate` never lowers `Next`. -/
theorem next_le_maybeUpdate (pr : Progress) (n : Nat) : pr.next ≤ (pr.maybeUpdate n).1.next := by
  simp only [maybeUpdate]
  split <;> omega

/-- `maybeDecrTo` leaves `Next` at least `1`. -/
theorem maybeDecrTo_next_pos (pos : 1 ≤ pr.next) (rejected last : Nat) :
    1 ≤ (pr.maybeDecrTo rejected last).1.next := by
  unfold maybeDecrTo
  split
  · exact pos
  · dsimp only
    split <;> omega

/-- Unless `n + 1` wraps, `maybeUpdate` keeps the invariant. -/
theorem maybeUpdate_valid (valid : pr.Valid) {n : Nat} (noWrap : n + 1 < 2 ^ 64) :
    (pr.maybeUpdate n).1.Valid := by
  have succ : succ64 n = n + 1 := Nat.mod_eq_of_lt noWrap
  simp only [Valid, maybeUpdate, succ] at valid ⊢
  split <;> split <;> omega

/--
`maybeDecrTo` keeps the invariant exactly when the rejection is stale or the hint's
successor `last + 1` (in `uint64`) lies above `Match`; nothing in it compares the hint
with `Match`.
-/
theorem maybeDecrTo_valid_iff (valid : pr.Valid) (rejected last : Nat) :
    (pr.maybeDecrTo rejected last).1.Valid ↔
      rejected ≤ pr.match ∨ pr.match < max 1 (succ64 last) := by
  unfold maybeDecrTo Valid at *
  split
  · exact iff_of_true valid (.inl ‹_›)
  · dsimp only
    split <;> omega

end Progress

/-- Every progress of a peer map keeps the invariant. -/
def ValidPrs (prs : ProgressMap) : Prop :=
  ∀ p ∈ prs.entries, p.2.Valid

section ValidPrs

variable {prs : ProgressMap}

theorem ValidPrs.insert (valid : ValidPrs prs) {pr : Progress} (pv : pr.Valid) (id : Nat) :
    ValidPrs (prs.insert id pr) := by
  intro p mem
  rw [AList.insert_entries, List.mem_cons] at mem
  rcases mem with rfl | mem
  · exact pv
  · exact valid p ((List.kerase_sublist _ _).subset mem)

theorem ValidPrs.erase (valid : ValidPrs prs) (id : Nat) : ValidPrs (prs.erase id) :=
  fun p mem => valid p ((List.kerase_sublist _ _).subset mem)

/-- `reset` gives every peer `Next = LastIndex + 1`, and `Match` 0 or `LastIndex` for self. -/
theorem resetProgress_valid (id lastIndex : Nat) (prs : ProgressMap) :
    ValidPrs (Raft.resetProgress id lastIndex prs) := by
  intro p mem
  obtain ⟨q, -, rfl⟩ := List.mem_map.mp mem
  dsimp only
  split <;> exact ⟨by simp, by simp⟩

end ValidPrs

namespace Raft

variable {r : Raft}

theorem setProgress_valid (valid : ValidPrs r.prs) (id : Nat) {«match» next : Nat}
    (below : «match» < next) : ValidPrs (r.setProgress id «match» next).prs :=
  valid.insert ⟨Nat.one_le_of_lt below, below⟩ id

theorem addNode_valid (valid : ValidPrs r.prs) (id : Nat) : ValidPrs (r.addNode id).prs := by
  unfold addNode
  split
  · exact setProgress_valid valid id (by omega)
  · exact valid

theorem restoreNode_valid : ∀ {r : Raft} (nodes : List Nat), ValidPrs r.prs →
    ValidPrs (r.restoreNode nodes).prs
  | _, [], valid => valid
  | r, n :: nodes, valid => by
      have kept : ValidPrs (r.setProgress n (if n = r.id then r.raftLog.lastIndex + 1 - 1 else 0)
          (r.raftLog.lastIndex + 1)).prs :=
        setProgress_valid valid n (by split <;> omega)
      exact restoreNode_valid nodes kept

/--
Leader 2 of term 2 over `{1, 2, 3}`, elected with `[(1, 1), (2, 1)]` and committed 1,
with its empty entry at index 3.  Follower 3 rejected the first probe at index 2 (its
log was empty, hint 0), was then sent the whole log, and the answer to a duplicate of
that append, below its commit index, told the leader `Match = 1`.
-/
def lateRejectLeader : Raft where
  id := 2
  term := 2
  vote := 2
  raftLog :=
    { ents := [{ term := 1, index := 1 }, { term := 1, index := 2 }, { term := 2, index := 3 }]
      committed := 1 }
  prs := ((∅ : ProgressMap).insert 3 { «match» := 1, next := 2 }).insert 1 { next := 4 }
    |>.insert 2 { «match» := 3, next := 4 }
  state := .stateLeader
  lead := 2
  heartbeatTimeout := 1
  electionTimeout := 10
  id_ne_none := by decide
  heartbeatTimeout_pos := by decide
  heartbeat_lt_election := by decide

/--
The progress updates break `Match < Next` on inputs of every kind the design allows: a
rejection of index 7 with hint 2 moves `(Match 5, Next 6)` to `Next 3`, and an
acknowledgement of `2⁶⁴ − 1` moves `Match` past a `Next` left at 1.  In a leader, a
second copy of follower 3's rejection, delivered after `Match = 1`, sets `Next` to 1,
and the probe it sends restarts at index 0, below the index known to match.
-/
theorem lateRejection_probes_below_match :
    ({ «match» := 5, next := 6 } : Progress).maybeDecrTo 7 2 = ({ «match» := 5, next := 3 }, true) ∧
      ({ «match» := 0, next := 1 } : Progress).maybeUpdate (2 ^ 64 - 1) =
        ({ «match» := 2 ^ 64 - 1, next := 1 }, true) ∧
      lateRejectLeader.getProgress 3 = some { «match» := 1, next := 2 } ∧
      ∃ r', lateRejectLeader.step
          { msgType := .msgAppendResponse, «from» := 3, «to» := 2, term := 2, reject := true
            index := 2, rejectHint := 0 } = .ok (r', none) ∧
        r'.getProgress 3 = some { «match» := 1, next := 1 } ∧
        ¬ ({ «match» := 1, next := 1 } : Progress).Valid ∧
        r'.msgs.map (fun m => (m.msgType, m.to, m.index)) = [(.msgAppend, 3, 0)] := by
  obtain ⟨r', stepped⟩ : ∃ r', lateRejectLeader.step
      { msgType := .msgAppendResponse, «from» := 3, «to» := 2, term := 2, reject := true
        index := 2, rejectHint := 0 } = .ok (r', none) := ⟨_, rfl⟩
  refine ⟨rfl, rfl, rfl, r', stepped, ?_, by decide, ?_⟩ <;> cases stepped <;> rfl

end Raft

end TinyKVRaft
