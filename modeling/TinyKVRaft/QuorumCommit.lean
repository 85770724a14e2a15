import TinyKVRaft.Step

namespace TinyKVRaft

/-!
# Commit advancement

`Raft.maybeCommit` sorts the `Match` of every peer and reads position `len − quorum`.
This module shows that the value read there is the quorum-replicated index: the
largest `v` that at least a quorum of `Match` values reach.  The characterization is
by counting, so it does not depend on the order the peer map is iterated in, and it
covers every caller, `removeNode` after the quorum shrank included.
-/

/-- In a sorted list, `v ≤ l[k]` exactly when at least `length − k` elements reach `v`. -/
theorem le_getElem_iff_countP_of_sorted {l : List Nat} (sorted : l.Sorted (· ≤ ·)) (v : Nat) :
    ∀ (k : Nat) (inRange : k < l.length),
      v ≤ l[k] ↔ l.length - k ≤ l.countP fun x => v ≤ x := by
  induction l with
  | nil =>
      intro k inRange
      simp at inRange
  | cons a rest inductionHypothesis =>
      have headLe : ∀ x ∈ rest, a ≤ x := List.rel_of_sorted_cons sorted
      have restBound := List.countP_le_length (p := fun x => decide (v ≤ x)) (l := rest)
      intro k inRange
      by_cases below : v ≤ a
      · have allReach : rest.countP (fun x => v ≤ x) = rest.length :=
          List.countP_eq_length.mpr fun x member => by simpa using below.trans (headLe x member)
        cases k with
        | zero =>
            simp [List.countP_cons, below, allReach]
        | succ k =>
            simp only [List.getElem_cons_succ, List.length_cons, List.countP_cons, allReach,
              below, inductionHypothesis sorted.of_cons k (by simpa using inRange)]
            omega
      · cases k with
        | zero =>
            simp [List.countP_cons, below]
            omega
        | succ k =>
            simpa [List.countP_cons, below] using
              inductionHypothesis sorted.of_cons k (by simpa using inRange)

namespace Raft

/-- How many peers have a `Match` of at least `v`. -/
def matchCount (r : Raft) (v : Nat) : Nat :=
  r.prs.entries.countP fun p => v ≤ p.2.match

/-- A quorum is at most the whole of a nonempty peer map. -/
theorem quorum_le_length {r : Raft} (nonempty : r.prs.entries ≠ []) :
    r.quorum ≤ r.prs.entries.length := by
  have : 0 < r.prs.entries.length := List.length_pos.mpr nonempty
  unfold quorum
  omega

/--
`maybeCommit` picks the index replicated on a quorum.  On a nonempty peer map it hands
`RaftLog.maybeCommit` an `mci` such that `v ≤ mci` exactly when a quorum of `Match`
values reach `v`, that is, the largest such `v`; afterwards `committed` is `mci` if
`mci` is past it and of the current term, and unchanged otherwise.
-/
theorem maybeCommit_quorum_index (r : Raft) (nonempty : r.prs.entries ≠ []) :
    ∃ mci, (∀ v, v ≤ mci ↔ r.quorum ≤ r.matchCount v) ∧
      r.maybeCommit =
        (fun p => ({ r with raftLog := p.1 }, p.2)) <$> r.raftLog.maybeCommit mci r.term ∧
      ∀ r' committed, r.maybeCommit = .ok (r', committed) →
        r'.raftLog.committed =
          if r.raftLog.committed < mci ∧
              RaftLog.zeroTermOnRangeErr (r.raftLog.term mci) = r.term
          then mci else r.raftLog.committed := by
  set matchIndex := (r.prs.entries.map fun p => p.2.match).insertionSort (· ≤ ·)
  have permuted := List.perm_insertionSort (· ≤ ·) (r.prs.entries.map fun p => p.2.match)
  have sameLength : matchIndex.length = r.prs.entries.length :=
    permuted.length_eq.trans (List.length_map _ _)
  have inRange : matchIndex.length - r.quorum < matchIndex.length := by
    have : 0 < r.prs.entries.length := List.length_pos.mpr nonempty
    unfold quorum
    omega
  refine ⟨matchIndex[matchIndex.length - r.quorum], fun v => ?_, ?_, ?_⟩
  · rw [le_getElem_iff_countP_of_sorted (List.sorted_insertionSort _ _) v _ inRange,
      permuted.countP_eq, List.countP_map, sameLength]
    rw [Nat.sub_sub_self (quorum_le_length nonempty)]
    rfl
  · simp only [maybeCommit, List.getElem?_eq_getElem inRange]
    cases r.raftLog.maybeCommit _ r.term <;> rfl
  · intro r' committed maybeCommitted
    simp only [maybeCommit, List.getElem?_eq_getElem inRange] at maybeCommitted
    obtain ⟨⟨raftLog, b⟩, logCommitted, same⟩ := bind_eq_ok.mp maybeCommitted
    cases pure_eq_ok.mp same
    exact RaftLog.maybeCommit_committed logCommitted

/--
Node 1 of the group `{1, 2, 3}` just after it won term 1 (spec scenario E1): its empty
entry `(1, 1)` is appended and matched by itself only.
-/
def threeNodeLeader : Raft where
  id := 1
  term := 1
  vote := 1
  raftLog := { ents := [{ term := 1, index := 1 }] }
  prs := ((∅ : ProgressMap).insert 3 { next := 1 }).insert 2 { next := 1 }
    |>.insert 1 { «match» := 1, next := 2 }
  state := .stateLeader
  lead := 1
  heartbeatTimeout := 1
  electionTimeout := 10
  id_ne_none := by decide
  heartbeatTimeout_pos := by decide
  heartbeat_lt_election := by decide

/-- The quorum index of the fresh leader is 0: its entry is not yet on a quorum. -/
theorem threeNodeLeader_quorum_index :
    threeNodeLeader.prs.entries ≠ [] ∧
      ∃ mci, ∀ v, v ≤ mci ↔ threeNodeLeader.quorum ≤ threeNodeLeader.matchCount v :=
  have nonempty : threeNodeLeader.prs.entries ≠ [] := by decide
  ⟨nonempty, (maybeCommit_quorum_index threeNodeLeader nonempty).imp fun _ quorumIndex =>
    quorumIndex.1⟩

end Raft

end TinyKVRaft
