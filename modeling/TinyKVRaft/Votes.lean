import Mathlib.Data.Finset.Card
import TinyKVRaft.TermVote

namespace TinyKVRaft

/-!
# Counting votes

`poll` records the first answer of each id and counts every grant it has recorded.
Over a candidacy (the term `campaign` opened, its vote responses and the driver's
membership changes) the count is the number of distinct ids whose first answer was a
grant: a repeated or contradicting answer never moves it.  Membership never enters the
count, so the grant of an id that is not in `Prs`, or no longer is, counts toward the
quorum like any other.
-/

/-- The first answer `id` gave, in the order `answers` lists them. -/
def firstAnswer (answers : List (Nat × Bool)) (id : Nat) : Option Bool :=
  (answers.find? fun answer => answer.1 = id).map Prod.snd

/-- How many distinct ids gave a grant as their first answer. -/
def firstGrants (answers : List (Nat × Bool)) : Nat :=
  ((answers.map Prod.fst).toFinset.filter fun id => firstAnswer answers id = some true).card

/-- How many distinct ids of `prs` gave a grant as their first answer. -/
def memberFirstGrants (prs : ProgressMap) (answers : List (Nat × Bool)) : Nat :=
  ((answers.map Prod.fst).toFinset.filter fun id => id ∈ prs ∧ firstAnswer answers id = some true).card

theorem firstAnswer_eq_none_iff (answers : List (Nat × Bool)) (i : Nat) :
    firstAnswer answers i = none ↔ i ∉ answers.map Prod.fst := by
  simp only [firstAnswer, Option.map_eq_none', List.find?_eq_none, List.mem_map, not_exists, not_and,
    decide_eq_true_eq]

theorem firstAnswer_append (answers : List (Nat × Bool)) (id : Nat) (v : Bool) (i : Nat) :
    firstAnswer (answers ++ [(id, v)]) i =
      (firstAnswer answers i).or (if id = i then some v else none) := by
  simp only [firstAnswer, List.find?_append, List.find?_cons, List.find?_nil]
  cases (answers.find? fun answer => answer.1 = i) <;> split_ifs <;> simp_all

/-- A later answer of an id that already answered changes nothing. -/
theorem firstAnswer_append_of_mem {answers : List (Nat × Bool)} {i : Nat}
    (answered : i ∈ answers.map Prod.fst) (id : Nat) (v : Bool) :
    firstAnswer (answers ++ [(id, v)]) i = firstAnswer answers i := by
  rw [firstAnswer_append]
  cases first : firstAnswer answers i
  · exact absurd first ((firstAnswer_eq_none_iff answers i).not.mpr (not_not.mpr answered))
  · rfl

/-- An answer adds a first grant exactly when it is a grant from an id new to `answers`. -/
theorem firstGrants_append (answers : List (Nat × Bool)) (id : Nat) (v : Bool) :
    firstGrants (answers ++ [(id, v)]) =
      if id ∉ answers.map Prod.fst ∧ v then firstGrants answers + 1 else firstGrants answers := by
  have unchanged : ∀ i ∈ (answers.map Prod.fst).toFinset,
      (firstAnswer (answers ++ [(id, v)]) i = some true ↔ firstAnswer answers i = some true) :=
    fun i answered => by rw [firstAnswer_append_of_mem (List.mem_toFinset.mp answered)]
  unfold firstGrants
  simp only [List.map_append, List.map_cons, List.map_nil, List.toFinset_append, List.toFinset_cons,
    List.toFinset_nil, insert_emptyc_eq]
  by_cases answered : id ∈ answers.map Prod.fst
  · rw [Finset.union_eq_left.mpr (Finset.singleton_subset_iff.mpr (List.mem_toFinset.mpr answered)),
      Finset.filter_congr unchanged]
    simp [answered]
  · have fresh : id ∉ (answers.map Prod.fst).toFinset := fun mem => answered (List.mem_toFinset.mp mem)
    have newAnswer : firstAnswer (answers ++ [(id, v)]) id = some v := by
      rw [firstAnswer_append, (firstAnswer_eq_none_iff answers id).mpr answered]
      simp
    rw [Finset.union_comm, ← Finset.insert_eq, Finset.filter_insert, Finset.filter_congr unchanged,
      newAnswer]
    cases v
    · simp [answered]
    · rw [if_pos rfl, Finset.card_insert_of_not_mem fun mem => fresh (Finset.mem_filter.mp mem).1]
      simp [answered]

/-- `votes` holds the first answer of every id of `answers`, and counts their grants. -/
def RecordsFirstAnswers (votes : VoteMap) (answers : List (Nat × Bool)) : Prop :=
  (∀ i, votes.lookup i = firstAnswer answers i) ∧
    votes.entries.countP (fun vote => vote.2) = firstGrants answers

namespace Raft

variable {r r₀ r₁ r' : Raft} {answers : List (Nat × Bool)} {m : Message} {e : Option StepError}

/-- `poll` records an answer only when it is the id's first, and counts the first grants. -/
theorem poll_records (recorded : RecordsFirstAnswers r.votes answers) (id : Nat) (v : Bool) :
    RecordsFirstAnswers (r.poll id v).1.votes (answers ++ [(id, v)]) ∧
      (r.poll id v).2 = firstGrants (answers ++ [(id, v)]) := by
  obtain ⟨lookups, counted⟩ := recorded
  have answered : id ∈ r.votes ↔ id ∈ answers.map Prod.fst := by
    rw [← AList.lookup_isSome, lookups, ← not_iff_not, ← firstAnswer_eq_none_iff]
    cases firstAnswer answers id <;> simp
  have recorded' : RecordsFirstAnswers (r.poll id v).1.votes (answers ++ [(id, v)]) := by
    simp only [poll_eq]
    split_ifs with member
    · refine ⟨fun i => ?_, ?_⟩
      · by_cases same : id = i
        · subst same
          rw [lookups, firstAnswer_append_of_mem (answered.mp member)]
        · rw [lookups, firstAnswer_append]
          simp [same]
      · rw [firstGrants_append, if_neg fun fresh => fresh.1 (answered.mp member), counted]
    · refine ⟨fun i => ?_, ?_⟩
      · rw [firstAnswer_append]
        by_cases same : id = i
        · subst same
          rw [AList.lookup_insert, (firstAnswer_eq_none_iff answers id).mpr (mt answered.mpr member)]
          simp
        · rw [AList.lookup_insert_ne (Ne.symm same), lookups]
          simp [same]
      · rw [AList.insert_entries_of_neg member, List.countP_cons, counted, firstGrants_append]
        cases v <;> simp [mt answered.mpr member]
  exact ⟨recorded', recorded'.2⟩

/-- A candidate fresh from `campaign` has recorded its own grant only. -/
theorem campaign_votes (campaigned : r₀.campaign = .ok r₁) (candidate : r₁.state = .stateCandidate) :
    RecordsFirstAnswers r₁.votes [(r₀.id, true)] := by
  unfold campaign at campaigned
  obtain ⟨r₂, became, rest⟩ := bind_eq_ok.mp campaigned
  unfold becomeCandidate at became
  split_ifs at became
  cases pure_eq_ok.mp became
  dsimp only at rest
  split_ifs at rest
  · simp [(becomeLeader_eq_ok rest).2.2.1] at candidate
  · obtain ⟨msgs, rfl⟩ := (requestVotes_outgoing rest).frame
    have empty : RecordsFirstAnswers (r₀.reset (r₀.term + 1)).votes [] := by
      rw [reset_votes]
      exact ⟨fun i => AList.lookup_empty i, rfl⟩
    have recorded := (poll_records
      (r := { r₀.reset (r₀.term + 1) with vote := r₀.id, state := .stateCandidate }) empty
      (r₀.reset (r₀.term + 1)).id true).1
    simp only [reset_id] at recorded ⊢
    exact recorded

/-- A vote response of the candidate's term that leaves it candidate was only polled. -/
theorem step_voteResponse (candidate : r.state = .stateCandidate)
    (voteResponse : m.msgType = .msgRequestVoteResponse) (ownTerm : m.term = r.term)
    (done : r.step m = .ok (r', e)) (stillCandidate : r'.state = .stateCandidate) :
    r' = (r.poll m.from !m.reject).1 := by
  rcases step_cases done with ⟨gated, -⟩ | ⟨r₁, gated, branch⟩
  · simp [stepTerm, ownTerm] at gated
  have same : r₁ = r := by
    simp only [stepTerm, ownTerm, lt_irrefl, if_false, ite_self, Option.some.injEq] at gated
    exact gated.symm
  subst same
  rcases branch with ⟨hup, -⟩ | ⟨vote, -⟩ | ⟨follower, -⟩ | ⟨-, stepped⟩ | ⟨leader, -⟩
  · simp [voteResponse] at hup
  · simp [voteResponse] at vote
  · simp [candidate] at follower
  · simp only [stepCandidate, voteResponse] at stepped
    split_ifs at stepped
    · obtain ⟨r₂, became, rest⟩ := bind_eq_ok.mp stepped
      obtain ⟨r₃, sent, rest⟩ := bind_eq_ok.mp rest
      cases pure_eq_ok.mp rest
      obtain ⟨msgs, rfl⟩ := (bcastAppend_outgoing sent).frame
      simp [(becomeLeader_eq_ok became).2.2.1] at stillCandidate
    · cases pure_eq_ok.mp stepped
      simp at stillCandidate
    · cases pure_eq_ok.mp stepped
      rfl
  · simp [candidate] at leader

/--
A candidacy after `campaign` made `r₁` candidate: vote responses of its term handed to
`Step` that leave it candidate, and membership changes applied by its driver, in any
order.  `answers` lists the responses, each as its sender and whether it grants.
-/
inductive Candidacy (r₁ : Raft) : List (Nat × Bool) → Raft → Prop
  | start : Candidacy r₁ [] r₁
  | respond {answers : List (Nat × Bool)} {r r' : Raft} {m : Message} {e : Option StepError} :
      Candidacy r₁ answers r → m.msgType = .msgRequestVoteResponse → m.term = r.term →
      r.step m = .ok (r', e) → r'.state = .stateCandidate →
      Candidacy r₁ (answers ++ [(m.from, !m.reject)]) r'
  | addNode {answers : List (Nat × Bool)} {r : Raft} (id : Nat) :
      Candidacy r₁ answers r → Candidacy r₁ answers (r.addNode id)
  | removeNode {answers : List (Nat × Bool)} {r r' : Raft} (id : Nat) :
      Candidacy r₁ answers r → r.removeNode id = .ok r' → Candidacy r₁ answers r'

/-- Over a candidacy the node stays candidate and its votes record the first answers. -/
theorem Candidacy.records (run : Candidacy r₁ answers r) (candidate : r₁.state = .stateCandidate)
    (started : RecordsFirstAnswers r₁.votes [(r₁.id, true)]) :
    r.state = .stateCandidate ∧ RecordsFirstAnswers r.votes ((r₁.id, true) :: answers) := by
  induction run with
  | start => exact ⟨candidate, started⟩
  | respond _ voteResponse ownTerm stepped stillCandidate inductionHypothesis =>
      rw [step_voteResponse inductionHypothesis.1 voteResponse ownTerm stepped stillCandidate]
      exact ⟨by simpa [poll_eq] using inductionHypothesis.1,
        (poll_records inductionHypothesis.2 _ _).1⟩
  | addNode id _ inductionHypothesis =>
      obtain ⟨prs, added⟩ := addNode_eq _ id
      rw [added]
      exact inductionHypothesis
  | removeNode id _ removed inductionHypothesis =>
      obtain ⟨raftLog, prs, msgs, leadTransferee, rfl, -⟩ := removeNode_eq_ok removed
      exact inductionHypothesis

/--
Over any candidacy, the count `poll` returns for the next response is the number of
distinct ids, the candidate itself included, whose first answer of the term was a
grant, in `Prs` or not.
-/
theorem candidacy_counts_first_grants (campaigned : r₀.campaign = .ok r₁)
    (candidate : r₁.state = .stateCandidate) (run : Candidacy r₁ answers r) (id : Nat) (v : Bool) :
    (r.poll id v).2 = firstGrants ((r₀.id, true) :: answers ++ [(id, v)]) := by
  have sameId : r₁.id = r₀.id := (campaign_eq_ok campaigned).2.2.2.1
  have recorded := run.records candidate (sameId ▸ campaign_votes campaigned candidate)
  rw [sameId] at recorded
  exact (poll_records recorded.2 id v).2

/-- Node 2 of the group `{1, 2, 3, 4}`, a follower of term 1 that holds `(1, 1)` and has not voted. -/
def fourNodeFollower : Raft where
  id := 2
  term := 1
  raftLog := { ents := [{ term := 1, index := 1 }] }
  prs := (((∅ : ProgressMap).insert 4 {}).insert 3 {}).insert 2 {} |>.insert 1 {}
  heartbeatTimeout := 1
  electionTimeout := 10
  id_ne_none := by decide
  heartbeatTimeout_pos := by decide
  heartbeat_lt_election := by decide

/--
The grant of a voter removed after it voted still counts: node 2 of `{1, 2, 3, 4}`
campaigns in term 2 and node 3 grants, which leaves 2 of the 3 grants a quorum needs.
Node 3 is then removed, so `Prs` is `{1, 2, 4}` with a quorum of 2.  Node 1 rejects;
`poll` counts 2 grants where one current member granted, and `Step` makes node 2 leader.
-/
theorem removedVoter_grant_elects :
    ∃ r₁ r₂ r₃ r₄ e₂ e₄, fourNodeFollower.campaign = .ok r₁ ∧
      r₁.step { msgType := .msgRequestVoteResponse, «from» := 3, term := 2 } = .ok (r₂, e₂) ∧
      r₂.state = .stateCandidate ∧ r₂.removeNode 3 = .ok r₃ ∧
      (r₃.poll 1 false).2 = 2 ∧ memberFirstGrants r₃.prs [(2, true), (3, true), (1, false)] = 1 ∧
      r₃.step { msgType := .msgRequestVoteResponse, «from» := 1, term := 2, reject := true } =
        .ok (r₄, e₄) ∧ r₄.state = .stateLeader := by
  obtain ⟨r₁, campaigned⟩ : ∃ r₁, fourNodeFollower.campaign = .ok r₁ := ⟨_, rfl⟩
  obtain ⟨⟨r₂, e₂⟩, granted⟩ : ∃ p, r₁.step
      { msgType := .msgRequestVoteResponse, «from» := 3, term := 2 } = .ok p := by
    cases campaigned
    exact ⟨_, rfl⟩
  obtain ⟨r₃, removed⟩ : ∃ r₃, r₂.removeNode 3 = .ok r₃ := by
    cases campaigned
    cases granted
    exact ⟨_, rfl⟩
  obtain ⟨⟨r₄, e₄⟩, rejected⟩ : ∃ p, r₃.step
      { msgType := .msgRequestVoteResponse, «from» := 1, term := 2, reject := true } = .ok p := by
    cases campaigned
    cases granted
    cases removed
    exact ⟨_, rfl⟩
  have counted : r₂.state = .stateCandidate ∧ (r₃.poll 1 false).2 = 2 ∧
      memberFirstGrants r₃.prs [(2, true), (3, true), (1, false)] = 1 ∧ r₄.state = .stateLeader := by
    cases campaigned
    cases granted
    cases removed
    cases rejected
    decide
  exact ⟨r₁, r₂, r₃, r₄, e₂, e₄, campaigned, granted, counted.1, removed, counted.2.1, counted.2.2.1,
    rejected, counted.2.2.2⟩

end Raft

end TinyKVRaft
