import TinyKVRaft.LeaderAppend
import TinyKVRaft.CommittedPrefix
import TinyKVRaft.Cluster

namespace TinyKVRaft

/-!
# One pending conf change per term

`becomeLeader` sets `PendingConfIndex` to the last index the node held, and the loop of
`stepLeader` over a proposal keeps a conf change only once `applied` has reached
`PendingConfIndex`, which then moves to the kept entry's index `LastIndex + i + 1`.
Over every run of a leader in its term (any `Step`, `tick`, and application of committed
entries, conf changes included), every conf change it appended stands at or below
`PendingConfIndex`; a proposal appends at most one conf change, and only once `applied`
has reached every conf change appended before it and the last index the node took office
with.  The bound `applied ≤ committed ≤ lastIndex` of the log is what makes a kept conf
change block the rest of its proposal.
-/

namespace RaftLog

/-- Index `i` of the log holds a conf-change entry. -/
def ConfAt (l : RaftLog) (i : Nat) : Prop :=
  ∃ e, l.entryAt i = some e ∧ e.entryType = .entryConfChange

/-- `entryAt` reads only the snapshot and the entries. -/
theorem entryAt_congr {l l' : RaftLog} (snapshot : l'.storageSnapshot = l.storageSnapshot)
    (ents : l'.ents = l.ents) (i : Nat) : l'.entryAt i = l.entryAt i := by
  simp only [entryAt, firstIndex, snapshotIndex, snapshot, ents]

theorem Extends.storageSnapshot_eq {l l' : RaftLog} (extended : l.Extends l') :
    l'.storageSnapshot = l.storageSnapshot := by
  obtain ⟨added, c, rfl, -⟩ := extended
  rfl

end RaftLog

namespace Raft

open RaftLog (ConfAt)

variable {r r' r₀ r₁ r₂ : Raft} {m : Message} {e : Option StepError} {L₀ : Nat}

/-! ## The loop over a proposal -/

section Proposal

variable {applied lastIndex : Nat}

/-- While a conf change is pending, the loop keeps none and leaves `PendingConfIndex`. -/
theorem proposalEntries_blocked : ∀ {pending i : Nat} {es out : List Entry} {p : Nat},
    proposalEntries applied lastIndex pending i es = (out, p) → applied < pending →
    (∀ e ∈ out, e.entryType ≠ .entryConfChange) ∧ p = pending
  | _, _, [], _, _, looped, _ => by
      obtain ⟨rfl, rfl⟩ := Prod.mk.inj looped
      simp
  | pending, i, e :: es, out, p, looped, blocked => by
      rcases rest : proposalEntries applied lastIndex pending (i + 1) es with ⟨out', p'⟩
      obtain ⟨kept, rfl⟩ := proposalEntries_blocked rest blocked
      unfold proposalEntries at looped
      split_ifs at looped with conf
      · rw [rest] at looped
        obtain ⟨rfl, rfl⟩ := Prod.mk.inj looped
        exact ⟨by simpa using kept, rfl⟩
      · rw [rest] at looped
        obtain ⟨rfl, rfl⟩ := Prod.mk.inj looped
        exact ⟨by simpa [conf] using kept, rfl⟩

/--
The loop over a proposal keeps every position, and either keeps no conf change and
leaves `PendingConfIndex`, or keeps one at a single position `k`, found when
`PendingConfIndex ≤ applied`, and moves `PendingConfIndex` to its index.
-/
theorem proposalEntries_spec : ∀ {pending i : Nat} {es out : List Entry} {p : Nat},
    proposalEntries applied lastIndex pending i es = (out, p) → applied ≤ lastIndex + i →
    out.length = es.length ∧
      ((∀ e ∈ out, e.entryType ≠ .entryConfChange) ∧ p = pending ∨
        pending ≤ applied ∧ ∃ k, p = lastIndex + i + k + 1 ∧
          ∀ k' e, out[k']? = some e → e.entryType = .entryConfChange → k' = k)
  | _, _, [], _, _, looped, _ => by
      obtain ⟨rfl, rfl⟩ := Prod.mk.inj looped
      simp
  | pending, i, e :: es, out, p, looped, within => by
      have within' : applied ≤ lastIndex + (i + 1) := by omega
      unfold proposalEntries at looped
      split_ifs at looped with conf blocked
      · -- a conf change while one is pending becomes an empty normal entry
        rcases rest : proposalEntries applied lastIndex pending (i + 1) es with ⟨out', p'⟩
        rw [rest] at looped
        obtain ⟨rfl, rfl⟩ := Prod.mk.inj looped
        obtain ⟨kept, rfl⟩ := proposalEntries_blocked rest blocked
        exact ⟨by simp [(proposalEntries_spec rest within').1], .inl ⟨by simpa using kept, rfl⟩⟩
      · -- the first conf change is kept, and blocks the rest
        rcases rest : proposalEntries applied lastIndex (lastIndex + i + 1) (i + 1) es with ⟨out', p'⟩
        rw [rest] at looped
        obtain ⟨rfl, rfl⟩ := Prod.mk.inj looped
        obtain ⟨kept, rfl⟩ := proposalEntries_blocked rest (by omega)
        refine ⟨by simp [(proposalEntries_spec rest within').1], .inr ⟨by omega, 0, rfl, ?_⟩⟩
        rintro (_ | k') e' found conf'
        · rfl
        · exact absurd conf' (kept e' (List.mem_iff_getElem?.mpr ⟨_, by simpa using found⟩))
      · -- a normal entry is kept as it is
        rcases rest : proposalEntries applied lastIndex pending (i + 1) es with ⟨out', p'⟩
        rw [rest] at looped
        obtain ⟨rfl, rfl⟩ := Prod.mk.inj looped
        obtain ⟨length, none | ⟨reached, k, rfl, single⟩⟩ := proposalEntries_spec rest within'
        · exact ⟨by simp [length], .inl ⟨by simpa [conf] using none.1, none.2⟩⟩
        refine ⟨by simp [length], .inr ⟨reached, k + 1, by omega, ?_⟩⟩
        rintro (_ | k') e' found conf'
        · exact absurd (by simpa using found) (fun same : e = e' => conf (same ▸ conf'))
        · simpa using single k' e' (by simpa using found) conf'

/-- The loop keeps each entry at its position, or turns a conf change into an empty normal entry. -/
theorem proposalEntries_kept_or_emptied : ∀ {pending i : Nat} {es out : List Entry} {p : Nat},
    proposalEntries applied lastIndex pending i es = (out, p) → ∀ (k : Nat) (c : Entry), es[k]? = some c →
      out[k]? = some c ∨ c.entryType = .entryConfChange ∧ out[k]? = some { entryType := .entryNormal }
  | _, _, [], _, _, _, _, _, found => nomatch found
  | pending, i, e :: es, out, p, looped, k, c, found => by
      unfold proposalEntries at looped
      split_ifs at looped with conf blocked <;>
        obtain ⟨rfl, rfl⟩ := Prod.mk.inj looped <;>
        rcases k with _ | k <;>
        simp only [List.getElem?_cons_zero, List.getElem?_cons_succ, Option.some.injEq] at found ⊢
      -- The head is kept, or emptied when a conf change is pending; the rest by the loop.
      · subst found
        exact .inr ⟨conf, trivial⟩
      all_goals first
        | exact .inl found
        | exact proposalEntries_kept_or_emptied rfl k c found

end Proposal

/-- `appendEntry` puts the `k`-th given entry, stamped with the term and its index, at `LastIndex + 1 + k`. -/
theorem appendEntry_entryAt_eq {es : List Entry} (done : r.appendEntry es = .ok r') {k : Nat} {e : Entry}
    (found : es[k]? = some e) :
    r'.raftLog.entryAt (r.raftLog.lastIndex + k + 1) =
      some { e with term := r.term, index := r.raftLog.lastIndex + 1 + k } := by
  obtain ⟨c, prs, rfl, -⟩ := appendEntry_eq_ok done
  simp only [RaftLog.entryAt, RaftLog.lastIndex, RaftLog.firstIndex, RaftLog.snapshotIndex]
  rw [if_pos (by omega), List.getElem?_append_right (by omega), getElem?_stampEntries,
    show r.raftLog.storageSnapshot.metadata.index + r.raftLog.ents.length + k + 1 -
      (r.raftLog.storageSnapshot.metadata.index + 1) - r.raftLog.ents.length = k by omega, found]
  rfl

/-- `appendEntry` puts the `k`-th given entry, with its type, at `LastIndex + 1 + k`. -/
theorem appendEntry_entryAt {es : List Entry} (done : r.appendEntry es = .ok r') {i : Nat}
    {e : Entry} (past : r.raftLog.lastIndex < i) (held : r'.raftLog.entryAt i = some e) :
    ∃ e', es[i - r.raftLog.lastIndex - 1]? = some e' ∧ e.entryType = e'.entryType := by
  obtain ⟨c, prs, rfl, -⟩ := appendEntry_eq_ok done
  simp only [RaftLog.entryAt, RaftLog.lastIndex, RaftLog.firstIndex, RaftLog.snapshotIndex]
    at past held ⊢
  rw [if_pos (by omega), List.getElem?_append_right (by omega), getElem?_stampEntries] at held
  obtain ⟨x, found, rfl⟩ := Option.map_eq_some'.mp held
  exact ⟨x, by rw [← found]; congr 1; omega, rfl⟩

/-! ## What a leader's call can do to the pending conf change -/

/--
What `PendingConfIndex` records for a leader that took office with last index `L₀`: it
is at least `L₀`, and at least the index of every conf change past `L₀`.
-/
def ConfPending (L₀ : Nat) (r : Raft) : Prop :=
  L₀ ≤ r.pendingConfIndex ∧ ∀ i, L₀ < i → ConfAt r.raftLog i → i ≤ r.pendingConfIndex

/-- The call from `r` to `r'` appended a conf change at index `i`. -/
def AppendsConf (r r' : Raft) (i : Nat) : Prop :=
  r.raftLog.lastIndex < i ∧ ConfAt r'.raftLog i

/-- A call that keeps `PendingConfIndex` and the log's entries and snapshot. -/
def KeepsConf (r r' : Raft) : Prop :=
  r'.pendingConfIndex = r.pendingConfIndex ∧ r'.raftLog.ents = r.raftLog.ents ∧
    r'.raftLog.storageSnapshot = r.raftLog.storageSnapshot

theorem KeepsConf.refl (r : Raft) : KeepsConf r r :=
  ⟨rfl, rfl, rfl⟩

theorem KeepsConf.entryAt_eq (kept : KeepsConf r r') (i : Nat) :
    r'.raftLog.entryAt i = r.raftLog.entryAt i :=
  RaftLog.entryAt_congr kept.2.2 kept.2.1 i

theorem KeepsConf.confPending (kept : KeepsConf r r') (inv : ConfPending L₀ r) : ConfPending L₀ r' := by
  refine ⟨kept.1 ▸ inv.1, fun i past conf => kept.1 ▸ inv.2 i past ?_⟩
  rwa [ConfAt, ← kept.entryAt_eq]

theorem KeepsConf.not_appendsConf (kept : KeepsConf r r') (i : Nat) : ¬AppendsConf r r' i := by
  rintro ⟨past, e, held, -⟩
  rw [kept.entryAt_eq, RaftLog.entryAt_eq_none past] at held
  cases held

theorem NoAppend.keepsConf (noAppend : NoAppend r r') : KeepsConf r r' :=
  ⟨noAppend.2.1, noAppend.2.2, noAppend.1.1.extends_raftLog.storageSnapshot_eq⟩

/-- The proposal step of `stepLeader`: the loop's result, appended, then broadcast. -/
def Proposes (es : List Entry) (r r' : Raft) : Prop :=
  ∃ r₁, { r with pendingConfIndex :=
      (proposalEntries r.raftLog.applied r.raftLog.lastIndex r.pendingConfIndex 0 es).2 }.appendEntry
    (proposalEntries r.raftLog.applied r.raftLog.lastIndex r.pendingConfIndex 0 es).1 = .ok r₁ ∧
    r₁.bcastAppend = .ok r'

/--
A proposal keeps the invariant and appends at most one conf change, and that only when
`PendingConfIndex ≤ applied`: the loop's entries go after the last index, and the one conf
change it may keep stands at the index `PendingConfIndex` moves to.
-/
theorem Proposes.confPending {es : List Entry} (proposed : Proposes es r r') (inv : ConfPending L₀ r)
    (bounded : r.raftLog.Bounded) :
    ConfPending L₀ r' ∧ (∀ i j, AppendsConf r r' i → AppendsConf r r' j → i = j) ∧
      ∀ i, AppendsConf r r' i → r.pendingConfIndex ≤ r.raftLog.applied := by
  obtain ⟨r₁, appended, sent⟩ := proposed
  obtain ⟨msgs, rfl⟩ := (bcastAppend_outgoing sent).frame
  rcases looped : proposalEntries r.raftLog.applied r.raftLog.lastIndex r.pendingConfIndex 0 es
    with ⟨out, p⟩
  simp only [looped] at appended
  have extended := (appendEntry_stamped appended).2.1.1
  have pending : r₁.pendingConfIndex = p := by
    obtain ⟨c, prs, rfl, -⟩ := appendEntry_eq_ok appended
    rfl
  -- an index past the old log holding a conf change is the loop's kept position
  have placed : ∀ i, r.raftLog.lastIndex < i → ConfAt r₁.raftLog i →
      ∃ k, i = r.raftLog.lastIndex + k + 1 ∧ ∃ e', out[k]? = some e' ∧
        e'.entryType = .entryConfChange := by
    rintro i past ⟨e', held, conf⟩
    obtain ⟨e'', found, sameType⟩ := appendEntry_entryAt appended past held
    exact ⟨i - r.raftLog.lastIndex - 1, by omega, e'', found, sameType ▸ conf⟩
  have within : r.raftLog.applied ≤ r.raftLog.lastIndex + 0 := bounded.1.trans bounded.2
  obtain ⟨-, none | ⟨reached, k, rfl, single⟩⟩ := proposalEntries_spec looped within
  · have unchanged : ∀ i, ¬AppendsConf r { r₁ with msgs } i := by
      rintro i ⟨past, conf⟩
      obtain ⟨k, -, e', found, conf'⟩ := placed i past conf
      exact none.1 e' (List.mem_iff_getElem?.mpr ⟨_, found⟩) conf'
    refine ⟨⟨pending ▸ none.2 ▸ inv.1, fun i past conf => ?_⟩,
      fun i _ appends => absurd appends (unchanged i), fun i appends => absurd appends (unchanged i)⟩
    rw [show r₁.pendingConfIndex = r.pendingConfIndex from pending.trans none.2]
    by_cases old : i ≤ r.raftLog.lastIndex
    · obtain ⟨e', held, conf'⟩ := conf
      exact inv.2 i past ⟨e', (extended.entryAt_eq old).symm.trans held, conf'⟩
    · exact absurd ⟨Nat.lt_of_not_le old, conf⟩ (unchanged i)
  · have atKept : ∀ i, AppendsConf r { r₁ with msgs } i →
        i = r.raftLog.lastIndex + 0 + k + 1 := by
      rintro i ⟨past, conf⟩
      obtain ⟨k', rfl, e', found, conf'⟩ := placed i past conf
      rw [single k' e' found conf']
      omega
    refine ⟨⟨by have := inv.1; rw [pending]; omega, fun i past conf => ?_⟩,
      fun i j first second => (atKept i first).trans (atKept j second).symm,
      fun _ _ => reached⟩
    simp only [pending]
    by_cases old : i ≤ r.raftLog.lastIndex
    · obtain ⟨e', held, conf'⟩ := conf
      have := inv.2 i past ⟨e', (extended.entryAt_eq old).symm.trans held, conf'⟩
      omega
    · exact (atKept i ⟨Nat.lt_of_not_le old, conf⟩).le

/--
A proposal appends each of its conf changes, at the index its position gives, as a conf
change or as an empty normal entry.
-/
theorem Proposes.confOrEmpty {es : List Entry} (proposed : Proposes es r r') {k : Nat} {c : Entry}
    (found : es[k]? = some c) (conf : c.entryType = .entryConfChange) :
    ConfAt r'.raftLog (r.raftLog.lastIndex + k + 1) ∨
      ∃ e', r'.raftLog.entryAt (r.raftLog.lastIndex + k + 1) = some e' ∧ e'.entryType = .entryNormal ∧
        e'.data = [] := by
  obtain ⟨r₁, appended, sent⟩ := proposed
  obtain ⟨msgs, rfl⟩ := (bcastAppend_outgoing sent).frame
  rcases looped : proposalEntries r.raftLog.applied r.raftLog.lastIndex r.pendingConfIndex 0 es
    with ⟨out, p⟩
  simp only [looped] at appended
  rcases proposalEntries_kept_or_emptied looped k c found with kept | ⟨-, emptied⟩
  · exact .inl ⟨_, appendEntry_entryAt_eq appended kept, conf⟩
  · exact .inr ⟨_, appendEntry_entryAt_eq appended emptied, rfl, rfl⟩

/--
A leader's `Step` that ends in its own term keeps the pending conf change and every
entry, or is the proposal step of `stepLeader`.
-/
theorem step_keepsConf_or_proposes (leader : r.state = .stateLeader) (same : r'.term = r.term)
    (done : r.step m = .ok (r', e)) : KeepsConf r r' ∨ Proposes m.entries r r' := by
  rcases step_cases done with ⟨-, rfl⟩ | ⟨r₁, gated, branch⟩
  · exact .inl (.refl _)
  rcases stepTerm_cases gated with ⟨rfl, -⟩ | ⟨later, -⟩
  · rcases branch with ⟨-, rfl | ⟨notLeader, -⟩⟩ | ⟨-, ⟨-, -, r₂, sent, rfl⟩ | sent⟩ |
        ⟨follower, -⟩ | ⟨candidate, -⟩ | ⟨-, stepped⟩
    · exact .inl (.refl _)
    · exact absurd leader notLeader
    · obtain ⟨msgs, rfl⟩ := send_queues sent
      exact .inl (.refl _)
    · obtain ⟨msgs, rfl⟩ := send_queues sent
      exact .inl (.refl _)
    · simp [leader] at follower
    · simp [leader] at candidate
    · rcases stepLeader_noAppend_or_proposes stepped with noAppend | ⟨-, proposed⟩
      · exact .inl noAppend.keepsConf
      · exact .inr proposed
  · have grown := step_later_term done gated later
    omega

/-- Applying the next committed entry keeps the pending conf change and every entry. -/
theorem applyNext_keepsConf (done : r.applyNext = .ok r') : KeepsConf r r' := by
  obtain ⟨-, raftLog, prs, msgs, leadTransferee, rfl, extended, ents⟩ := applyNext_eq_ok done
  exact ⟨rfl, ents, extended.storageSnapshot_eq⟩

theorem applyNext_bounded (bounded : r.raftLog.Bounded) (done : r.applyNext = .ok r') :
    r'.raftLog.Bounded := by
  obtain ⟨within, raftLog, prs, msgs, leadTransferee, rfl, extended, -⟩ := applyNext_eq_ok done
  exact (extended.keepsCommitted ⟨within, bounded.2⟩).2.1

/-! ## Runs of a leader -/

/-- One call a driver makes on a node: a `Step`, a `tick`, or applying the next committed entry. -/
def Call (r r' : Raft) : Prop :=
  (∃ m e, r.step m = .ok (r', e)) ∨ r.tick = .ok r' ∨ r.applyNext = .ok r'

theorem Call.bounded (call : Call r r') (bounded : r.raftLog.Bounded) : r'.raftLog.Bounded := by
  rcases call with ⟨m, e, done⟩ | ticked | applied
  · exact (step_keepsCommitted done bounded).2.1
  · exact (tick_keepsCommitted bounded ticked).2.1
  · exact applyNext_bounded bounded applied

/-- A call on a leader after which it is still the leader of the same term. -/
def LeaderCall (r r' : Raft) : Prop :=
  r.state = .stateLeader ∧ r'.state = .stateLeader ∧ r'.term = r.term ∧ Call r r'

/-- A leader's call keeps the pending conf change and every entry, or takes a proposal. -/
theorem LeaderCall.cases (call : LeaderCall r r') : KeepsConf r r' ∨ ∃ es, Proposes es r r' := by
  obtain ⟨leader, -, same, ⟨m, e, done⟩ | ticked | applied⟩ := call
  · exact (step_keepsConf_or_proposes leader same done).imp_right fun proposed => ⟨_, proposed⟩
  · exact .inl (tick_noAppend leader ticked).keepsConf
  · exact .inl (applyNext_keepsConf applied)

/--
One call of a leader keeps the invariant and appends at most one conf change, and that
only when `PendingConfIndex ≤ applied`.
-/
theorem LeaderCall.confPending (call : LeaderCall r r') (inv : ConfPending L₀ r)
    (bounded : r.raftLog.Bounded) :
    ConfPending L₀ r' ∧ (∀ i j, AppendsConf r r' i → AppendsConf r r' j → i = j) ∧
      ∀ i, AppendsConf r r' i → r.pendingConfIndex ≤ r.raftLog.applied := by
  rcases call.cases with kept | ⟨es, proposed⟩
  · exact ⟨kept.confPending inv, fun i _ appends => absurd appends (kept.not_appendsConf i),
      fun i appends => absurd appends (kept.not_appendsConf i)⟩
  · exact proposed.confPending inv bounded

/-- A new leader's pending conf change is its last index before its empty entry. -/
theorem becomeLeader_confPending (became : r.becomeLeader = .ok r₀) :
    ConfPending r.raftLog.lastIndex r₀ := by
  unfold becomeLeader at became
  refine ⟨?_, fun i past conf => ?_⟩
  · obtain ⟨c, prs, rfl, -⟩ := appendEntry_eq_ok became
    simp
  · obtain ⟨e, held, conf⟩ := conf
    obtain ⟨e', found, sameType⟩ := appendEntry_entryAt became (by simpa using past) held
    have empty : e' = { data := [] } := by simpa using List.mem_iff_getElem?.mpr ⟨_, found⟩
    subst empty
    simp [sameType] at conf

/-- Every state of a leader's run from `becomeLeader` keeps the invariant and the log's bounds. -/
theorem LeaderCall.run_confPending (bounded : r.raftLog.Bounded) (became : r.becomeLeader = .ok r₀)
    (run : Relation.ReflTransGen LeaderCall r₀ r₁) :
    ConfPending r.raftLog.lastIndex r₁ ∧ r₁.raftLog.Bounded := by
  induction run with
  | refl =>
      exact ⟨becomeLeader_confPending became,
        ((becomeLeader_eq_ok became).2.2.2.2.2.2.1.1.keepsCommitted bounded).2.1⟩
  | tail _ call ih => exact ⟨(call.confPending ih.1 ih.2).1, call.2.2.2.bounded ih.2⟩

/--
Conf changes are serialized within a leader's term.  Along every run of calls that keep a
node leader of the term it took office in, every conf change past the last index `L₀` it
took office with, that is, every one it appended, stands at or below `PendingConfIndex`;
one call appends at most one conf change, and a proposal it appends puts each of its other
conf changes, at the index its position gives, as an empty normal entry; and a call appends
a conf change only when `applied` has reached `L₀` and every conf change appended before it.
-/
theorem conf_changes_serialized (bounded : r.raftLog.Bounded) (became : r.becomeLeader = .ok r₀)
    (run : Relation.ReflTransGen LeaderCall r₀ r₁) (call : LeaderCall r₁ r₂) :
    ConfPending r.raftLog.lastIndex r₁ ∧
      (∀ i j, AppendsConf r₁ r₂ i → AppendsConf r₁ r₂ j → i = j) ∧
      (∀ m e, r₁.step m = .ok (r₂, e) → r₁.raftLog.lastIndex < r₂.raftLog.lastIndex →
        ∀ (k : Nat) (c : Entry), m.entries[k]? = some c → c.entryType = .entryConfChange →
          AppendsConf r₁ r₂ (r₁.raftLog.lastIndex + k + 1) ∨
            ∃ e', r₂.raftLog.entryAt (r₁.raftLog.lastIndex + k + 1) = some e' ∧ e'.entryType = .entryNormal ∧
              e'.data = []) ∧
      ∀ i, AppendsConf r₁ r₂ i → r.raftLog.lastIndex ≤ r₁.raftLog.applied ∧
        ∀ j, r.raftLog.lastIndex < j → ConfAt r₁.raftLog j → j ≤ r₁.raftLog.applied := by
  obtain ⟨inv, bounded₁⟩ := LeaderCall.run_confPending bounded became run
  obtain ⟨-, single, reached⟩ := call.confPending inv bounded₁
  refine ⟨inv, single, fun m e done grown k c found conf => ?_, fun i appends =>
    ⟨inv.1.trans (reached i appends), fun j past conf => (inv.2 j past conf).trans (reached i appends)⟩⟩
  rcases step_keepsConf_or_proposes call.1 call.2.2.1 done with kept | proposed
  · -- A call that keeps the entries and the snapshot keeps the last index.
    simp only [RaftLog.lastIndex, RaftLog.snapshotIndex, kept.2.1, kept.2.2, lt_self_iff_false] at grown
  · exact (proposed.confOrEmpty found conf).imp_left fun placed => ⟨by omega, placed⟩

/--
Node 1 of `{1, 2, 3}`, a candidate of term 2 with its one entry committed and applied,
about to take office at last index 1.
-/
def confCandidate : Raft where
  id := 1
  term := 2
  vote := 1
  raftLog := { ents := [{ term := 1, index := 1 }], committed := 1, applied := 1 }
  prs := ((∅ : ProgressMap).insert 3 {}).insert 2 {} |>.insert 1 {}
  state := .stateCandidate
  heartbeatTimeout := 1
  electionTimeout := 10
  id_ne_none := by decide
  heartbeatTimeout_pos := by decide
  heartbeat_lt_election := by decide

/--
The new leader proposes two conf changes at once: the first is appended at index 3, where
`PendingConfIndex` moves, and the second becomes an empty normal entry at index 4.
-/
theorem confCandidate_serializes :
    ∃ r₀ r₂, confCandidate.becomeLeader = .ok r₀ ∧ LeaderCall r₀ r₂ ∧ AppendsConf r₀ r₂ 3 ∧
      (∃ e', r₂.raftLog.entryAt 4 = some e' ∧ e'.entryType = .entryNormal ∧ e'.data = []) ∧
      ConfPending 1 r₀ ∧ (∀ i j, AppendsConf r₀ r₂ i → AppendsConf r₀ r₂ j → i = j) ∧
      (∀ m e, r₀.step m = .ok (r₂, e) → r₀.raftLog.lastIndex < r₂.raftLog.lastIndex →
        ∀ (k : Nat) (c : Entry), m.entries[k]? = some c → c.entryType = .entryConfChange →
          AppendsConf r₀ r₂ (r₀.raftLog.lastIndex + k + 1) ∨
            ∃ e', r₂.raftLog.entryAt (r₀.raftLog.lastIndex + k + 1) = some e' ∧ e'.entryType = .entryNormal ∧
              e'.data = []) ∧
      ∀ i, AppendsConf r₀ r₂ i → 1 ≤ r₀.raftLog.applied ∧
        ∀ j, 1 < j → ConfAt r₀.raftLog j → j ≤ r₀.raftLog.applied := by
  have bounded : confCandidate.raftLog.Bounded := by decide
  obtain ⟨r₀, became⟩ : ∃ r₀, confCandidate.becomeLeader = .ok r₀ := ⟨_, rfl⟩
  obtain ⟨⟨r₂, e⟩, stepped⟩ : ∃ p, r₀.step
      { msgType := .msgPropose, «from» := 1
        entries := [{ entryType := .entryConfChange, data := [0, 4] },
          { entryType := .entryConfChange, data := [1, 3] }] } = .ok p := by
    cases became
    exact ⟨_, rfl⟩
  have facts : (r₀.state = .stateLeader ∧ r₂.state = .stateLeader ∧ r₂.term = r₀.term) ∧
      AppendsConf r₀ r₂ 3 ∧ ∃ e', r₂.raftLog.entryAt 4 = some e' ∧ e'.entryType = .entryNormal ∧ e'.data = [] := by
    cases became
    cases stepped
    exact ⟨⟨rfl, rfl, rfl⟩, ⟨by decide, _, rfl, rfl⟩, _, rfl, rfl, rfl⟩
  have call : LeaderCall r₀ r₂ := ⟨facts.1.1, facts.1.2.1, facts.1.2.2, .inl ⟨_, _, stepped⟩⟩
  exact ⟨r₀, r₂, became, call, facts.2.1, facts.2.2, conf_changes_serialized bounded became .refl call⟩

end Raft

end TinyKVRaft
