import TinyKVRaft.Eraftpb

namespace TinyKVRaft

/-!
# The Raft log

`log.go` is not among the sources: `raft.go` only calls it.  This module states the log
as spec §4.1 describes it, one logical sequence made of the snapshot Storage holds and
the entries after it.  Lookups are positional, as in the code's unstable buffer: the
entry stored at index `i` is the `(i − firstIndex)`-th one, whatever `Index` it carries.
Where §4.1 leaves a detail open (what `commitTo` does below `committed`, which fault ends
a bad append), the choice is the one spec §7 and the callers in `raft.go` fix, and is
named in the docstring.
-/

/-- Modelled from the spec: the Storage errors of §6. -/
inductive LogError where
  | errCompacted
  | errUnavailable
  | errSnapshotTemporarilyUnavailable
  deriving Repr, DecidableEq

/--
Modelled from the spec: `RaftLog` of §4.1 (`log.go` is missing).  `storageSnapshot` is
the snapshot Storage holds, which fixes `firstIndex`; `ents` are the entries from
`firstIndex` on, the stable ones followed by the unstable tail.
-/
structure RaftLog where
  storageSnapshot : Snapshot := {}
  ents : List Entry := []
  committed : Nat := 0
  applied : Nat := 0
  pendingSnapshot : Option Snapshot := none
  deriving Repr, DecidableEq

namespace RaftLog

/-- The index of the last entry folded into the snapshot, `firstIndex − 1`. -/
def snapshotIndex (l : RaftLog) : Nat :=
  l.storageSnapshot.metadata.index

/-- Modelled from the spec: `firstIndex`, one past the snapshot. -/
def firstIndex (l : RaftLog) : Nat :=
  l.snapshotIndex + 1

/-- Modelled from the spec: `LastIndex`; an empty log reports the snapshot boundary. -/
def lastIndex (l : RaftLog) : Nat :=
  l.snapshotIndex + l.ents.length

/-- The entry stored at index `i`, if the log still holds one there. -/
def entryAt (l : RaftLog) (i : Nat) : Option Entry :=
  if l.snapshotIndex < i then l.ents[i - l.firstIndex]? else none

/-- Modelled from the spec: `Term(i)`, failing below `firstIndex − 1` and past `lastIndex`. -/
def term (l : RaftLog) (i : Nat) : Except LogError Nat :=
  if i < l.snapshotIndex then .error .errCompacted
  else if i = l.snapshotIndex then .ok l.storageSnapshot.metadata.term
  else match l.entryAt i with
    | some e => .ok e.term
    | none => .error .errUnavailable

/-- Modelled from the spec: `zeroTermOnRangeErr`, reading a failed lookup as term 0. -/
def zeroTermOnRangeErr : Except LogError Nat → Nat
  | .ok t => t
  | .error _ => 0

/-- Modelled from the spec: `lastTerm`. -/
def lastTerm (l : RaftLog) : Nat :=
  zeroTermOnRangeErr (l.term l.lastIndex)

/-- Modelled from the spec: `Entries(lo)`, the slice `[lo, lastIndex]`. -/
def entries (l : RaftLog) (lo : Nat) : Except LogError (List Entry) :=
  if lo < l.firstIndex then .error .errCompacted else .ok (l.ents.drop (lo - l.firstIndex))

/-- Modelled from the spec: `slice(lo, hi)`, the entries of `[lo, hi)`. -/
def slice (l : RaftLog) (lo hi : Nat) : Except LogError (List Entry) :=
  if lo < l.firstIndex then .error .errCompacted
  else if hi < lo ∨ l.lastIndex + 1 < hi then .error .errUnavailable
  else .ok ((l.ents.drop (lo - l.firstIndex)).take (hi - lo))

/-- Modelled from the spec: `matchTerm`, a failed lookup reading as a mismatch. -/
def matchTerm (l : RaftLog) (i t : Nat) : Bool :=
  match l.term i with
  | .ok t' => t' == t
  | .error _ => false

/-- Modelled from the spec: `isUpToDate`, the voter's check of Raft §5.4.1. -/
def isUpToDate (l : RaftLog) (lasti t : Nat) : Bool :=
  l.lastTerm < t || (t == l.lastTerm && l.lastIndex ≤ lasti)

/-- Modelled from the spec: `findConflict`, the index of the first entry whose term differs. -/
def findConflict (l : RaftLog) : List Entry → Nat
  | [] => 0
  | e :: rest => if l.matchTerm e.index e.term then l.findConflict rest else e.index

/--
Modelled from the spec: `commitTo`.  It never lowers `committed`; committing past the
last index is fatal.
-/
def commitTo (l : RaftLog) (tocommit : Nat) : Except Panic RaftLog :=
  if l.committed < tocommit then
    if l.lastIndex < tocommit then throw (.commitOutOfRange tocommit l.lastIndex)
    else pure { l with committed := tocommit }
  else pure l

/-- `commitTo` only raises `committed`, and only to an index the log holds. -/
theorem commitTo_eq_ok {l l' : RaftLog} {tocommit : Nat} (committedTo : l.commitTo tocommit = .ok l') :
    l' = { l with committed := max l.committed tocommit } ∧
      (l.committed < tocommit → tocommit ≤ l.lastIndex) := by
  unfold commitTo at committedTo
  by_cases raised : l.committed < tocommit
  · by_cases outOfRange : l.lastIndex < tocommit
    · simp [raised, outOfRange] at committedTo
    · simp only [raised, outOfRange, if_true, if_false, pure_eq_ok] at committedTo
      subst l'
      exact ⟨by simp [max_eq_right raised.le], fun _ => Nat.le_of_not_lt outOfRange⟩
  · simp only [raised, if_false, pure_eq_ok] at committedTo
    subst l'
    exact ⟨by simp [max_eq_left (Nat.le_of_not_lt raised)], fun raised' => absurd raised' raised⟩

/-- Modelled from the spec: `appliedTo`; going backward or past `committed` is fatal. -/
def appliedTo (l : RaftLog) (i : Nat) : Except Panic RaftLog :=
  if i = 0 then pure l
  else if l.committed < i ∨ i < l.applied then
    throw (.appliedOutOfRange i l.applied l.committed)
  else pure { l with applied := i }

/--
Modelled from the spec: `append`, which truncates at the first new entry's index and
appends.  Truncating below `committed`, into the snapshot, or leaving a gap is fatal.
-/
def append (l : RaftLog) : List Entry → Except Panic RaftLog
  | [] => pure l
  | e :: rest =>
      if e.index - 1 < l.committed then throw (.appendOutOfRange (e.index - 1) l.committed)
      else if e.index ≤ l.snapshotIndex ∨ l.lastIndex + 1 < e.index then
        throw (.appendNotContiguous e.index l.lastIndex)
      else pure { l with ents := l.ents.take (e.index - l.firstIndex) ++ e :: rest }

/--
Modelled from the spec: `maybeAppend`.  When the entry before the new ones matches,
drop the conflicting suffix (never at or below `committed`), append what is new, and
commit up to `min(committed, lastnewi)`; `none` is the Go `ok = false`.
-/
def maybeAppend (l : RaftLog) (index logTerm committed : Nat) (ents : List Entry) :
    Except Panic (Option (RaftLog × Nat)) := do
  if !l.matchTerm index logTerm then return none
  let lastnewi := index + ents.length
  let ci := l.findConflict ents
  let appended ←
    if ci = 0 then pure l
    else if ci ≤ l.committed then throw (.conflictWithCommitted ci l.committed)
    else if ci < index + 1 ∨ index + 1 + ents.length < ci then throw .sliceBoundsOutOfRange
    else l.append (ents.drop (ci - (index + 1)))
  let log ← appended.commitTo (min committed lastnewi)
  return some (log, lastnewi)

/--
Modelled from the spec: `maybeCommit`, advancing `committed` to `maxIndex` only past
`committed` and only onto an entry of the given term (Raft §5.4.2).
-/
def maybeCommit (l : RaftLog) (maxIndex t : Nat) : Except Panic (RaftLog × Bool) :=
  if l.committed < maxIndex ∧ zeroTermOnRangeErr (l.term maxIndex) = t then
    (·, true) <$> l.commitTo maxIndex
  else pure (l, false)

/--
`append` of entries starting at `e.index` keeps the entries before it and puts the new
ones after them; it returns only when `e.index` is past `committed` and the snapshot and
at most one past the last index.
-/
theorem append_eq_ok {l l' : RaftLog} {e : Entry} {rest : List Entry}
    (appended : l.append (e :: rest) = .ok l') :
    l' = { l with ents := l.ents.take (e.index - l.firstIndex) ++ e :: rest } ∧
      l.committed < e.index ∧ l.snapshotIndex < e.index ∧ e.index ≤ l.lastIndex + 1 := by
  simp only [append] at appended
  split_ifs at appended with belowCommitted outOfBounds
  cases pure_eq_ok.mp appended
  refine ⟨rfl, ?_, ?_, ?_⟩ <;> omega

/-- `maybeCommit` only raises `committed`, to an index the log holds and of the given term. -/
theorem maybeCommit_eq_ok {l l' : RaftLog} {maxIndex t : Nat} {committed : Bool}
    (maybeCommitted : l.maybeCommit maxIndex t = .ok (l', committed)) :
    ∃ c, l' = { l with committed := c } ∧ l.committed ≤ c ∧
      (l.committed < c → c ≤ l.lastIndex ∧ zeroTermOnRangeErr (l.term c) = t) := by
  unfold maybeCommit at maybeCommitted
  split_ifs at maybeCommitted with checks
  · obtain ⟨l'', committedTo, same⟩ := map_eq_ok.mp maybeCommitted
    cases same
    obtain ⟨rfl, inRange⟩ := commitTo_eq_ok committedTo
    refine ⟨maxIndex, by rw [max_eq_right checks.1.le], checks.1.le, fun raised => ?_⟩
    exact ⟨inRange checks.1, checks.2⟩
  · cases (pure_eq_ok.mp maybeCommitted)
    exact ⟨l.committed, rfl, le_rfl, fun raised => absurd raised (lt_irrefl _)⟩

/-- `maybeCommit` moves `committed` to `maxIndex` exactly when that passes its two checks. -/
theorem maybeCommit_committed {l l' : RaftLog} {maxIndex t : Nat} {committed : Bool}
    (maybeCommitted : l.maybeCommit maxIndex t = .ok (l', committed)) :
    l'.committed =
      if l.committed < maxIndex ∧ zeroTermOnRangeErr (l.term maxIndex) = t then maxIndex
      else l.committed := by
  unfold maybeCommit at maybeCommitted
  split_ifs at maybeCommitted with checks
  · obtain ⟨l'', committedTo, same⟩ := map_eq_ok.mp maybeCommitted
    cases same
    rw [(commitTo_eq_ok committedTo).1, if_pos checks]
    exact max_eq_right checks.1.le
  · cases (pure_eq_ok.mp maybeCommitted)
    rw [if_neg checks]

/--
`l'` is `l` with entries appended after its last one and `committed` raised within the
longer log: what a leader does to its own log.
-/
def Extends (l l' : RaftLog) : Prop :=
  ∃ added c, l' = { l with ents := l.ents ++ added, committed := c } ∧ l.committed ≤ c ∧
    (l.committed < c → c ≤ l.lastIndex + added.length)

theorem Extends.refl (l : RaftLog) : l.Extends l :=
  ⟨[], l.committed, by simp, le_rfl, fun raised => absurd raised (lt_irrefl _)⟩

theorem Extends.trans {l₁ l₂ l₃ : RaftLog} (first : l₁.Extends l₂) (second : l₂.Extends l₃) :
    l₁.Extends l₃ := by
  obtain ⟨added, c, rfl, raised, inLog⟩ := first
  obtain ⟨added', c', rfl, raised', inLog'⟩ := second
  simp only [lastIndex, snapshotIndex, List.length_append] at inLog inLog' raised'
  refine ⟨added ++ added', c', by simp, raised.trans raised', fun moved => ?_⟩
  simp only [lastIndex, snapshotIndex, List.length_append]
  by_cases movedSecond : c < c'
  · have := inLog' movedSecond
    omega
  · have := inLog (by omega)
    omega

/-- Appending keeps every entry the log held, and the last index only grows. -/
theorem Extends.entryAt_eq {l l' : RaftLog} (extended : l.Extends l') {i : Nat}
    (held : i ≤ l.lastIndex) : l'.entryAt i = l.entryAt i := by
  obtain ⟨added, c, rfl, -, -⟩ := extended
  simp only [entryAt, snapshotIndex, firstIndex]
  split_ifs with past
  · simp only [lastIndex, snapshotIndex] at held
    exact List.getElem?_append_left (by omega)
  · rfl

theorem Extends.lastIndex_le {l l' : RaftLog} (extended : l.Extends l') :
    l.lastIndex ≤ l'.lastIndex := by
  obtain ⟨added, c, rfl, -, -⟩ := extended
  simp [lastIndex, snapshotIndex]

/-- A log whose `committed` is within it keeps that after it is extended. -/
theorem Extends.committed_le_lastIndex {l l' : RaftLog} (extended : l.Extends l')
    (within : l.committed ≤ l.lastIndex) : l'.committed ≤ l'.lastIndex := by
  obtain ⟨added, c, rfl, raised, inLog⟩ := extended
  simp only [lastIndex, snapshotIndex, List.length_append] at inLog within ⊢
  by_cases moved : l.committed < c
  · have := inLog moved
    omega
  · omega

theorem commitTo_extends {l l' : RaftLog} {tocommit : Nat} (committedTo : l.commitTo tocommit = .ok l') :
    l.Extends l' := by
  obtain ⟨rfl, inRange⟩ := commitTo_eq_ok committedTo
  refine ⟨[], max l.committed tocommit, by simp, le_max_left _ _, fun raised => ?_⟩
  have := inRange (by simpa using raised)
  simp only [List.length_nil, Nat.add_zero]
  omega

theorem maybeCommit_extends {l l' : RaftLog} {maxIndex t : Nat} {committed : Bool}
    (maybeCommitted : l.maybeCommit maxIndex t = .ok (l', committed)) : l.Extends l' := by
  obtain ⟨c, rfl, raised, checked⟩ := maybeCommit_eq_ok maybeCommitted
  exact ⟨[], c, by simp, raised, fun moved => by simpa using (checked moved).1⟩

/-- `append` moves only the entries. -/
theorem append_frame {l l' : RaftLog} {es : List Entry} (appended : l.append es = .ok l') :
    ∃ ents, l' = { l with ents } := by
  cases es with
  | nil => exact ⟨l.ents, (pure_eq_ok.mp appended).symm⟩
  | cons e rest => exact ⟨_, (append_eq_ok appended).1⟩

/-- `maybeAppend` moves only the entries and `committed`. -/
theorem maybeAppend_frame {l l' : RaftLog} {index logTerm committed lastnewi : Nat} {ents : List Entry}
    (appended : l.maybeAppend index logTerm committed ents = .ok (some (l', lastnewi))) :
    ∃ ents₁ c, l' = { l with ents := ents₁, committed := c } := by
  unfold maybeAppend at appended
  simp only [pure_bind] at appended
  split at appended
  · simp at appended
  obtain ⟨l₁, ⟨ents₁, rfl⟩, committedTo⟩ : ∃ l₁, (∃ ents₁, l₁ = { l with ents := ents₁ }) ∧
      l₁.commitTo (min committed (index + ents.length)) = .ok l' := by
    split_ifs at appended <;> try simp only [throw_bind, throw_ne_ok] at appended
    · obtain ⟨l₂, committedTo, rest⟩ := bind_eq_ok.mp appended
      cases pure_eq_ok.mp rest
      exact ⟨l, ⟨l.ents, rfl⟩, committedTo⟩
    · obtain ⟨l₁, cut, rest⟩ := bind_eq_ok.mp appended
      obtain ⟨l₂, committedTo, rest⟩ := bind_eq_ok.mp rest
      cases pure_eq_ok.mp rest
      exact ⟨l₁, append_frame cut, committedTo⟩
  obtain ⟨rfl, -⟩ := commitTo_eq_ok committedTo
  exact ⟨ents₁, _, rfl⟩

/-- `appliedTo` moves only `applied`. -/
theorem appliedTo_frame {l l' : RaftLog} {i : Nat} (applied : l.appliedTo i = .ok l') :
    ∃ a, l' = { l with applied := a } := by
  unfold appliedTo at applied
  split_ifs at applied
  · exact ⟨l.applied, (pure_eq_ok.mp applied).symm⟩
  · exact ⟨i, (pure_eq_ok.mp applied).symm⟩

/--
Modelled from the spec: `restore`: drop every entry and stand on the snapshot, which
becomes both the pending snapshot and the new `firstIndex − 1` and `committed`.
-/
def restore (l : RaftLog) (s : Snapshot) : RaftLog :=
  { l with
    storageSnapshot := s
    ents := []
    committed := s.metadata.index
    pendingSnapshot := some s }

/--
Modelled from the spec: `snapshot()`, the pending snapshot if any, else the one Storage
holds; an empty one is not yet generated and reads as temporarily unavailable.
-/
def snapshot (l : RaftLog) : Except LogError Snapshot :=
  match l.pendingSnapshot with
  | some s => .ok s
  | none =>
      if l.storageSnapshot.metadata.index = 0 then .error .errSnapshotTemporarilyUnavailable
      else .ok l.storageSnapshot

/-- Moving the entries and the indices leaves the snapshot where it was. -/
@[simp] theorem snapshot_frame (l : RaftLog) (ents : List Entry) (committed applied : Nat) :
    ({ l with ents, committed, applied } : RaftLog).snapshot = l.snapshot :=
  rfl

theorem Extends.snapshot_eq {l l' : RaftLog} (extended : l.Extends l') : l'.snapshot = l.snapshot := by
  obtain ⟨added, c, rfl, -⟩ := extended
  rfl

/-- An entry the log holds is at or below its last index. -/
theorem le_lastIndex_of_entryAt {l : RaftLog} {i : Nat} {e : Entry} (held : l.entryAt i = some e) :
    i ≤ l.lastIndex := by
  unfold entryAt at held
  split_ifs at held with past
  have := (List.getElem?_eq_some_iff.mp held).1
  simp only [firstIndex, lastIndex] at this ⊢
  omega

theorem Extends.entryAt_of_held {l l' : RaftLog} (extended : l.Extends l') {i : Nat} {e : Entry}
    (held : l.entryAt i = some e) : l'.entryAt i = some e :=
  (extended.entryAt_eq (le_lastIndex_of_entryAt held)).trans held

/-- Appending keeps the term of every index the log could answer for. -/
theorem Extends.term_eq {l l' : RaftLog} (extended : l.Extends l') {i t : Nat}
    (found : l.term i = .ok t) : l'.term i = .ok t := by
  have sameSnapshot : l'.storageSnapshot = l.storageSnapshot := by
    obtain ⟨added, c, rfl, -⟩ := extended
    rfl
  unfold term at found ⊢
  simp only [snapshotIndex, sameSnapshot] at found ⊢
  split_ifs at found ⊢
  · exact found
  · cases held : l.entryAt i with
    | none => simp [held] at found
    | some e =>
        rw [extended.entryAt_of_held held]
        simpa [held] using found

/-- Appending lengthens every slice that runs to the end of the log. -/
theorem Extends.entries_eq {l l' : RaftLog} (extended : l.Extends l') {lo : Nat} {es : List Entry}
    (sliced : l.entries lo = .ok es) : ∃ added, l'.entries lo = .ok (es ++ added) := by
  obtain ⟨added, c, rfl, -⟩ := extended
  simp only [entries, firstIndex, snapshotIndex] at sliced ⊢
  split_ifs at sliced ⊢ with below
  cases sliced
  exact ⟨_, congrArg Except.ok List.drop_append_eq_append_drop⟩

/--
`l'` extends `l`, and every entry past `l`'s last index is of term `term` and carries its
own index: what `appendEntry` does to a leader's log.
-/
def Stamped (term : Nat) (l l' : RaftLog) : Prop :=
  l.Extends l' ∧ ∀ i e, l.lastIndex < i → l'.entryAt i = some e → e.term = term ∧ e.index = i

/-- Past its last index a log holds nothing. -/
theorem entryAt_eq_none {l : RaftLog} {i : Nat} (past : l.lastIndex < i) : l.entryAt i = none := by
  cases held : l.entryAt i with
  | none => rfl
  | some e => exact absurd (le_lastIndex_of_entryAt held) (Nat.not_le.mpr past)

/-- Extending a log without new entries stamps nothing. -/
theorem Extends.stamped_of_ents_eq {l l' : RaftLog} (extended : l.Extends l') (same : l'.ents = l.ents)
    (term : Nat) : l.Stamped term l' := by
  refine ⟨extended, fun i e past held => ?_⟩
  have within := le_lastIndex_of_entryAt held
  obtain ⟨added, c, rfl, -⟩ := extended
  have noneAdded : l.ents ++ added = l.ents := same
  simp only [lastIndex, snapshotIndex, noneAdded] at within past
  omega

theorem Stamped.refl (term : Nat) (l : RaftLog) : l.Stamped term l :=
  (Extends.refl l).stamped_of_ents_eq rfl term

theorem Stamped.trans {term : Nat} {l₁ l₂ l₃ : RaftLog} (first : l₁.Stamped term l₂)
    (second : l₂.Stamped term l₃) : l₁.Stamped term l₃ := by
  refine ⟨first.1.trans second.1, fun i e past held => ?_⟩
  by_cases within : i ≤ l₂.lastIndex
  · exact first.2 i e past ((second.1.entryAt_eq within).symm.trans held)
  · exact second.2 i e (Nat.lt_of_not_le within) held

end RaftLog

end TinyKVRaft
