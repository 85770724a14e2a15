import TinyKVRaft.ApplierExec

namespace TinyKVRaft.Raftstore.Exec

/-!
# What applying committed entries does to a region, its apply state and its writes

One lemma says what executing a command can do (`execRaftCmd_executes`): the applier keeps
its id, region and apply state, the batch gains only writes to keys inside the region, the
execution's apply state truncates the log at most up to its applied index, and a result is a
change of peers or a split of the region it was made from.  `applyRaftCmd_applies` carries it
to one applied entry, `commit_eq` says what `commit` does after it, and
`handleRaftCommittedEntries_runs` carries both to every run of the apply loop, from which
follow how the region evolves, the bounds of the apply state, and that every write of the run
lies in the region the run started from.
-/

open RaftCmdpb (AdminRequest Request)

namespace Applier

/-- What an exec result says of the region it was made from. -/
def ResultFrom (region : Metapb.Region) : Option ExecResult → Prop
  | some (.changePeer changed _) => ∃ peers, changed = changedRegion region peers
  | some (.splitRegion regions derived) =>
    ∃ splitKey newRegion, region.startKey < splitKey ∧ region.Contains splitKey ∧ regions = [newRegion, derived] ∧
      derived = { region with regionEpoch := newRegion.regionEpoch, startKey := splitKey } ∧
      newRegion.startKey = region.startKey ∧ newRegion.endKey = splitKey ∧
      newRegion.regionEpoch = { region.regionEpoch with version := region.regionEpoch.version + 1 } ∧
      newRegion.peers.map (·.storeId) = region.peers.map (·.storeId)
  | some (.compactLog ..) | none => True

/-- The region an exec result leaves evolves from the region it was made from. -/
theorem regionAfter_evolves {region : Metapb.Region} {result : Option ExecResult}
    (made : ResultFrom region result) : region.Evolves (regionAfter region result) := by
  match result, made with
  | some (.changePeer _ _), ⟨peers, changed⟩ => exact changed ▸ region.evolves_changePeers peers
  | some (.splitRegion _ _), ⟨_, _, past, inside, _, derived, _, _, epoch, _⟩ =>
    rw [regionAfter, derived, epoch]
    exact region.evolves_split past inside
  | some (.compactLog ..), _ => exact .refl region
  | none, _ => exact .refl region

/-! ## Executing one command -/

/--
What executing a command can do: the applier keeps its id, region and apply state; the
engine and the applied index `prepareFor` read are unchanged; the batch gains only writes
to keys inside the region; the
execution's apply state stays, or truncates the log past its first index and at most to its
applied index; and a result is a change of peers or a split of the region.
-/
structure Executes (a a₁ : Applier) (ctx ctx₁ : ApplyContext)
    (r : Except ApplyError (CmdResponse × Option ExecResult)) : Prop where
  applier : a₁ = { a with pendingRemove := a₁.pendingRemove }
  kv : ctx₁.kv = ctx.kv
  lastApplied : ctx₁.lastAppliedIndex = ctx.lastAppliedIndex
  writes : ∃ added, ctx₁.wb = { ctx.wb with entries := ctx.wb.entries ++ added } ∧
    ∀ m ∈ added, ∀ key, m.dataKey = some key → a.region.Contains key
  applyState : ctx₁.applyState = ctx.applyState ∨
    ctx.applyState.truncatedState.index < ctx₁.applyState.truncatedState.index ∧
      ctx₁.applyState.truncatedState.index ≤ ctx.applyState.appliedIndex ∧
      ctx₁.applyState = { ctx.applyState with truncatedState := ctx₁.applyState.truncatedState }
  result : ∀ resp result, r = .ok (resp, result) → ResultFrom a.region result

/-- An execution that changes nothing and results in nothing of the region. -/
theorem Executes.unchanged (a : Applier) (ctx : ApplyContext) {r : Except ApplyError (CmdResponse × Option ExecResult)}
    (nothing : ∀ resp result, r = .ok (resp, result) → result = none) : Executes a a ctx ctx r where
  applier := rfl
  kv := rfl
  lastApplied := rfl
  writes := ⟨[], by simp, by simp⟩
  applyState := .inl rfl
  result resp result done := by rw [nothing resp result done]; trivial

/-- Every write of the in-region writes of a list of requests is to a key of the region. -/
theorem writesIn_inside {region : Metapb.Region} :
    ∀ {reqs : List Request} {m : Modify}, m ∈ writesIn region reqs →
      ∀ key, m.dataKey = some key → region.Contains key
  | [], _, mem, _, _ => by simp [writesIn] at mem
  | req :: reqs, m, mem, key, written => by
    have rest : m ∈ writesIn region reqs → region.Contains key := fun mem => writesIn_inside mem key written
    cases kind : req.cmdType <;> simp only [writesIn, kind] at mem
    case put | delete =>
      split_ifs at mem with inside
      · rcases List.mem_cons.mp mem with rfl | mem
        · cases written
          exact inside
        · exact rest mem
      · exact rest mem
    all_goals exact rest mem

theorem execNormalCmd_executes {a : Applier} {ctx ctx₁ : ApplyContext} {req : RaftCmdpb.RaftCmdRequest} {txn : Bool}
    {r : Except ApplyError CmdResponse} (done : a.execNormalCmd ctx req = .ok (ctx₁, txn, r)) :
    Executes a a ctx ctx₁ (r.map fun resp => (resp, none)) where
  applier := rfl
  kv := by rw [(execNormalCmd_eq_ok done).1]
  lastApplied := by rw [(execNormalCmd_eq_ok done).1]
  writes := ⟨_, by rw [(execNormalCmd_eq_ok done).1], fun _ => writesIn_inside⟩
  applyState := .inl (by rw [(execNormalCmd_eq_ok done).1])
  result resp result mapped := by
    obtain ⟨_, -, finished⟩ := map_eq_ok.mp mapped
    cases finished
    trivial

theorem execAdminCmd_executes {a a₁ : Applier} {ctx ctx₁ : ApplyContext} {adminReq : AdminRequest}
    {r : Except ApplyError (CmdResponse × Option ExecResult)} (done : a.execAdminCmd ctx adminReq = .ok (a₁, ctx₁, r)) :
    Executes a a₁ ctx ctx₁ r := by
  unfold execAdminCmd at done
  cases kind : adminReq.cmdType <;> simp only [kind] at done
  case changePeer =>
    split at done
    · exact absurd done throw_ne_ok
    rename_i request _
    rcases execChangePeer_cases a ctx request with ⟨err, failed⟩ | ⟨peers, pendingRemove, changed⟩
    · rw [failed] at done
      cases pure_eq_ok.mp done
      exact .unchanged a ctx fun _ _ => nofun
    · rw [changed] at done
      cases pure_eq_ok.mp done
      exact ⟨rfl, rfl, rfl, ⟨_, rfl, by simp [Modify.dataKey]⟩, .inl rfl, fun _ _ made => by cases made; exact ⟨peers, rfl⟩⟩
  case split =>
    split at done
    · exact absurd done throw_ne_ok
    rename_i splitReq _
    rcases execSplit_cases a ctx splitReq with ⟨err, failed⟩ | ⟨past, inside, newRegion, _, start, stop, epoch, stores, -, split⟩
    · rw [failed] at done
      cases pure_eq_ok.mp done
      exact .unchanged a ctx fun _ _ => nofun
    · rw [split] at done
      cases pure_eq_ok.mp done
      open WriteBatch in
      exact ⟨rfl, rfl, rfl, ⟨_, by simp only [writeRegionState, writeInitialApplyState, List.append_assoc]; rfl,
        by simp [Modify.dataKey]⟩, .inl rfl,
        fun _ _ made => by cases made; exact ⟨_, newRegion, past, inside, rfl, rfl, start, stop, epoch, stores⟩⟩
  case compactLog =>
    split at done
    · exact absurd done throw_ne_ok
    rename_i compactReq _
    rcases execCompactLog_cases ctx compactReq with failed | kept | ⟨first, applied, -, truncated⟩
    · rw [failed] at done
      cases pure_eq_ok.mp done
      exact .unchanged a ctx fun _ _ => nofun
    · rw [kept] at done
      cases pure_eq_ok.mp done
      exact .unchanged a ctx fun _ _ made => by cases made; rfl
    · rw [truncated] at done
      cases pure_eq_ok.mp done
      exact ⟨rfl, rfl, rfl, ⟨[], by simp, by simp⟩, .inr ⟨by dsimp only; omega, applied, rfl⟩,
        fun _ _ made => by cases made; trivial⟩
  all_goals
    cases pure_eq_ok.mp done
    exact .unchanged a ctx fun _ _ => nofun

section Apply

variable {checkRegionEpoch : RaftCmdpb.RaftCmdRequest → Metapb.Region → Bool}

/-- Executing a command does no more than `Executes` says, whatever the epoch check decides. -/
theorem execRaftCmd_executes {a a₁ : Applier} {ctx ctx₁ : ApplyContext} {req : RaftCmdpb.RaftCmdRequest} {txn : Bool}
    {r : Except ApplyError (CmdResponse × Option ExecResult)}
    (done : a.execRaftCmd checkRegionEpoch ctx req = .ok (a₁, ctx₁, txn, r)) : Executes a a₁ ctx ctx₁ r := by
  unfold execRaftCmd at done
  split_ifs at done
  · cases pure_eq_ok.mp done
    exact .unchanged a ctx fun _ _ => nofun
  split at done
  · obtain ⟨⟨a₂, ctx₂, r₂⟩, admin, finished⟩ := bind_eq_ok.mp done
    cases pure_eq_ok.mp finished
    exact execAdminCmd_executes admin
  · obtain ⟨⟨ctx₂, txn₂, r₂⟩, normal, finished⟩ := bind_eq_ok.mp done
    cases pure_eq_ok.mp finished
    exact execNormalCmd_executes normal

/-! ## Applying one entry -/

/--
`applyRaftCmd` runs only on an applier not being removed.  It executes the command from a
safe point of the batch with the applier's apply state; a success is kept, an error rolled
back to the safe point with no transaction and no result.  The index becomes the applied
index, and the result's region the applier's.
-/
theorem applyRaftCmd_eq_ok {a a' : Applier} {ctx ctx' : ApplyContext} {index : Nat}
    {req : RaftCmdpb.RaftCmdRequest} {resp : CmdResponse} {txn : Bool} {result : Option ExecResult}
    (done : a.applyRaftCmd checkRegionEpoch ctx index req = .ok (a', ctx', resp, txn, result)) :
    a.pendingRemove = false ∧ ∃ a₁ ctx₁ txn₁ r,
      a.execRaftCmd checkRegionEpoch { ctx with applyState := a.applyState, wb := ctx.wb.setSafePoint } req =
        .ok (a₁, ctx₁, txn₁, r) ∧
      a' = { a₁ with applyState := { ctx₁.applyState with appliedIndex := index }, region := regionAfter a₁.region result } ∧
      (r = .ok (resp, result) ∧ ctx' = ctx₁ ∧ txn = txn₁ ∨
        ∃ err, r = .error err ∧ ctx' = { ctx₁ with wb := ctx₁.wb.rollbackToSafePoint } ∧ resp = .error err ∧
          txn = false ∧ result = none) := by
  unfold applyRaftCmd at done
  split_ifs at done with removed
  · exact absurd done throw_ne_ok
  obtain ⟨_, -, done⟩ := bind_eq_ok.mp done
  obtain ⟨⟨a₁, ctx₁, txn₁, r⟩, executed, finished⟩ := bind_eq_ok.mp done
  refine ⟨by simpa using removed, a₁, ctx₁, txn₁, r, executed, ?_⟩
  rcases r with err | ⟨resp₁, result₁⟩ <;> cases pure_eq_ok.mp finished
  · exact ⟨rfl, .inr ⟨err, rfl, rfl, rfl, rfl, rfl⟩⟩
  · exact ⟨rfl, .inl ⟨rfl, rfl, rfl⟩⟩

/--
What applying one entry does: the applier keeps its id, its region evolves, the entry's index
becomes the applied index, and the truncated state stays or moves forward to at most the
applied index before the entry; the engine and the applied index `prepareFor` read are
unchanged, and the batch gains only writes to keys of the region.
-/
structure Applies (a a' : Applier) (ctx ctx' : ApplyContext) (index : Nat) : Prop where
  id_eq : a'.id = a.id
  region : a.region.Evolves a'.region
  appliedIndex : a'.applyState.appliedIndex = index
  truncated : a'.applyState.truncatedState = a.applyState.truncatedState ∨
    a.applyState.truncatedState.index < a'.applyState.truncatedState.index ∧
      a'.applyState.truncatedState.index ≤ a.applyState.appliedIndex
  kv : ctx'.kv = ctx.kv
  lastApplied : ctx'.lastAppliedIndex = ctx.lastAppliedIndex
  writes : ∃ added, ctx'.wb.entries = ctx.wb.entries ++ added ∧
    ∀ m ∈ added, ∀ key, m.dataKey = some key → a.region.Contains key

/-- Applying a command does what `Applies` says; a failed execution leaves only its index applied. -/
theorem applyRaftCmd_applies {a a' : Applier} {ctx ctx' : ApplyContext} {index : Nat}
    {req : RaftCmdpb.RaftCmdRequest} {resp : CmdResponse} {txn : Bool} {result : Option ExecResult}
    (done : a.applyRaftCmd checkRegionEpoch ctx index req = .ok (a', ctx', resp, txn, result)) :
    Applies a a' ctx ctx' index := by
  obtain ⟨-, a₁, ctx₁, txn₁, r, executed, rfl, finished⟩ := applyRaftCmd_eq_ok done
  have executes := execRaftCmd_executes executed
  obtain ⟨added, wb, inside⟩ := executes.writes
  have truncated : (ctx₁.applyState.truncatedState = a.applyState.truncatedState ∨
      a.applyState.truncatedState.index < ctx₁.applyState.truncatedState.index ∧
        ctx₁.applyState.truncatedState.index ≤ a.applyState.appliedIndex) := by
    rcases executes.applyState with same | ⟨forward, bounded, -⟩
    · exact .inl (by rw [same])
    · exact .inr ⟨forward, bounded⟩
  rw [executes.applier]
  rcases finished with ⟨rfl, rfl, -⟩ | ⟨err, rfl, rfl, -, -, rfl⟩
  · exact ⟨rfl, regionAfter_evolves (executes.result _ _ rfl), rfl, truncated, executes.kv, executes.lastApplied,
      ⟨added, by rw [wb]; rfl, inside⟩⟩
  · exact ⟨rfl, .refl a.region, rfl, truncated, executes.kv, executes.lastApplied,
      ⟨[], by simp [wb, WriteBatch.rollbackToSafePoint, WriteBatch.setSafePoint], by simp⟩⟩

/-- `processRaftCmd` returns only at a nonzero index, with what `applyRaftCmd` returns. -/
theorem processRaftCmd_eq_ok {a a' : Applier} {ctx ctx' : ApplyContext} {index : Nat}
    {cmd : RaftCmdpb.RaftCmdRequest} (done : a.processRaftCmd checkRegionEpoch ctx index cmd = .ok (a', ctx')) :
    index ≠ 0 ∧ ∃ resp txn result, a.applyRaftCmd checkRegionEpoch ctx index cmd = .ok (a', ctx', resp, txn, result) := by
  unfold processRaftCmd at done
  split_ifs at done with nonzero
  obtain ⟨⟨a₁, ctx₁, resp, txn, result⟩, applied, finished⟩ := bind_eq_ok.mp done
  cases pure_eq_ok.mp finished
  exact ⟨nonzero, resp, txn, result, applied⟩

theorem processRaftCmd_applies {a a' : Applier} {ctx ctx' : ApplyContext} {index : Nat}
    {cmd : RaftCmdpb.RaftCmdRequest} (done : a.processRaftCmd checkRegionEpoch ctx index cmd = .ok (a', ctx')) :
    Applies a a' ctx ctx' index :=
  have ⟨_, _, _, _, applied⟩ := processRaftCmd_eq_ok done
  applyRaftCmd_applies applied

variable {unmarshal : List Nat → Option RaftCmdpb.RaftCmdRequest}

theorem handleRaftEntry_applies {a a' : Applier} {ctx ctx' : ApplyContext} {entry : Entry}
    (done : a.handleRaftEntry checkRegionEpoch unmarshal ctx entry = .ok (a', ctx')) :
    Applies a a' ctx ctx' entry.index := by
  unfold handleRaftEntry at done
  split at done
  · split_ifs at done
    · split at done
      · exact processRaftCmd_applies done
      · exact absurd done throw_ne_ok
    · cases pure_eq_ok.mp done
      exact ⟨rfl, .refl a.region, rfl, .inl rfl, rfl, rfl, ⟨[], by simp, by simp⟩⟩
  · split at done
    · exact processRaftCmd_applies done
    · exact absurd done throw_ne_ok

/-! ## Runs of the apply loop -/

/--
What a run of the apply loop keeps: the applier's id; its region evolves; the applied and
truncated indices only grow, and the log is never truncated past what is applied.  What the
engine has been written and what the batch holds extend what they had by writes to keys of
the region the run started with and by meta records, and the engine's data changes only at
keys written to it.
-/
structure Runs (a a' : Applier) (ctx ctx' : ApplyContext) : Prop where
  id_eq : a'.id = a.id
  region : a.region.Evolves a'.region
  applied_le : a.applyState.appliedIndex ≤ a'.applyState.appliedIndex
  truncated_le : a.applyState.truncatedState.index ≤ a'.applyState.truncatedState.index
  bounded : a.applyState.truncatedState.index ≤ a.applyState.appliedIndex →
    a'.applyState.truncatedState.index ≤ a'.applyState.appliedIndex
  writes : ∃ added, ctx'.kv.written ++ ctx'.wb.entries = ctx.kv.written ++ ctx.wb.entries ++ added ∧
    ∀ m ∈ added, ∀ key, m.dataKey = some key → a.region.Contains key
  engine : ∃ ms, ctx'.kv.written = ctx.kv.written ++ ms ∧
    ∀ cf key, (∀ m ∈ ms, m.dataKey ≠ some key) → ctx'.kv.data cf key = ctx.kv.data cf key

theorem Runs.refl (a : Applier) (ctx : ApplyContext) : Runs a a ctx ctx :=
  ⟨rfl, .refl a.region, le_rfl, le_rfl, fun bounded => bounded, ⟨[], by simp, by simp⟩,
    ⟨[], by simp, fun _ _ _ => rfl⟩⟩

theorem Runs.trans {a a₁ a' : Applier} {ctx ctx₁ ctx' : ApplyContext} (first : Runs a a₁ ctx ctx₁)
    (second : Runs a₁ a' ctx₁ ctx') : Runs a a' ctx ctx' := by
  obtain ⟨added₁, log₁, inside₁⟩ := first.writes
  obtain ⟨added₂, log₂, inside₂⟩ := second.writes
  obtain ⟨ms₁, written₁, data₁⟩ := first.engine
  obtain ⟨ms₂, written₂, data₂⟩ := second.engine
  refine ⟨second.id_eq.trans first.id_eq, first.region.trans second.region,
    first.applied_le.trans second.applied_le, first.truncated_le.trans second.truncated_le,
    second.bounded ∘ first.bounded, ⟨added₁ ++ added₂, by rw [log₂, log₁]; simp, ?_⟩,
    ⟨ms₁ ++ ms₂, by rw [written₂, written₁, List.append_assoc], fun cf key untouched =>
      (data₂ cf key fun m mem => untouched m (List.mem_append_right _ mem)).trans
        (data₁ cf key fun m mem => untouched m (List.mem_append_left _ mem))⟩⟩
  simp only [List.mem_append]
  rintro m (mem | mem) key written
  · exact inside₁ m mem key written
  · exact first.region.within key (inside₂ m mem key written)

/-- An entry applied at an index past the applied one is a run. -/
theorem Applies.runs {a a' : Applier} {ctx ctx' : ApplyContext} {index : Nat} (applies : Applies a a' ctx ctx' index)
    (later : a.applyState.appliedIndex ≤ index) : Runs a a' ctx ctx' := by
  have applied := applies.appliedIndex
  obtain ⟨added, wb, inside⟩ := applies.writes
  refine ⟨applies.id_eq, applies.region, by omega, ?_, fun _ => ?_,
    ⟨added, by rw [applies.kv, wb, List.append_assoc], inside⟩,
    ⟨[], by rw [applies.kv, List.append_nil], fun _ _ _ => by rw [applies.kv]⟩⟩ <;>
    rcases applies.truncated with same | ⟨forward, bounded⟩
  · rw [same]
  · exact forward.le
  · rw [same]; omega
  · omega

/--
Between two entries of the loop: the applied index `prepareFor` read is the applier's, and
the engine holds its apply state.
-/
structure Prepared (a : Applier) (ctx : ApplyContext) : Prop where
  lastApplied : ctx.lastAppliedIndex = a.applyState.appliedIndex
  stored : ctx.kv.applyStates a.region.id = some a.applyState

/--
After an entry applied past the index `prepareFor` read, `commit` adds the apply state to
the batch, writes the batch to the engine and empties it, and reads back the apply state it
wrote, leaving the applier as it was.
-/
theorem commit_eq {a : Applier} {ctx : ApplyContext} (moved : ctx.lastAppliedIndex < a.applyState.appliedIndex) :
    ctx.commit a = .ok (a, { ctx with
      kv := (a.writeApplyState ctx.wb).writeToDB ctx.kv, wb := {}, lastAppliedIndex := a.applyState.appliedIndex }) := by
  unfold ApplyContext.commit ApplyContext.commitOpt ApplyContext.writeToDB ApplyContext.prepareFor
  simp only [if_pos moved, if_true, writeToDB_writeApplyState]
  rfl

/-- What `commit` writes to the engine is the batch, with the apply state last. -/
theorem commit_runs (a : Applier) (ctx : ApplyContext) :
    Runs a a ctx { ctx with
      kv := (a.writeApplyState ctx.wb).writeToDB ctx.kv, wb := {}, lastAppliedIndex := a.applyState.appliedIndex } where
  id_eq := rfl
  region := .refl a.region
  applied_le := le_rfl
  truncated_le := le_rfl
  bounded := fun bounded => bounded
  writes := ⟨[.applyState a.region.id a.applyState],
    by simp [WriteBatch.writeToDB, foldl_write_written, Applier.writeApplyState], by simp [Modify.dataKey]⟩
  engine := ⟨(a.writeApplyState ctx.wb).entries, foldl_write_written _ _, fun cf _ untouched =>
    foldl_write_data cf _ _ untouched⟩

/-- One round of the loop: the entry, then `commit`, which empties the batch and keeps the applier. -/
theorem applyEntry_runs {a a₁ a₂ : Applier} {ctx ctx₁ ctx₂ : ApplyContext} {entry : Entry}
    (prepared : Prepared a ctx) (next : a.applyState.appliedIndex + 1 = entry.index)
    (handled : a.handleRaftEntry checkRegionEpoch unmarshal ctx entry = .ok (a₁, ctx₁))
    (committed : ctx₁.commit a₁ = .ok (a₂, ctx₂)) :
    a₂ = a₁ ∧ Runs a a₂ ctx ctx₂ ∧ Prepared a₂ ctx₂ ∧ ctx₂.wb.entries = [] := by
  have applies := handleRaftEntry_applies handled
  have moved : ctx₁.lastAppliedIndex < a₁.applyState.appliedIndex := by
    rw [applies.lastApplied, prepared.lastApplied, applies.appliedIndex]
    omega
  rw [commit_eq moved] at committed
  cases committed
  exact ⟨rfl, (applies.runs (by omega)).trans (commit_runs a₁ ctx₁), ⟨rfl, writeToDB_writeApplyState a₁ _ _⟩, rfl⟩

/--
Every run of the loop from a prepared applier is a `Runs`, ends prepared, and applies each
entry at the index after the last; once an entry is applied the batch is empty.
-/
theorem applyEntries_runs :
    ∀ {a a' : Applier} {ctx ctx' : ApplyContext} {entries : List Entry}, Prepared a ctx →
      a.applyEntries checkRegionEpoch unmarshal ctx entries = .ok (a', ctx') →
      Runs a a' ctx ctx' ∧ Prepared a' ctx' ∧
        (ctx.wb.entries = [] ∨ a.pendingRemove = false ∧ entries ≠ [] → ctx'.wb.entries = []) ∧
        (a'.pendingRemove = false → a'.applyState.appliedIndex = a.applyState.appliedIndex + entries.length)
  | a, a', ctx, ctx', [], prepared, done => by
    cases pure_eq_ok.mp done
    exact ⟨.refl a ctx, prepared, fun emptied => emptied.resolve_right fun ⟨_, nonempty⟩ => nonempty rfl,
      fun _ => rfl⟩
  | a, a', ctx, ctx', entry :: rest, prepared, done => by
    unfold applyEntries at done
    split_ifs at done with removed mismatch
    · cases pure_eq_ok.mp done
      exact ⟨.refl a ctx, prepared, fun emptied => emptied.resolve_right fun ⟨kept, _⟩ => by simp [kept] at removed,
        fun kept => by simp [kept] at removed⟩
    obtain ⟨⟨a₁, ctx₁⟩, handled, rest'⟩ := bind_eq_ok.mp done
    obtain ⟨⟨a₂, ctx₂⟩, committed, continued⟩ := bind_eq_ok.mp rest'
    obtain ⟨rfl, runs₂, prepared₂, emptied₂⟩ := applyEntry_runs prepared (by omega) handled committed
    obtain ⟨runs', prepared', emptied', counted'⟩ := applyEntries_runs prepared₂ continued
    refine ⟨runs₂.trans runs', prepared', fun _ => emptied' (.inl emptied₂), fun kept => ?_⟩
    rw [counted' kept, (handleRaftEntry_applies handled).appliedIndex, List.length_cons]
    omega

/--
`handleRaftCommittedEntries` returns the applier as it came for no entries; otherwise
`prepareFor` read an apply state for the region, the loop ran from it, and `finishFor` added
the final apply state to the batch unless the peer is being removed.
-/
theorem handleRaftCommittedEntries_eq_ok {a a' : Applier} {ctx ctx' : ApplyContext} {entries : List Entry}
    (done : a.handleRaftCommittedEntries checkRegionEpoch unmarshal ctx entries = .ok (a', ctx')) :
    entries = [] ∧ a' = a ∧ ctx' = ctx ∨
      entries ≠ [] ∧ ∃ applyState a₁ ctx₁, ctx.kv.applyStates a.region.id = some applyState ∧
        { a with applyState }.applyEntries checkRegionEpoch unmarshal
          { ctx with lastAppliedIndex := applyState.appliedIndex } entries = .ok (a₁, ctx₁) ∧
        a' = a₁ ∧ ctx' = if !a₁.pendingRemove then { ctx₁ with wb := a₁.writeApplyState ctx₁.wb } else ctx₁ := by
  unfold handleRaftCommittedEntries at done
  split_ifs at done with empty
  · cases pure_eq_ok.mp done
    exact .inl ⟨empty, rfl, rfl⟩
  obtain ⟨⟨a₀, ctx₀⟩, prepared, rest⟩ := bind_eq_ok.mp done
  unfold ApplyContext.prepareFor at prepared
  split at prepared
  · rename_i applyState stored
    cases pure_eq_ok.mp prepared
    obtain ⟨⟨a₁, ctx₁⟩, looped, finished⟩ := bind_eq_ok.mp rest
    unfold ApplyContext.finishFor ApplyContext.commitOpt at finished
    cases pure_eq_ok.mp finished
    exact .inr ⟨empty, applyState, _, _, stored, looped, rfl, rfl⟩
  · exact absurd prepared throw_ne_ok

/-- `finishFor` leaves the applier and the engine, and adds to the batch only the apply state. -/
theorem finished_runs (a : Applier) (ctx : ApplyContext) :
    Runs a a ctx (if !a.pendingRemove then { ctx with wb := a.writeApplyState ctx.wb } else ctx) := by
  split
  · exact ⟨rfl, .refl a.region, le_rfl, le_rfl, fun bounded => bounded,
      ⟨[.applyState a.region.id a.applyState], by simp [Applier.writeApplyState], by simp [Modify.dataKey]⟩,
      ⟨[], by simp, fun _ _ _ => rfl⟩⟩
  · exact .refl a ctx

/--
Every run of the apply loop, from the applier with the apply state `prepareFor` read (its
own when there are no entries), is a `Runs`; unless this peer was removed, each entry was
applied at the index after the last.  After a run over entries the engine holds the final
apply state, and, when the peer was not being removed, every write of the run has reached
the engine and the batch holds only the apply state `finishFor` added.
-/
theorem handleRaftCommittedEntries_runs {a a' : Applier} {ctx ctx' : ApplyContext} {entries : List Entry}
    (done : a.handleRaftCommittedEntries checkRegionEpoch unmarshal ctx entries = .ok (a', ctx')) :
    ∃ applyState, (entries = [] → applyState = a.applyState) ∧
      (entries ≠ [] → ctx.kv.applyStates a.region.id = some applyState) ∧
      Runs { a with applyState } a' ctx ctx' ∧
      (a'.pendingRemove = false → a'.applyState.appliedIndex = applyState.appliedIndex + entries.length) ∧
      (entries ≠ [] → ctx'.kv.applyStates a'.region.id = some a'.applyState ∧
        (a.pendingRemove = false →
          ctx'.wb.entries = if a'.pendingRemove then [] else [.applyState a'.region.id a'.applyState])) := by
  rcases handleRaftCommittedEntries_eq_ok done with ⟨rfl, rfl, rfl⟩ |
      ⟨nonempty, applyState, a₁, ctx₁, stored, looped, rfl, rfl⟩
  · exact ⟨_, fun _ => rfl, fun nonempty => absurd rfl nonempty, .refl _ _, fun _ => rfl,
      fun nonempty => absurd rfl nonempty⟩
  have prepared₀ : Prepared { a with applyState } { ctx with lastAppliedIndex := applyState.appliedIndex } :=
    ⟨rfl, stored⟩
  obtain ⟨runs, prepared, emptied, counted⟩ := applyEntries_runs prepared₀ looped
  -- A run reads only the engine and the batch, not the applied index `prepareFor` read.
  have runs : Runs { a with applyState } a' ctx ctx₁ := { runs with }
  refine ⟨applyState, fun empty => absurd empty nonempty, fun _ => stored,
    runs.trans (finished_runs _ _), counted, fun _ => ⟨?_, fun kept => ?_⟩⟩
  · split <;> exact prepared.stored
  · cases removed : a'.pendingRemove <;>
      simp [removed, emptied (.inr ⟨kept, nonempty⟩), Applier.writeApplyState]

/-! ## What every run of the apply loop keeps

The statements are checked on one run: the applier of region `[[1], [9])`, at applied and
truncated index 5, applies a split at `[5]`, then a command with a put outside and a put
inside the derived region, then the empty entry of a new leader.
-/

/-- Region 1 over `[[1], [9])`, with peers on stores 1 and 2. -/
def region₀ : Metapb.Region :=
  { id := 1, startKey := [1], endKey := [9], peers := [⟨1, 1⟩, ⟨2, 2⟩] }

/-- The part of region 1 before `[5]`, as region 7 with peers 3 and 4 on the same stores. -/
def leftHalf : Metapb.Region :=
  { id := 7, startKey := [1], endKey := [5], regionEpoch := { version := 1 }, peers := [⟨3, 1⟩, ⟨4, 2⟩] }

/-- The part of region 1 from `[5]` on, which region 1 keeps. -/
def rightHalf : Metapb.Region :=
  { region₀ with startKey := [5], regionEpoch := { version := 1 } }

/-- The applier of region 1 with entry 5 applied and the log truncated to it. -/
def applier₀ : Applier :=
  { id := 1, region := region₀, applyState := { appliedIndex := 5, truncatedState := { index := 5, term := 5 } } }

/-- An engine that holds no data and the apply state of region 1. -/
def ctx₀ : ApplyContext :=
  { kv := { data := fun _ _ => none, applyStates := fun id => if id = 1 then some applier₀.applyState else none } }

/-- Split at `[5]`, the part before it becoming region 7 with peers 3 and 4. -/
def splitCmd : RaftCmdpb.RaftCmdRequest :=
  { adminRequest := some { cmdType := .split, split := some { splitKey := [5], newRegionId := 7, newPeerIds := [3, 4] } } }

/-- Put `[0]`, then put `[6]`. -/
def putCmd : RaftCmdpb.RaftCmdRequest :=
  { requests := [{ cmdType := .put, key := [0], value := [1] }, { cmdType := .put, key := [6], value := [2] }] }

/-- The decoder of the run's entries. -/
def unmarshal₀ : List Nat → Option RaftCmdpb.RaftCmdRequest
  | [1] => some splitCmd
  | [2] => some putCmd
  | _ => none

/-- The split at index 6, the puts at 7, and the empty entry of a leader of term 2 at 8. -/
def entries₀ : List Entry :=
  [{ index := 6, term := 1, data := [1] }, { index := 7, term := 1, data := [2] }, { index := 8, term := 2 }]


section Runs

variable {a a' : Applier} {ctx ctx' : ApplyContext} {entries : List Entry}

/--
Over every run of the apply loop the region evolves: the same id, a range that only narrows
and stays well formed, an epoch that only grows, with `Version` raised whenever the range
changed and `ConfVer` whenever the peers did; so where the epoch is unchanged, so are the
range and the peers.
-/
theorem committedEntries_region_evolves
    (done : a.handleRaftCommittedEntries checkRegionEpoch unmarshal ctx entries = .ok (a', ctx')) :
    a.region.Evolves a'.region ∧
      (a'.region.regionEpoch = a.region.regionEpoch →
        a'.region.startKey = a.region.startKey ∧ a'.region.endKey = a.region.endKey ∧ a'.region.peers = a.region.peers) :=
  have ⟨_, _, _, runs, _⟩ := handleRaftCommittedEntries_runs done
  ⟨runs.region, runs.region.eq_of_epoch⟩

/-- The run ends with the derived region `[[5], [9])` at `Version` 1, evolved from region 1. -/
theorem splitRun_evolves : ∃ a' ctx',
    applier₀.handleRaftCommittedEntries (fun _ _ => true) unmarshal₀ ctx₀ entries₀ = .ok (a', ctx') ∧
      a'.region = rightHalf ∧
      region₀.Evolves a'.region ∧
      (a'.region.regionEpoch = region₀.regionEpoch →
        a'.region.startKey = region₀.startKey ∧ a'.region.endKey = region₀.endKey ∧ a'.region.peers = region₀.peers) := by
  obtain ⟨⟨a', ctx'⟩, ran⟩ : ∃ r, applier₀.handleRaftCommittedEntries (fun _ _ => true) unmarshal₀ ctx₀ entries₀ = .ok r :=
    ⟨_, rfl⟩
  refine ⟨a', ctx', ran, ?_, committedEntries_region_evolves ran⟩
  cases ran
  rfl

/--
Over every run of the apply loop from an applier whose apply state is the one the engine
holds for its region, as `prepareFor` reads it back, the log is never truncated past what is
applied, the truncated index only grows, and, unless this peer was removed, every entry was
applied at the index after the last.
-/
theorem committedEntries_applyState
    (done : a.handleRaftCommittedEntries checkRegionEpoch unmarshal ctx entries = .ok (a', ctx'))
    (synced : ctx.kv.applyStates a.region.id = some a.applyState)
    (bounded : a.applyState.truncatedState.index ≤ a.applyState.appliedIndex) :
    a'.applyState.truncatedState.index ≤ a'.applyState.appliedIndex ∧
      a.applyState.truncatedState.index ≤ a'.applyState.truncatedState.index ∧
      a.applyState.appliedIndex ≤ a'.applyState.appliedIndex ∧
      (a'.pendingRemove = false → a'.applyState.appliedIndex = a.applyState.appliedIndex + entries.length) := by
  obtain ⟨applyState, empty, stored, runs, counted, -⟩ := handleRaftCommittedEntries_runs done
  obtain rfl : applyState = a.applyState := by
    by_cases nonempty : entries = []
    · exact empty nonempty
    · exact Option.some.inj ((stored nonempty).symm.trans synced)
  exact ⟨runs.bounded bounded, runs.truncated_le, runs.applied_le, counted⟩

/-- The run applies entries 6 to 8 and keeps the log truncated at 5. -/
theorem splitRun_applyState : ∃ a' ctx',
    applier₀.handleRaftCommittedEntries (fun _ _ => true) unmarshal₀ ctx₀ entries₀ = .ok (a', ctx') ∧
      ctx₀.kv.applyStates applier₀.region.id = some applier₀.applyState ∧
      a'.applyState = { appliedIndex := 8, truncatedState := { index := 5, term := 5 } } ∧ a'.pendingRemove = false ∧
      a'.applyState.truncatedState.index ≤ a'.applyState.appliedIndex ∧
      applier₀.applyState.truncatedState.index ≤ a'.applyState.truncatedState.index ∧
      applier₀.applyState.appliedIndex ≤ a'.applyState.appliedIndex ∧
      (a'.pendingRemove = false → a'.applyState.appliedIndex = applier₀.applyState.appliedIndex + entries₀.length) := by
  obtain ⟨⟨a', ctx'⟩, ran⟩ : ∃ r, applier₀.handleRaftCommittedEntries (fun _ _ => true) unmarshal₀ ctx₀ entries₀ = .ok r :=
    ⟨_, rfl⟩
  have facts : a'.applyState = { appliedIndex := 8, truncatedState := { index := 5, term := 5 } } ∧
      a'.pendingRemove = false := by
    cases ran
    exact ⟨rfl, rfl⟩
  exact ⟨a', ctx', ran, rfl, facts.1, facts.2, committedEntries_applyState ran rfl (by decide)⟩

end Runs

/-! ## Splits and normal commands -/

/--
A split that `applyRaftCmd` reports cuts the applier's region in two at a key: the new
region and the derived one, which becomes the applier's, hold every key of the old range
and share none, both are well formed, both carry the old `Version` raised by one and the
old `ConfVer`, the derived one keeps the region's id, and the new one has a peer on each
store the region had.
-/
theorem applyRaftCmd_split_partition {a a' : Applier} {ctx ctx' : ApplyContext} {index : Nat}
    {req : RaftCmdpb.RaftCmdRequest} {resp : CmdResponse} {txn : Bool} {regions : List Metapb.Region}
    {derived : Metapb.Region}
    (done : a.applyRaftCmd checkRegionEpoch ctx index req = .ok (a', ctx', resp, txn, some (.splitRegion regions derived))) :
    ∃ newRegion, regions = [newRegion, derived] ∧ a'.region = derived ∧
      (∀ key, a.region.Contains key ↔ newRegion.Contains key ∨ derived.Contains key) ∧
      (∀ key, ¬(newRegion.Contains key ∧ derived.Contains key)) ∧
      newRegion.WellFormed ∧ derived.WellFormed ∧ derived.id = a.region.id ∧
      newRegion.regionEpoch = derived.regionEpoch ∧
      derived.regionEpoch = { a.region.regionEpoch with version := a.region.regionEpoch.version + 1 } ∧
      newRegion.peers.map (·.storeId) = derived.peers.map (·.storeId) := by
  obtain ⟨-, a₁, ctx₁, txn₁, r, executed, rfl, finished⟩ := applyRaftCmd_eq_ok done
  have executes := execRaftCmd_executes executed
  rcases finished with ⟨rfl, -, -⟩ | ⟨-, -, -, -, -, split⟩
  · obtain ⟨splitKey, newRegion, past, inside, rfl, rfl, start, stop, epoch, stores⟩ := executes.result _ _ rfl
    have halves := a.region.contains_split past inside
    have formed := a.region.wellFormed_split past inside
    have left : ∀ key, newRegion.Contains key ↔ ({ a.region with endKey := splitKey } : Metapb.Region).Contains key := by
      simp [Metapb.Region.Contains, start, stop]
    refine ⟨newRegion, rfl, by rw [executes.applier]; rfl, fun key => ?_, fun key => ?_, ?_, formed.2, rfl, rfl, epoch,
      stores⟩
    · rw [left]
      exact (halves key).1
    · rw [left]
      exact (halves key).2
    · simpa [Metapb.Region.WellFormed, start, stop] using formed.1
  · cases split

/-- The split at `[5]` cuts region 1 into `leftHalf`, region 7, and `rightHalf`. -/
theorem splitCmd_partition : ∃ a' ctx' resp txn,
    applier₀.applyRaftCmd (fun _ _ => true) ctx₀ 6 splitCmd =
      .ok (a', ctx', resp, txn, some (.splitRegion [leftHalf, rightHalf] rightHalf)) ∧
      ∃ newRegion, [leftHalf, rightHalf] = [newRegion, rightHalf] ∧ a'.region = rightHalf ∧
        (∀ key, applier₀.region.Contains key ↔ newRegion.Contains key ∨ rightHalf.Contains key) ∧
        (∀ key, ¬(newRegion.Contains key ∧ rightHalf.Contains key)) ∧
        newRegion.WellFormed ∧ rightHalf.WellFormed ∧ rightHalf.id = applier₀.region.id ∧
        newRegion.regionEpoch = rightHalf.regionEpoch ∧
        rightHalf.regionEpoch = { applier₀.region.regionEpoch with version := applier₀.region.regionEpoch.version + 1 } ∧
        newRegion.peers.map (·.storeId) = rightHalf.peers.map (·.storeId) :=
  let ⟨a', ctx', resp, txn, ran⟩ : ∃ a' ctx' resp txn, applier₀.applyRaftCmd (fun _ _ => true) ctx₀ 6 splitCmd =
      .ok (a', ctx', resp, txn, some (.splitRegion [leftHalf, rightHalf] rightHalf)) := ⟨_, _, _, _, rfl⟩
  ⟨a', ctx', resp, txn, ran, applyRaftCmd_split_partition ran⟩

/--
A normal command that passes the epoch check reports the outcome of its last `Put`, `Delete`
or `Get`.  When that request's key is outside the region, the command fails with that key's
error and its writes are rolled back.  Otherwise it succeeds and the batch gains the writes of
every `Put` and `Delete` whose key is inside the region, while the others are dropped without
an error; a transaction is opened for a `Snap`.  Either way only the applied index changes.
-/
theorem applyRaftCmd_normal {a a' : Applier} {ctx ctx' : ApplyContext} {index : Nat}
    {req : RaftCmdpb.RaftCmdRequest} {resp : CmdResponse} {txn : Bool} {result : Option ExecResult}
    (done : a.applyRaftCmd checkRegionEpoch ctx index req = .ok (a', ctx', resp, txn, result))
    (normal : req.adminRequest = none) (matched : checkRegionEpoch req a.region = true) :
    a' = { a with applyState := { a.applyState with appliedIndex := index } } ∧ result = none ∧
      (∀ err, lastKeyError a.region req.requests = some (some err) →
        resp = .error err ∧ txn = false ∧ ctx'.wb.entries = ctx.wb.entries) ∧
      ((∀ err, lastKeyError a.region req.requests ≠ some (some err)) →
        (∃ resps, resp = .normal resps) ∧ txn = req.requests.any Request.isSnap ∧
          ctx'.wb.entries = ctx.wb.entries ++ writesIn a.region req.requests) := by
  obtain ⟨-, a₁, ctx₁, txn₁, r, executed, rfl, finished⟩ := applyRaftCmd_eq_ok done
  unfold execRaftCmd at executed
  simp only [matched, normal, Bool.not_true, Bool.false_eq_true, if_false] at executed
  obtain ⟨⟨ctx₂, txn₂, r₂⟩, ran, rest⟩ := bind_eq_ok.mp executed
  cases pure_eq_ok.mp rest
  obtain ⟨rfl, rfl, ⟨resps, outcome⟩, -⟩ := execNormalCmd_eq_ok ran
  rcases last : lastKeyError a.region req.requests with _ | _ | err <;> rw [last] at outcome <;> subst outcome <;>
    rcases finished with ⟨finished, rfl, rfl⟩ | ⟨err', finished, rfl, rfl, rfl, rfl⟩ <;> cases finished
  -- No `Put`, `Delete` or `Get`, or the last one's key inside the region: the writes are kept.
  iterate 2 exact ⟨rfl, rfl, fun _ => nofun, fun _ => ⟨⟨resps, rfl⟩, rfl, rfl⟩⟩
  -- The last one's key outside the region: the batch is rolled back.
  refine ⟨rfl, rfl, fun _ found => ?_, fun never => absurd rfl (never err)⟩
  cases found
  exact ⟨rfl, rfl, by simp [WriteBatch.rollbackToSafePoint, WriteBatch.setSafePoint]⟩

/--
The put of `[0]` lies outside region 1 and the put of `[6]`, the last, inside: the command
succeeds with the write of `[6]` alone, and a `nil` response for the put of `[0]`.
-/
theorem putCmd_partial : ∃ a' ctx' txn result,
    applier₀.applyRaftCmd (fun _ _ => true) ctx₀ 6 putCmd = .ok (a', ctx', .normal [none, some .put], txn, result) ∧
      writesIn applier₀.region putCmd.requests = [.put "default" [6] [2]] ∧
      a' = { applier₀ with applyState := { applier₀.applyState with appliedIndex := 6 } } ∧ result = none ∧
      (∀ err, lastKeyError applier₀.region putCmd.requests = some (some err) →
        CmdResponse.normal [none, some .put] = .error err ∧ txn = false ∧ ctx'.wb.entries = ctx₀.wb.entries) ∧
      ((∀ err, lastKeyError applier₀.region putCmd.requests ≠ some (some err)) →
        (∃ resps, CmdResponse.normal [none, some .put] = .normal resps) ∧ txn = putCmd.requests.any Request.isSnap ∧
          ctx'.wb.entries = ctx₀.wb.entries ++ writesIn applier₀.region putCmd.requests) :=
  let ⟨a', ctx', txn, result, ran⟩ : ∃ a' ctx' txn result, applier₀.applyRaftCmd (fun _ _ => true) ctx₀ 6 putCmd =
      .ok (a', ctx', .normal [none, some .put], txn, result) := ⟨_, _, _, _, rfl⟩
  ⟨a', ctx', txn, result, ran, rfl, applyRaftCmd_normal ran rfl rfl⟩

end Apply

end Applier

end TinyKVRaft.Raftstore.Exec
