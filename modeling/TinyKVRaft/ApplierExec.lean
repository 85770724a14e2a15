import TinyKVRaft.RegionMeta
import TinyKVRaft.RaftCmdpb

namespace TinyKVRaft.Raftstore.Exec

/-!
# Executing a command

The data path of `applier.go`: `applyRaftCmd` executes one committed command against the
applier's region and writes through the apply context's write batch.  A normal command
runs its `Put`, `Delete`, `Get` and `Snap` requests in order, each key checked against the
region; an admin command changes the peers (`ChangePeer`, with `ConfVer` raised), splits
the region (`Split`, with `Version` raised), or truncates the log (`CompactLog`).  An
execution that returns an error is rolled back to the safe point set before it, and in
every case the entry's index becomes the applied index; a changed or split region becomes
the applier's region.

Commands write to the apply context's write batch.  After each entry `commit` adds the
applier's apply state to the batch, writes the batch to the KV engine, empties it and reads
the apply state back (`prepareFor`); `finishFor` leaves the apply state in the batch for the
next flush.

The write batch and the engine (engine_util, badger), the region and apply-state records
(meta) and `util.CheckRegionEpoch` are not under src/.  The batch keeps its modifications
in order and the length its safe point marks.  The engine holds each key's value per
column family and each region's apply state, with a ghost record of every modification
written to it.  The epoch check, which reads the request header this model does not keep,
is a parameter of `execRaftCmd` and everything that calls it, so every result about them
holds whatever the check decides.
-/

open RaftCmdpb (CmdType Request AdminRequest SplitRequest CompactLogRequest)

/-- `engine_util.CfDefault`. -/
def cfDefault : String := "default"

/-- The column family a request names, `CfDefault` when it names none. -/
def columnFamily (cf : String) : String :=
  if cf.length ≠ 0 then cf else cfDefault

/-- `rspb.PeerState` of a region state written to the engine. -/
inductive PeerState where
  | normal
  | tombstone
  deriving Repr, DecidableEq

/-- `rspb.RaftTruncatedState`. -/
structure RaftTruncatedState where
  index : Nat := 0
  term : Nat := 0
  deriving Repr, DecidableEq

/-- `rspb.RaftApplyState`. -/
structure RaftApplyState where
  appliedIndex : Nat := 0
  truncatedState : RaftTruncatedState := {}
  deriving Repr, DecidableEq

/-- One modification a write batch holds. -/
inductive Modify where
  /-- `SetCF`. -/
  | put (cf : String) (key value : List Nat)
  /-- `DeleteCF`. -/
  | delete (cf : String) (key : List Nat)
  /-- `meta.WriteRegionState`. -/
  | regionState (region : Metapb.Region) (state : PeerState)
  /-- `writeInitialApplyState` of a new region. -/
  | initialApplyState (regionId : Nat)
  /-- `SetMeta` of `meta.ApplyStateKey`: a region's apply state. -/
  | applyState (regionId : Nat) (state : RaftApplyState)
  deriving Repr, DecidableEq

/-- The key a modification writes in the region's data, if it writes one. -/
def Modify.dataKey : Modify → Option (List Nat)
  | .put _ key _ | .delete _ key => some key
  | .regionState .. | .initialApplyState _ | .applyState .. => none

/-- `engine_util.WriteBatch`: its modifications in order, and how many of them the safe point keeps. -/
structure WriteBatch where
  entries : List Modify := []
  safePoint : Nat := 0
  deriving Repr, DecidableEq

namespace WriteBatch

/-- `SetCF`. -/
def setCF (wb : WriteBatch) (cf : String) (key value : List Nat) : WriteBatch :=
  { wb with entries := wb.entries ++ [.put cf key value] }

/-- `DeleteCF`. -/
def deleteCF (wb : WriteBatch) (cf : String) (key : List Nat) : WriteBatch :=
  { wb with entries := wb.entries ++ [.delete cf key] }

/-- `meta.WriteRegionState`. -/
def writeRegionState (wb : WriteBatch) (region : Metapb.Region) (state : PeerState) : WriteBatch :=
  { wb with entries := wb.entries ++ [.regionState region state] }

/-- `writeInitialApplyState`. -/
def writeInitialApplyState (wb : WriteBatch) (regionId : Nat) : WriteBatch :=
  { wb with entries := wb.entries ++ [.initialApplyState regionId] }

/-- `SetSafePoint`. -/
def setSafePoint (wb : WriteBatch) : WriteBatch :=
  { wb with safePoint := wb.entries.length }

/-- `RollbackToSafePoint`. -/
def rollbackToSafePoint (wb : WriteBatch) : WriteBatch :=
  { wb with entries := wb.entries.take wb.safePoint }

/-- Rolling back right after setting the safe point restores the modifications. -/
@[simp] theorem rollbackToSafePoint_setSafePoint (wb : WriteBatch) (added : List Modify) :
    ({ wb.setSafePoint with entries := wb.entries ++ added } : WriteBatch).rollbackToSafePoint =
      wb.setSafePoint := by
  simp [rollbackToSafePoint, setSafePoint]

end WriteBatch

/--
The apply state `writeInitialApplyState` gives a new region: `meta.RaftInitLogIndex` and
`meta.RaftInitLogTerm`, both 5 (meta is not under src/).
-/
def initialApplyState : RaftApplyState :=
  { appliedIndex := 5, truncatedState := { index := 5, term := 5 } }

/--
`engines.Kv`: the value of each key in each column family, and the apply state stored
for each region, with a ghost record of every modification written to it.
-/
structure Engine where
  data : String → List Nat → Option (List Nat)
  applyStates : Nat → Option RaftApplyState := fun _ => none
  written : List Modify := []

/-- One modification written to the engine; a region state is only recorded. -/
def Engine.write (e : Engine) (m : Modify) : Engine :=
  let e := { e with written := e.written ++ [m] }
  match m with
  | .put cf key value => { e with data := fun cf' key' => if cf' = cf ∧ key' = key then some value else e.data cf' key' }
  | .delete cf key => { e with data := fun cf' key' => if cf' = cf ∧ key' = key then none else e.data cf' key' }
  | .applyState regionId state =>
    { e with applyStates := fun id => if id = regionId then some state else e.applyStates id }
  | .initialApplyState regionId =>
    { e with applyStates := fun id => if id = regionId then some initialApplyState else e.applyStates id }
  | .regionState .. => e

/-- `WriteToDB`: the batch's modifications written in order (badger's errors, on which the applier panics, are not modelled). -/
def WriteBatch.writeToDB (wb : WriteBatch) (e : Engine) : Engine :=
  wb.entries.foldl Engine.write e

@[simp] theorem Engine.write_written (e : Engine) (m : Modify) : (e.write m).written = e.written ++ [m] := by
  cases m <;> rfl

/-- A modification leaves the data of every key it does not write. -/
theorem Engine.write_data {e : Engine} {m : Modify} {key : List Nat} (untouched : m.dataKey ≠ some key)
    (cf : String) : (e.write m).data cf key = e.data cf key := by
  cases m with
  | put cf' key' value =>
    have other : key ≠ key' := fun same => untouched (by rw [same]; rfl)
    simp [Engine.write, other]
  | delete cf' key' =>
    have other : key ≠ key' := fun same => untouched (by rw [same]; rfl)
    simp [Engine.write, other]
  | _ => rfl

theorem foldl_write_written : ∀ (ms : List Modify) (e : Engine), (ms.foldl Engine.write e).written = e.written ++ ms
  | [], e => by simp
  | m :: ms, e => by rw [List.foldl_cons, foldl_write_written ms, Engine.write_written, List.append_assoc]; rfl

theorem foldl_write_data {key : List Nat} (cf : String) :
    ∀ (ms : List Modify) (e : Engine), (∀ m ∈ ms, m.dataKey ≠ some key) → (ms.foldl Engine.write e).data cf key = e.data cf key
  | [], _, _ => rfl
  | m :: ms, e, untouched => by
    rw [List.foldl_cons, foldl_write_data cf ms _ fun m' mem => untouched m' (List.mem_cons_of_mem m mem),
      Engine.write_data (untouched m (List.mem_cons_self m ms))]

/-- `raft_cmdpb.Response` of one request. -/
inductive Response where
  | get (value : Option (List Nat))
  | put
  | delete
  | snap (region : Metapb.Region)
  deriving Repr, DecidableEq

/-- `raft_cmdpb.AdminResponse`, of the type `execAdminCmd` gives it. -/
inductive AdminResponse where
  | changePeer (region : Metapb.Region)
  | split (regions : List Metapb.Region)
  | compactLog
  deriving Repr, DecidableEq

/-- The errors of executing a command, each named by its message or its type. -/
inductive ApplyError where
  /-- An error of `util.CheckRegionEpoch`. -/
  | epochNotMatch
  /-- `util.ErrKeyNotInRegion`. -/
  | keyNotInRegion (key : List Nat) (region : Metapb.Region)
  /-- An error of `execChangePeer`. -/
  | changePeer (error : ExecError)
  /-- "missing split key". -/
  | missingSplitKey
  /-- "invalid split request:%s". -/
  | invalidSplitRequest (splitReq : SplitRequest)
  /-- "invalid new peer id count, need %d but got %d". -/
  | invalidNewPeerIdCount (need got : Nat)
  /-- "command format is outdated, please upgrade leader". -/
  | outdatedCompactLog
  /-- "transfer leader won't execute". -/
  | transferLeaderWontExecute
  /-- "unsupported command type". -/
  | unsupportedCommandType
  deriving Repr, DecidableEq

/-- `raft_cmdpb.RaftCmdResponse`: the responses of a normal command, an admin response, or an error. -/
inductive CmdResponse where
  | normal (responses : List (Option Response))
  | admin (response : AdminResponse)
  | error (err : ApplyError)
  deriving Repr, DecidableEq

/-- The exec results `applyRaftCmd` hands back: a change of peers, a compaction, a split. -/
inductive ExecResult where
  | changePeer (region : Metapb.Region) (peer : Peer)
  | compactLog (truncatedIndex firstIndex : Nat)
  | splitRegion (regions : List Metapb.Region) (derived : Metapb.Region)
  deriving Repr, DecidableEq

/-- The fatal ends of executing a command, one per site. -/
inductive ExecPanic where
  /-- `y.Assert(!a.pendingRemove)`. -/
  | pendingRemove
  /-- `log.Fatal` on "invalid cmd type=%v". -/
  | invalidCmdType (cmdType : CmdType)
  /-- "mixed write and read in one request". -/
  | mixedWriteRead
  /-- The body of an admin request of its type is `nil` and dereferenced. -/
  | nilRequest
  /-- "%s process raft cmd need a none zero index". -/
  | zeroIndex
  /-- `y.Assert(term > 0)` on the empty entry of a new leader. -/
  | zeroTerm
  /-- `panic(err)` on entry data that does not unmarshal. -/
  | unmarshal
  /-- "%s expect index %d, but got %d". -/
  | expectIndex (expected got : Nat)
  /-- `prepareFor` dereferences the `nil` that `meta.GetApplyState` returns for a region
  without a stored apply state. -/
  | missingApplyState
  deriving Repr, DecidableEq

/-- `applier`, kept to what executing a command reads and writes. -/
structure Applier where
  id : Nat
  region : Metapb.Region
  applyState : RaftApplyState := {}
  pendingRemove : Bool := false
  deriving Repr, DecidableEq

/--
`applyContext` with its `applyExecContext`, kept to what applying reads and writes: the KV
engine, the write batch, the apply state of the execution, and the applied index
`prepareFor` read.
-/
structure ApplyContext where
  kv : Engine
  wb : WriteBatch := {}
  applyState : RaftApplyState := {}
  lastAppliedIndex : Nat := 0

/-- `util.CheckKeyInRegion` (not under src/). -/
def checkKeyInRegion (key : List Nat) (region : Metapb.Region) : Except ApplyError Unit :=
  if region.Contains key then .ok () else .error (.keyNotInRegion key region)

/-- `writeApplyState` (applier.go 421-423): the applier's apply state, under its region's key. -/
def Applier.writeApplyState (a : Applier) (wb : WriteBatch) : WriteBatch :=
  { wb with entries := wb.entries ++ [.applyState a.region.id a.applyState] }

/-- Written last, the applier's apply state is the one the engine then holds for its region. -/
@[simp] theorem writeToDB_writeApplyState (a : Applier) (wb : WriteBatch) (e : Engine) :
    ((a.writeApplyState wb).writeToDB e).applyStates a.region.id = some a.applyState := by
  simp [Applier.writeApplyState, WriteBatch.writeToDB, Engine.write]

namespace ApplyContext

/--
`prepareFor` (applier.go 315-324): the applier's apply state read back from the engine, and
its applied index remembered.
-/
def prepareFor (ctx : ApplyContext) (d : Applier) : Except ExecPanic (Applier × ApplyContext) :=
  match ctx.kv.applyStates d.region.id with
  | some applyState => pure ({ d with applyState }, { ctx with lastAppliedIndex := applyState.appliedIndex })
  | none => throw .missingApplyState

/-- `writeToDB` (346-356): the batch is written to the engine and reset; the callbacks it runs are the callback model's. -/
def writeToDB (ctx : ApplyContext) : ApplyContext :=
  { ctx with kv := ctx.wb.writeToDB ctx.kv, wb := {} }

/-- `commitOpt` (338-343). -/
def commitOpt (ctx : ApplyContext) (d : Applier) (persistent : Bool) : Except ExecPanic (Applier × ApplyContext) :=
  if persistent then ctx.writeToDB.prepareFor d else pure (d, ctx)

/-- `commit` (329-336): the apply state joins the batch when it moved past the one read, and the batch is written. -/
def commit (ctx : ApplyContext) (d : Applier) : Except ExecPanic (Applier × ApplyContext) :=
  let ctx := if ctx.lastAppliedIndex < d.applyState.appliedIndex then { ctx with wb := d.writeApplyState ctx.wb } else ctx
  ctx.commitOpt d true

/--
`finishFor` (358-368): the apply state joins the batch unless the peer is being removed,
and nothing is written; the results sent back to the peer are not modelled.
-/
def finishFor (ctx : ApplyContext) (d : Applier) : Except ExecPanic (Applier × ApplyContext) :=
  let ctx := if !d.pendingRemove then { ctx with wb := d.writeApplyState ctx.wb } else ctx
  ctx.commitOpt d false

end ApplyContext

namespace Applier

/-! ## Normal requests -/

/--
The body `handlePut` and `handleDelete` share: check the key against the region, then
write under the request's column family.
-/
def handleWrite (a : Applier) (key : List Nat) (cf : String) (write : String → WriteBatch → WriteBatch)
    (resp : Response) (wb : WriteBatch) : WriteBatch × Except ApplyError Response :=
  match checkKeyInRegion key a.region with
  | .error err => (wb, .error err)
  | .ok () => (write (columnFamily cf) wb, .ok resp)

/-- `handlePut`. -/
def handlePut (a : Applier) (wb : WriteBatch) (req : Request) : WriteBatch × Except ApplyError Response :=
  a.handleWrite req.key req.cf (fun cf wb => wb.setCF cf req.key req.value) .put wb

/-- `handleDelete`. -/
def handleDelete (a : Applier) (wb : WriteBatch) (req : Request) : WriteBatch × Except ApplyError Response :=
  a.handleWrite req.key req.cf (fun cf wb => wb.deleteCF cf req.key) .delete wb

/-- `handleGet`: the engine's value, `nil` for a key it does not hold. -/
def handleGet (a : Applier) (kv : String → List Nat → Option (List Nat)) (req : Request) :
    Except ApplyError Response := do
  checkKeyInRegion req.key a.region
  pure (.get (kv (columnFamily req.cf) req.key))

/-- What the loop of `execNormalCmd` carries from one request to the next. -/
structure NormalLoop where
  wb : WriteBatch
  resps : List (Option Response) := []
  err : Option ApplyError := none
  txn : Bool := false
  hasWrite : Bool := false
  hasRead : Bool := false

/-- A handler's outcome as the loop keeps it: its response, `nil` on an error, and its error. -/
def NormalLoop.record (s : NormalLoop) : Except ApplyError Response → NormalLoop
  | .ok resp => { s with resps := s.resps ++ [some resp], err := none }
  | .error err => { s with resps := s.resps ++ [none], err := some err }

@[simp] theorem NormalLoop.record_wb (s : NormalLoop) (r : Except ApplyError Response) :
    (s.record r).wb = s.wb := by
  cases r <;> rfl

@[simp] theorem NormalLoop.record_err (s : NormalLoop) (r : Except ApplyError Response) :
    (s.record r).err = match r with | .ok _ => none | .error err => some err := by
  cases r <;> rfl

@[simp] theorem NormalLoop.record_txn (s : NormalLoop) (r : Except ApplyError Response) :
    (s.record r).txn = s.txn := by
  cases r <;> rfl

@[simp] theorem NormalLoop.record_hasWrite (s : NormalLoop) (r : Except ApplyError Response) :
    (s.record r).hasWrite = s.hasWrite := by
  cases r <;> rfl

@[simp] theorem NormalLoop.record_hasRead (s : NormalLoop) (r : Except ApplyError Response) :
    (s.record r).hasRead = s.hasRead := by
  cases r <;> rfl

/-- The loop of `execNormalCmd`: each request by its type; one of another type, invalid or unnamed, is fatal. -/
def execRequests (a : Applier) (kv : String → List Nat → Option (List Nat)) :
    NormalLoop → List Request → Except ExecPanic NormalLoop
  | s, [] => pure s
  | s, req :: reqs =>
    match req.cmdType with
    | .put =>
      let (wb, r) := a.handlePut s.wb req
      a.execRequests kv { { s with wb }.record r with hasWrite := true } reqs
    | .delete =>
      let (wb, r) := a.handleDelete s.wb req
      a.execRequests kv { { s with wb }.record r with hasWrite := true } reqs
    | .get => a.execRequests kv { s.record (a.handleGet kv req) with hasRead := true } reqs
    | .snap =>
      a.execRequests kv { s with resps := s.resps ++ [some (.snap a.region)], txn := true, hasRead := true } reqs
    | .invalid | .unnamed _ => throw (.invalidCmdType req.cmdType)

/--
`execNormalCmd`: the requests in order, then a panic on a mix of reads and writes.  The
error it returns is the one the last `Put`, `Delete` or `Get` returned; the flag says a
`Snap` opened a transaction on the engine.
-/
def execNormalCmd (a : Applier) (ctx : ApplyContext) (req : RaftCmdpb.RaftCmdRequest) :
    Except ExecPanic (ApplyContext × Bool × Except ApplyError CmdResponse) := do
  let s ← a.execRequests ctx.kv.data { wb := ctx.wb } req.requests
  if s.hasWrite && s.hasRead then throw .mixedWriteRead
  let resp : Except ApplyError CmdResponse :=
    match s.err with
    | some err => .error err
    | none => .ok (.normal s.resps)
  pure ({ ctx with wb := s.wb }, s.txn, resp)

/-! ### What the loop over the requests does -/

variable {a : Applier}

/-- The writes of the `Put` and `Delete` requests whose key lies in the region, in order. -/
def writesIn (region : Metapb.Region) : List Request → List Modify
  | [] => []
  | req :: reqs =>
    match req.cmdType with
    | .put =>
      if region.Contains req.key then .put (columnFamily req.cf) req.key req.value :: writesIn region reqs
      else writesIn region reqs
    | .delete =>
      if region.Contains req.key then .delete (columnFamily req.cf) req.key :: writesIn region reqs
      else writesIn region reqs
    | _ => writesIn region reqs

/--
The outcome of the last `Put`, `Delete` or `Get` among the requests, if there is one: no
error when its key lies in the region, else the key's error.
-/
def lastKeyError (region : Metapb.Region) : List Request → Option (Option ApplyError)
  | [] => none
  | req :: reqs =>
    match lastKeyError region reqs with
    | some err => some err
    | none =>
      match req.cmdType with
      | .put | .delete | .get =>
        some (if region.Contains req.key then none else some (.keyNotInRegion req.key region))
      | .snap | .invalid | .unnamed _ => none

theorem checkKeyInRegion_eq (key : List Nat) (region : Metapb.Region) :
    checkKeyInRegion key region = if region.Contains key then .ok () else .error (.keyNotInRegion key region) :=
  rfl

@[simp] theorem handleWrite_eq (a : Applier) (key : List Nat) (cf : String)
    (write : String → WriteBatch → WriteBatch) (resp : Response) (wb : WriteBatch) :
    a.handleWrite key cf write resp wb =
      if a.region.Contains key then (write (columnFamily cf) wb, .ok resp)
      else (wb, .error (.keyNotInRegion key a.region)) := by
  unfold handleWrite checkKeyInRegion
  split_ifs <;> rfl

@[simp] theorem handleGet_eq (a : Applier) (kv : String → List Nat → Option (List Nat)) (req : Request) :
    a.handleGet kv req =
      if a.region.Contains req.key then .ok (.get (kv (columnFamily req.cf) req.key))
      else .error (.keyNotInRegion req.key a.region) := by
  unfold handleGet checkKeyInRegion
  split_ifs <;> rfl

/--
The loop over the requests panics on a request of no type it handles.  Otherwise it appends to
the batch the writes of the `Put` and `Delete` requests whose key lies in the region, and
ends with the error of the last `Put`, `Delete` or `Get`, each earlier one overwritten.
-/
theorem execRequests_eq_ok {kv : String → List Nat → Option (List Nat)} :
    ∀ {s s' : NormalLoop} {reqs : List Request}, a.execRequests kv s reqs = .ok s' →
      s'.wb = { s.wb with entries := s.wb.entries ++ writesIn a.region reqs } ∧
      s'.err = (lastKeyError a.region reqs).getD s.err ∧ s'.txn = (s.txn || reqs.any Request.isSnap) ∧
      s'.hasWrite = (s.hasWrite || reqs.any Request.isWrite) ∧ s'.hasRead = (s.hasRead || reqs.any Request.isRead)
  | s, s', [], done => by
      cases pure_eq_ok.mp done
      simp [writesIn, lastKeyError]
  | s, s', req :: reqs, done => by
      unfold execRequests at done
      cases kind : req.cmdType <;> simp only [kind] at done
      case invalid => exact absurd done throw_ne_ok
      case unnamed => exact absurd done throw_ne_ok
      all_goals
        obtain ⟨wb, err, txn, write, read⟩ := execRequests_eq_ok done
        rcases last : lastKeyError a.region reqs with _ | e <;>
        by_cases inside : a.region.Contains req.key <;>
          simp_all [handlePut, handleDelete, writesIn, lastKeyError, Request.isWrite, Request.isRead, Request.isSnap, WriteBatch.setCF,
            WriteBatch.deleteCF]

/-- The loop over the requests panics exactly on a request that is invalid or of an unnamed type. -/
theorem execRequests_isOk {kv : String → List Nat → Option (List Nat)} :
    ∀ {s : NormalLoop} {reqs : List Request},
      (∃ s', a.execRequests kv s reqs = .ok s') ↔ ∀ req ∈ reqs, req.cmdType ≠ .invalid ∧ ∀ value, req.cmdType ≠ .unnamed value
  | s, [] => by simp [execRequests]
  | s, req :: reqs => by
      unfold execRequests
      cases kind : req.cmdType <;> simp [kind, execRequests_isOk]

/--
`execNormalCmd` appends the in-region writes of its `Put` and `Delete` requests to the
batch, opens a transaction exactly for a `Snap`, and returns the error of its last `Put`,
`Delete` or `Get`; it returns only when its requests do not mix reads and writes.
-/
theorem execNormalCmd_eq_ok {ctx ctx' : ApplyContext} {req : RaftCmdpb.RaftCmdRequest} {txn : Bool}
    {resp : Except ApplyError CmdResponse} (done : a.execNormalCmd ctx req = .ok (ctx', txn, resp)) :
    ctx' = { ctx with wb := { ctx.wb with entries := ctx.wb.entries ++ writesIn a.region req.requests } } ∧
      txn = req.requests.any Request.isSnap ∧
      (∃ resps, resp =
        match lastKeyError a.region req.requests with
        | some (some err) => .error err
        | _ => .ok (.normal resps)) ∧
      ¬(req.requests.any Request.isWrite = true ∧ req.requests.any Request.isRead = true) := by
  unfold execNormalCmd at done
  obtain ⟨s, looped, rest⟩ := bind_eq_ok.mp done
  obtain ⟨wb, err, snapped, write, read⟩ := execRequests_eq_ok looped
  simp only [write, read, Bool.false_or] at rest
  split_ifs at rest with mixed
  · exact absurd rest throw_ne_ok
  cases pure_eq_ok.mp rest
  refine ⟨by rw [wb], by simpa using snapped, ⟨s.resps, ?_⟩, by simpa using mixed⟩
  rw [err]
  rcases lastKeyError a.region req.requests with _ | _ | _ <;> rfl

/--
`execNormalCmd` returns exactly when no request is invalid or of an unnamed type and reads
and writes do not mix.
-/
theorem execNormalCmd_isOk {ctx : ApplyContext} {req : RaftCmdpb.RaftCmdRequest} :
    (∃ r, a.execNormalCmd ctx req = .ok r) ↔
      (∀ r ∈ req.requests, r.cmdType ≠ .invalid ∧ ∀ value, r.cmdType ≠ .unnamed value) ∧
        ¬(req.requests.any Request.isWrite = true ∧ req.requests.any Request.isRead = true) := by
  constructor
  · rintro ⟨⟨ctx', txn, resp⟩, done⟩
    have unmixed := (execNormalCmd_eq_ok done).2.2.2
    unfold execNormalCmd at done
    obtain ⟨s, looped, -⟩ := bind_eq_ok.mp done
    exact ⟨execRequests_isOk.mp ⟨s, looped⟩, unmixed⟩
  · rintro ⟨valid, unmixed⟩
    obtain ⟨s, looped⟩ : ∃ s, a.execRequests ctx.kv.data { wb := ctx.wb } req.requests = .ok s :=
      execRequests_isOk.mpr valid
    obtain ⟨-, -, -, write, read⟩ := execRequests_eq_ok looped
    have notMixed : (s.hasWrite && s.hasRead) = false := by
      simpa [write, read] using unmixed
    unfold execNormalCmd
    exact ⟨_, bind_eq_ok.mpr ⟨s, looped, by simp only [notMixed, Bool.false_eq_true, if_false]; rfl⟩⟩

/-! ## Admin requests -/

/--
`execChangePeer`: on a copy of the region with `ConfVer` raised, add a peer on a store
that has none, or remove the store's peer if it is the one named, setting `pendingRemove`
when it is this applier's own; the changed region is written with its peer state.
-/
def execChangePeer (a : Applier) (ctx : ApplyContext) (request : ChangePeerRequest) :
    Applier × ApplyContext × Except ApplyError (AdminResponse × ExecResult) :=
  let peer := request.peer
  let region := { a.region with
    regionEpoch := { a.region.regionEpoch with confVer := a.region.regionEpoch.confVer + 1 } }
  let changed (a : Applier) (region : Metapb.Region) :
      Applier × ApplyContext × Except ApplyError (AdminResponse × ExecResult) :=
    let state := if a.pendingRemove then PeerState.tombstone else .normal
    (a, { ctx with wb := ctx.wb.writeRegionState region state }, .ok (.changePeer region, .changePeer region peer))
  match request.changeType with
  | .addNode =>
    match region.findPeer peer.storeId with
    | some p => (a, ctx, .error (.changePeer (.duplicatedPeer p)))
    | none => changed a { region with peers := region.peers ++ [peer] }
  | .removeNode =>
    match region.removePeer peer.storeId with
    | (some p, region) =>
      if p ≠ peer then (a, ctx, .error (.changePeer (.unmatchedPeer peer p)))
      else changed (if a.id = peer.id then { a with pendingRemove := true } else a) region
    | (none, _) => (a, ctx, .error (.changePeer (.missingPeer peer)))

/-- The region with `ConfVer` raised and the given peers. -/
def changedRegion (region : Metapb.Region) (peers : List Peer) : Metapb.Region :=
  { region with regionEpoch := { region.regionEpoch with confVer := region.regionEpoch.confVer + 1 }, peers }

/--
`execChangePeer` leaves the applier and the context as they were, with one of its three
errors, or raises `ConfVer`, changes the peers, may set `pendingRemove`, and writes the
changed region with its peer state.
-/
theorem execChangePeer_cases (a : Applier) (ctx : ApplyContext) (request : ChangePeerRequest) :
    (∃ err, a.execChangePeer ctx request = (a, ctx, .error (.changePeer err))) ∨
      ∃ peers pendingRemove, a.execChangePeer ctx request =
        ({ a with pendingRemove },
          { ctx with
            wb := ctx.wb.writeRegionState (changedRegion a.region peers) (if pendingRemove then .tombstone else .normal) },
          .ok (.changePeer (changedRegion a.region peers), .changePeer (changedRegion a.region peers) request.peer)) := by
  unfold execChangePeer
  dsimp only
  cases request.changeType
  · -- `AddNode`
    rcases found : Raftstore.Region.findPeer { peers := a.region.peers } request.peer.storeId with _ | p <;>
      simp only [Metapb.Region.findPeer, Metapb.Region.view, found]
    · exact .inr ⟨_, a.pendingRemove, rfl⟩
    · exact .inl ⟨_, rfl⟩
  · -- `RemoveNode`
    rcases found : Raftstore.Region.removePeer { peers := a.region.peers } request.peer.storeId with
      ⟨_ | p, removed⟩ <;> simp only [Metapb.Region.removePeer, Metapb.Region.view, found]
    · exact .inl ⟨_, rfl⟩
    · by_cases matched : p = request.peer
      · rw [if_neg (not_not_intro matched)]
        by_cases own : a.id = request.peer.id
        · exact .inr ⟨_, true, by rw [if_pos own]; rfl⟩
        · exact .inr ⟨_, a.pendingRemove, by rw [if_neg own]; rfl⟩
      · exact .inl ⟨_, by rw [if_pos matched]⟩

/--
`execSplit`: a split key past `StartKey`, inside the region, and a new peer id for each
peer; the new region takes `[StartKey, splitKey)` with the new ids on the same stores, the
region keeps `[splitKey, EndKey)`, and both carry the raised `Version`.  The check that two
keys were collected, which always holds where it is made, is left out.
-/
def execSplit (a : Applier) (ctx : ApplyContext) (splitReq : SplitRequest) :
    ApplyContext × Except ApplyError (AdminResponse × ExecResult) :=
  let derived := a.region
  let splitKey := splitReq.splitKey
  if splitKey.length = 0 then (ctx, .error .missingSplitKey)
  else if splitKey ≤ derived.startKey then (ctx, .error (.invalidSplitRequest splitReq))
  else if splitReq.newPeerIds.length ≠ derived.peers.length then
    (ctx, .error (.invalidNewPeerIdCount derived.peers.length splitReq.newPeerIds.length))
  else
    match checkKeyInRegion splitKey a.region with
    | .error err => (ctx, .error err)
    | .ok () =>
      let derived := { derived with
        regionEpoch := { derived.regionEpoch with version := derived.regionEpoch.version + 1 } }
      let newRegion : Metapb.Region :=
        { id := splitReq.newRegionId, regionEpoch := derived.regionEpoch, startKey := derived.startKey,
          endKey := splitKey,
          peers := (splitReq.newPeerIds.zip derived.peers).map fun (id, p) => { id, storeId := p.storeId } }
      let wb := (ctx.wb.writeRegionState newRegion .normal).writeInitialApplyState newRegion.id
      let derived := { derived with startKey := splitKey }
      let regions := [newRegion, derived]
      ({ ctx with wb := wb.writeRegionState derived .normal },
        .ok (.split regions, .splitRegion regions derived))

/-- The peers of a split's new region: the new ids, on the stores of the old region's peers. -/
theorem splitPeers_map {ids : List Nat} {peers : List Peer} (same : ids.length = peers.length) :
    ((ids.zip peers).map fun (id, p) => ({ id, storeId := p.storeId } : Peer)).map (·.storeId) =
        peers.map (·.storeId) ∧
      ((ids.zip peers).map fun (id, p) => ({ id, storeId := p.storeId } : Peer)).map (·.id) = ids := by
  induction ids generalizing peers with
  | nil => cases peers <;> simp_all
  | cons id ids inductionHypothesis =>
    cases peers with
    | nil => simp at same
    | cons p peers => simpa using inductionHypothesis (Nat.succ.inj same)

/--
`execSplit` fails with the context as it was, or its key lies past `StartKey` and inside
the region, there is a new peer id for each peer, and it writes the new region (the old
range up to the key, with the new ids on the same stores), its initial apply state and the
derived region (the range from the key on), both with `Version` raised.
-/
theorem execSplit_cases (a : Applier) (ctx : ApplyContext) (splitReq : SplitRequest) :
    (∃ err, a.execSplit ctx splitReq = (ctx, .error err)) ∨
      a.region.startKey < splitReq.splitKey ∧ a.region.Contains splitReq.splitKey ∧
        ∃ newRegion : Metapb.Region,
          let derived : Metapb.Region :=
            { a.region with regionEpoch := newRegion.regionEpoch, startKey := splitReq.splitKey }
          newRegion.id = splitReq.newRegionId ∧ newRegion.startKey = a.region.startKey ∧
          newRegion.endKey = splitReq.splitKey ∧
          newRegion.regionEpoch = { a.region.regionEpoch with version := a.region.regionEpoch.version + 1 } ∧
          newRegion.peers.map (·.storeId) = a.region.peers.map (·.storeId) ∧
          newRegion.peers.map (·.id) = splitReq.newPeerIds ∧
          a.execSplit ctx splitReq =
            ({ ctx with
                wb := ((ctx.wb.writeRegionState newRegion .normal).writeInitialApplyState newRegion.id).writeRegionState
                  derived .normal },
              .ok (.split [newRegion, derived], .splitRegion [newRegion, derived] derived)) := by
  unfold execSplit
  dsimp only
  split_ifs with missing invalid count
  · exact .inl ⟨_, rfl⟩
  · exact .inl ⟨_, rfl⟩
  · exact .inl ⟨_, rfl⟩
  · by_cases inside : a.region.Contains splitReq.splitKey
    · rw [checkKeyInRegion_eq, if_pos inside]
      have peers := splitPeers_map (not_not.mp count)
      refine .inr ⟨lt_of_not_le invalid, inside, _, ?_, ?_, ?_, ?_, ?_, ?_, rfl⟩
      exacts [rfl, rfl, rfl, rfl, peers.1, peers.2]
    · rw [checkKeyInRegion_eq, if_neg inside]
      exact .inl ⟨_, rfl⟩

/--
`execCompactLog`: truncate the log of the execution's apply state to `CompactIndex`, when
it lies past the first index and at or below the applied index and the request carries
its term.
-/
def execCompactLog (ctx : ApplyContext) (req : CompactLogRequest) :
    ApplyContext × Except ApplyError (AdminResponse × Option ExecResult) :=
  let compactIndex := req.compactIndex
  let applyState := ctx.applyState
  let firstIndex := applyState.truncatedState.index + 1
  if compactIndex ≤ firstIndex then (ctx, .ok (.compactLog, none))
  else if req.compactTerm = 0 then (ctx, .error .outdatedCompactLog)
  else if compactIndex ≤ applyState.truncatedState.index ∨ compactIndex > applyState.appliedIndex then
    (ctx, .ok (.compactLog, none))
  else
    let applyState := { applyState with truncatedState := { index := compactIndex, term := req.compactTerm } }
    ({ ctx with applyState }, .ok (.compactLog, some (.compactLog applyState.truncatedState.index firstIndex)))

/--
`execCompactLog` fails on a request without a term or changes nothing, both with the
context as it was, or it truncates the log to `CompactIndex`, which lies past the first
index and at or below the applied index.
-/
theorem execCompactLog_cases (ctx : ApplyContext) (req : CompactLogRequest) :
    execCompactLog ctx req = (ctx, .error .outdatedCompactLog) ∨ execCompactLog ctx req = (ctx, .ok (.compactLog, none)) ∨
      ctx.applyState.truncatedState.index + 1 < req.compactIndex ∧ req.compactIndex ≤ ctx.applyState.appliedIndex ∧
        req.compactTerm ≠ 0 ∧
        execCompactLog ctx req =
          ({ ctx with
              applyState := { ctx.applyState with
                truncatedState := { index := req.compactIndex, term := req.compactTerm } } },
            .ok (.compactLog, some (.compactLog req.compactIndex (ctx.applyState.truncatedState.index + 1)))) := by
  unfold execCompactLog
  dsimp only
  split_ifs with first missing outside
  · exact .inr (.inl rfl)
  · exact .inl rfl
  · exact .inr (.inl rfl)
  · exact .inr (.inr ⟨by omega, by omega, missing, rfl⟩)

/-- `execAdminCmd`: the admin request by its type; a type whose request is missing is fatal. -/
def execAdminCmd (a : Applier) (ctx : ApplyContext) (adminReq : AdminRequest) :
    Except ExecPanic (Applier × ApplyContext × Except ApplyError (CmdResponse × Option ExecResult)) :=
  match adminReq.cmdType with
  | .changePeer =>
    match adminReq.changePeer with
    | none => throw .nilRequest
    | some request =>
      let (a, ctx, r) := a.execChangePeer ctx request
      pure (a, ctx, r.map fun (resp, result) => (.admin resp, some result))
  | .split =>
    match adminReq.split with
    | none => throw .nilRequest
    | some splitReq =>
      let (ctx, r) := a.execSplit ctx splitReq
      pure (a, ctx, r.map fun (resp, result) => (.admin resp, some result))
  | .compactLog =>
    match adminReq.compactLog with
    | none => throw .nilRequest
    | some req =>
      let (ctx, r) := execCompactLog ctx req
      pure (a, ctx, r.map fun (resp, result) => (.admin resp, result))
  | .transferLeader => pure (a, ctx, .error .transferLeaderWontExecute)
  | .invalidAdmin => pure (a, ctx, .error .unsupportedCommandType)

/-! ## Applying a command -/

/-- The applier's region after an exec result: the changed region of a `ChangePeer`, the derived one of a `Split`. -/
def regionAfter (region : Metapb.Region) : Option ExecResult → Metapb.Region
  | some (.changePeer region _) => region
  | some (.splitRegion _ derived) => derived
  | some (.compactLog ..) | none => region

section Apply

variable (checkRegionEpoch : RaftCmdpb.RaftCmdRequest → Metapb.Region → Bool)

/--
`execRaftCmd`: the epoch check, then the admin request if there is one, else the normal
requests; the flag says a read transaction was opened.
-/
def execRaftCmd (a : Applier) (ctx : ApplyContext) (req : RaftCmdpb.RaftCmdRequest) :
    Except ExecPanic (Applier × ApplyContext × Bool × Except ApplyError (CmdResponse × Option ExecResult)) :=
  if !checkRegionEpoch req a.region then pure (a, ctx, false, .error .epochNotMatch)
  else
    match req.adminRequest with
    | some adminReq => do
      let (a, ctx, r) ← a.execAdminCmd ctx adminReq
      pure (a, ctx, false, r)
    | none => do
      let (ctx, txn, r) ← a.execNormalCmd ctx req
      pure (a, ctx, txn, r.map fun resp => (resp, none))

/--
`applyRaftCmd`: execute the command from a safe point of the write batch, with the
applier's apply state; an error rolls the batch back and drops the transaction and the
result.  The entry's index becomes the applied index, and a changed or split region
becomes the applier's.
-/
def applyRaftCmd (a : Applier) (ctx : ApplyContext) (index : Nat) (req : RaftCmdpb.RaftCmdRequest) :
    Except ExecPanic (Applier × ApplyContext × CmdResponse × Bool × Option ExecResult) := do
  if a.pendingRemove then throw .pendingRemove
  let ctx := { ctx with applyState := a.applyState, wb := ctx.wb.setSafePoint }
  let (a, ctx, txn, r) ← execRaftCmd checkRegionEpoch a ctx req
  let (ctx, resp, txn, result) : ApplyContext × CmdResponse × Bool × Option ExecResult :=
    match r with
    | .ok (resp, result) => (ctx, resp, txn, result)
    | .error err => ({ ctx with wb := ctx.wb.rollbackToSafePoint }, .error err, false, none)
  pure ({ a with applyState := { ctx.applyState with appliedIndex := index }, region := regionAfter a.region result },
    ctx, resp, txn, result)

/--
`processRaftCmd`, kept to what it does to the applier and the context: a zero index is
fatal, and the command is applied.  The response and the transaction go to the command's
callback, which the callback model of the applier follows.
-/
def processRaftCmd (a : Applier) (ctx : ApplyContext) (index : Nat) (cmd : RaftCmdpb.RaftCmdRequest) :
    Except ExecPanic (Applier × ApplyContext) :=
  if index = 0 then throw .zeroIndex
  else do
    let (a, ctx, _) ← a.applyRaftCmd checkRegionEpoch ctx index cmd
    pure (a, ctx)

variable (unmarshal : List Nat → Option RaftCmdpb.RaftCmdRequest)

/--
`handleRaftEntryNormal` and `handleRaftEntryConfChange`: the entry's command, or for the
empty entry a new leader appends, only its index as the applied index.  A conf-change
entry carries its command in the `Context` of its `ConfChange`; as in the callback model,
its command is read from the entry's data by the same decoder.
-/
def handleRaftEntry (a : Applier) (ctx : ApplyContext) (entry : Entry) : Except ExecPanic (Applier × ApplyContext) :=
  match entry.entryType with
  | .entryNormal =>
    if entry.data ≠ [] then
      match unmarshal entry.data with
      | some cmd => a.processRaftCmd checkRegionEpoch ctx entry.index cmd
      | none => throw .unmarshal
    else if entry.term = 0 then throw .zeroTerm
    else pure ({ a with applyState := { a.applyState with appliedIndex := entry.index } }, ctx)
  | .entryConfChange =>
    match unmarshal entry.data with
    | some cmd => a.processRaftCmd checkRegionEpoch ctx entry.index cmd
    | none => throw .unmarshal

/--
The loop of `handleRaftCommittedEntries` (applier.go 392-417): the entries in order, each at
the index after the applied one and followed by `commit`, until this peer is removed.
-/
def applyEntries (a : Applier) (ctx : ApplyContext) : List Entry → Except ExecPanic (Applier × ApplyContext)
  | [] => pure (a, ctx)
  | entry :: rest =>
    if a.pendingRemove then pure (a, ctx)
    else if a.applyState.appliedIndex + 1 ≠ entry.index then
      throw (.expectIndex (a.applyState.appliedIndex + 1) entry.index)
    else do
      let (a, ctx) ← a.handleRaftEntry checkRegionEpoch unmarshal ctx entry
      let (a, ctx) ← ctx.commit a
      a.applyEntries ctx rest

/--
`handleRaftCommittedEntries` on the data path (applier.go 383-419): nothing for no
entries; else `prepareFor`, the loop, and `finishFor`.
-/
def handleRaftCommittedEntries (a : Applier) (ctx : ApplyContext) (committedEntries : List Entry) :
    Except ExecPanic (Applier × ApplyContext) :=
  if committedEntries = [] then pure (a, ctx)
  else do
    let (a, ctx) ← ctx.prepareFor a
    let (a, ctx) ← a.applyEntries checkRegionEpoch unmarshal ctx committedEntries
    ctx.finishFor a

end Apply

end Applier

end TinyKVRaft.Raftstore.Exec
