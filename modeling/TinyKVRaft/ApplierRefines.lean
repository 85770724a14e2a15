import TinyKVRaft.ApplierExecRuns
import TinyKVRaft.Peer

namespace TinyKVRaft.Raftstore

/-!
# The data path of the applier against the peer and the callback model

Two connections.  What `inspect` of peer.go accepts as a normal proposal the applier
executes without a panic, unless a request has a type the enum does not name: the peer
rejects an invalid request and a mix of reads and writes before proposing, where the applier
would stop on either, but lets a request of an unnamed type through, on which
`execNormalCmd` stops (`proposed_normal_applies`).  And the applier's callback model, which
keeps of a command only its `ChangePeer` request and of a region only its peers, is what the
data path computes: applying a command to both, from appliers that agree on the id, the
peers and `pendingRemove`, with epoch checks that agree on a `ChangePeer` command, leaves
them agreeing, with the callback model's error the data path's (`applyRaftCmd_refines`);
over a run of committed entries, with the `commit` after each, the two agree at the end
(`committedEntries_refines`).
-/

open RaftCmdpb (Request)

/-! ## What the peer proposes, the applier executes -/

/--
The loop of `inspect` accepts the requests exactly when none is invalid and reads and
writes, with the flags it starts from, do not mix.
-/
theorem inspectRequests_eq_proposeNormal : ∀ {hasRead hasWrite : Bool} {reqs : List Request},
    (hasRead && hasWrite) = false →
      (inspectRequests hasRead hasWrite reqs = .ok .proposeNormal ↔
        (∀ r ∈ reqs, r.cmdType ≠ .invalid) ∧
          ¬((hasRead || reqs.any Request.isRead) = true ∧ (hasWrite || reqs.any Request.isWrite) = true))
  | hasRead, hasWrite, [], unmixed => by simpa [inspectRequests] using unmixed
  | hasRead, hasWrite, r :: rs, unmixed => by
    rw [inspectRequests_cons]
    split_ifs with invalid mixed
    · simp [invalid]
    · -- The loop stops at the request that raises the second flag.
      simp only [Bool.and_eq_true] at mixed
      rw [List.any_cons, List.any_cons, ← Bool.or_assoc, ← Bool.or_assoc, mixed.1, mixed.2]
      simp
    · rw [inspectRequests_eq_proposeNormal (by simpa using mixed)]
      simp [invalid, Bool.or_assoc]

namespace Exec.Applier

variable {checkRegionEpoch : RaftCmdpb.RaftCmdRequest → Metapb.Region → Bool} {a : Applier} {ctx : ApplyContext}
  {req : RaftCmdpb.RaftCmdRequest}

/-- A normal command executes without a panic when its epoch check fails, or its requests run without one. -/
theorem execRaftCmd_normal_isOk (normal : req.adminRequest = none) :
    (∃ r, a.execRaftCmd checkRegionEpoch ctx req = .ok r) ↔
      checkRegionEpoch req a.region = false ∨ ∃ r, a.execNormalCmd ctx req = .ok r := by
  unfold execRaftCmd
  cases checkRegionEpoch req a.region
  · simp
  · simp only [normal, Bool.not_true, Bool.false_eq_true, Bool.true_eq_false, if_false, bind_eq_ok, pure_eq_ok,
      false_or]
    exact ⟨fun ⟨_, r, ran, _⟩ => ⟨r, ran⟩, fun ⟨_, ran⟩ => ⟨_, _, ran, rfl⟩⟩

/-- On an applier not being removed, applying a command panics exactly when executing it does. -/
theorem applyRaftCmd_isOk {index : Nat} (pending : a.pendingRemove = false) :
    (∃ r, a.applyRaftCmd checkRegionEpoch ctx index req = .ok r) ↔
      ∃ r, a.execRaftCmd checkRegionEpoch { ctx with applyState := a.applyState, wb := ctx.wb.setSafePoint } req = .ok r := by
  refine ⟨fun ⟨_, done⟩ => ?_, fun ⟨⟨a₁, ctx₁, txn₁, r⟩, executed⟩ => ?_⟩
  · obtain ⟨-, _, _, _, _, executed, -⟩ := applyRaftCmd_eq_ok done
    exact ⟨_, executed⟩
  · unfold applyRaftCmd
    simp only [pending, Bool.false_eq_true, if_false, executed]
    exact ⟨_, rfl⟩

/--
A normal command passes the epoch check and executes without a panic exactly when `inspect`
of peer.go accepts it as a normal proposal and none of its requests has a type the enum does
not name: `inspect` lets such a request through, and `execNormalCmd` stops on it.
-/
theorem proposed_normal_applies {index : Nat} (pending : a.pendingRemove = false) (normal : req.adminRequest = none) :
    (∃ r, a.applyRaftCmd checkRegionEpoch ctx index req = .ok r) ↔
      checkRegionEpoch req a.region = false ∨
        inspect req = .ok .proposeNormal ∧ ∀ r ∈ req.requests, ∀ value, r.cmdType ≠ .unnamed value := by
  have inspected : inspect req = inspectRequests false false req.requests := by
    simp [inspect, RaftCmdpb.getChangePeerCmd, RaftCmdpb.getTransferLeaderCmd, normal]
  rw [applyRaftCmd_isOk pending, execRaftCmd_normal_isOk normal, execNormalCmd_isOk, inspected,
    inspectRequests_eq_proposeNormal (by rfl : (false && false) = false)]
  simp only [Bool.false_or, forall_and]
  exact or_congr_right ⟨fun ⟨⟨valid, named⟩, unmixed⟩ => ⟨⟨valid, fun mixed => unmixed mixed.symm⟩, named⟩,
    fun ⟨⟨valid, unmixed⟩, named⟩ => ⟨⟨valid, named⟩, fun mixed => unmixed mixed.symm⟩⟩

/-- A get of `[6]`, then a request of the type 2, which the enum does not name. -/
def unnamedCmd : RaftCmdpb.RaftCmdRequest :=
  { requests := [{ cmdType := .get, key := [6] }, { cmdType := .unnamed 2 }] }

/-- The peer proposes the command with the request of type 2, and the applier stops on it. -/
theorem unnamedCmd_proposed_then_fatal : inspect unnamedCmd = .ok .proposeNormal ∧
    applier₀.applyRaftCmd (fun _ _ => true) ctx₀ 6 unnamedCmd = .error (.invalidCmdType (.unnamed 2)) ∧
    ((∃ r, applier₀.applyRaftCmd (fun _ _ => true) ctx₀ 6 unnamedCmd = .ok r) ↔
      (fun _ _ => true : RaftCmdpb.RaftCmdRequest → Metapb.Region → Bool) unnamedCmd applier₀.region = false ∨
        inspect unnamedCmd = .ok .proposeNormal ∧ ∀ r ∈ unnamedCmd.requests, ∀ value, r.cmdType ≠ .unnamed value) :=
  ⟨rfl, rfl, proposed_normal_applies rfl rfl⟩

/-! ## The callback model reads the data path -/

/-- The `ChangePeer` error a response carries, if it carries one. -/
def changePeerError : CmdResponse → Option ExecError
  | .error (.changePeer err) => some err
  | _ => none

section Refines

variable {checkRegionEpoch' : Raftstore.RaftCmdRequest → Raftstore.Region → Bool} {b : Raftstore.Applier}

/--
The callback model's `execChangePeer` is the data path's, read on the region's peers: from
appliers that agree on the id, the peers and `pendingRemove`, both fail with the same error,
or both give the region the same peers and set `pendingRemove` alike.
-/
theorem execChangePeer_refines (id : b.id = a.id) (peers : b.region = a.region.view)
    (pending : b.pendingRemove = a.pendingRemove) (ctx : ApplyContext) (request : ChangePeerRequest) :
    (∃ err, a.execChangePeer ctx request = (a, ctx, .error (.changePeer err)) ∧ b.execChangePeer request = .error err) ∨
      ∃ peers' pendingRemove,
        (a.execChangePeer ctx request).1 = { a with pendingRemove } ∧
        (a.execChangePeer ctx request).2.2 =
          .ok (.changePeer (changedRegion a.region peers'), .changePeer (changedRegion a.region peers') request.peer) ∧
        b.execChangePeer request = .ok { b with region := { peers := peers' }, pendingRemove } := by
  unfold execChangePeer Raftstore.Applier.execChangePeer
  rw [peers, id, pending]
  dsimp only
  cases request.changeType
  · -- `AddNode`
    rcases found : Raftstore.Region.findPeer { peers := a.region.peers } request.peer.storeId with _ | p <;>
      simp only [Metapb.Region.findPeer, Metapb.Region.view, found]
    · exact .inr ⟨_, a.pendingRemove, rfl, rfl, rfl⟩
    · exact .inl ⟨_, rfl, rfl⟩
  · -- `RemoveNode`
    rcases found : Raftstore.Region.removePeer { peers := a.region.peers } request.peer.storeId with
      ⟨_ | p, removed⟩ <;> simp only [Metapb.Region.removePeer, Metapb.Region.view, found]
    · exact .inl ⟨_, rfl, rfl⟩
    · by_cases matched : p = request.peer
      · rw [if_neg (not_not_intro matched), if_neg (not_not_intro matched)]
        by_cases own : a.id = request.peer.id
        · exact .inr ⟨_, true, by rw [if_pos own], by rw [if_pos own]; rfl, by rw [if_pos own]; rfl⟩
        · exact .inr ⟨_, a.pendingRemove, by rw [if_neg own], by rw [if_neg own]; rfl, by rw [if_neg own]; rfl⟩
      · exact .inl ⟨_, by rw [if_pos matched], by rw [if_pos matched]; rfl⟩

/--
An admin command without a `ChangePeer` request leaves the applier as it was, and the
region it results in has the peers the applier's region had.
-/
theorem execAdminCmd_keeps {a₁ : Applier} {ctx₁ : ApplyContext} {adminReq : RaftCmdpb.AdminRequest}
    {r : Except ApplyError (CmdResponse × Option ExecResult)} (none : adminReq.changePeer = none)
    (done : a.execAdminCmd ctx adminReq = .ok (a₁, ctx₁, r)) :
    a₁ = a ∧ ∀ resp result, r = .ok (resp, result) → (regionAfter a.region result).view = a.region.view := by
  unfold execAdminCmd at done
  cases kind : adminReq.cmdType <;> simp only [kind, none] at done
  case changePeer => exact absurd done throw_ne_ok
  case split =>
    split at done
    · exact absurd done throw_ne_ok
    rename_i splitReq _
    rcases execSplit_cases a ctx splitReq with ⟨err, failed⟩ | ⟨-, -, _, -, -, -, -, -, -, split⟩
    · rw [failed] at done
      cases pure_eq_ok.mp done
      exact ⟨rfl, fun _ _ => nofun⟩
    · rw [split] at done
      cases pure_eq_ok.mp done
      exact ⟨rfl, fun _ _ made => by cases made; rfl⟩
  case compactLog =>
    split at done
    · exact absurd done throw_ne_ok
    rename_i compactReq _
    rcases execCompactLog_cases ctx compactReq with compacted | compacted | ⟨-, -, -, compacted⟩ <;>
      rw [compacted] at done <;> cases pure_eq_ok.mp done
    · exact ⟨rfl, fun _ _ => nofun⟩
    all_goals exact ⟨rfl, fun _ _ made => by cases made; rfl⟩
  all_goals
    cases pure_eq_ok.mp done
    exact ⟨rfl, fun _ _ => nofun⟩

/--
The applier's callback model is what the data path computes.  Take appliers that agree on
the id, the region's peers and `pendingRemove`; the callback model's epoch check
`checkRegionEpoch'`, on what it keeps of the command and the region; and a command whose
`ChangePeer` request, if it has one, comes in an admin request of that type and is judged
alike by both checks (on other commands neither side changes the peers, whatever the checks
decide).  Applying the command to both leaves them agreeing on the peers and
`pendingRemove`, at the entry's index, and the callback model reports the epoch error where
its check fails, and otherwise an error exactly for a `ChangePeer` command that the data
path fails with that error.
-/
theorem applyRaftCmd_refines {a' : Applier} {ctx' : ApplyContext} {index : Nat} {resp : CmdResponse} {txn : Bool}
    {result : Option ExecResult} (id : b.id = a.id) (peers : b.region = a.region.view)
    (pending : b.pendingRemove = a.pendingRemove)
    (agreed : (RaftCmdpb.getChangePeerCmd req).isSome →
      checkRegionEpoch' req.view a.region.view = checkRegionEpoch req a.region)
    (typed : ∀ adminReq, req.adminRequest = some adminReq → adminReq.changePeer.isSome → adminReq.cmdType = .changePeer)
    (done : a.applyRaftCmd checkRegionEpoch ctx index req = .ok (a', ctx', resp, txn, result)) :
    b.applyRaftCmd checkRegionEpoch' index req.view =
      (if checkRegionEpoch' req.view a.region.view then (RaftCmdpb.getChangePeerCmd req).bind fun _ => changePeerError resp
        else some .epochNotMatch,
        { b with region := a'.region.view, pendingRemove := a'.pendingRemove, appliedIndex := a'.applyState.appliedIndex }) := by
  obtain ⟨-, a₁, ctx₁, txn₁, r, executed, rfl, finished⟩ := applyRaftCmd_eq_ok done
  unfold execRaftCmd at executed
  unfold Raftstore.Applier.applyRaftCmd Raftstore.Applier.execRaftCmd
  simp only [RaftCmdpb.getChangePeerCmd_view, peers]
  rcases change : RaftCmdpb.getChangePeerCmd req with _ | request
  · -- No `ChangePeer` request: the data path keeps the applier and the peers.
    have ⟨kept, same⟩ : a₁ = a ∧
        ∀ resp result, r = .ok (resp, result) → (regionAfter a.region result).view = a.region.view := by
      split_ifs at executed
      · cases pure_eq_ok.mp executed
        exact ⟨rfl, fun _ _ => nofun⟩
      split at executed
      · obtain ⟨⟨a₂, ctx₂, r₂⟩, admined, rest⟩ := bind_eq_ok.mp executed
        cases pure_eq_ok.mp rest
        exact execAdminCmd_keeps (by simpa [RaftCmdpb.getChangePeerCmd, *] using change) admined
      · obtain ⟨⟨ctx₂, txn₂, r₂⟩, -, rest⟩ := bind_eq_ok.mp executed
        cases pure_eq_ok.mp rest
        exact ⟨rfl, fun _ _ made => by obtain ⟨_, -, mapped⟩ := map_eq_ok.mp made; cases mapped; rfl⟩
    subst kept
    have region : (regionAfter a₁.region result).view = a₁.region.view := by
      rcases finished with ⟨rfl, -, -⟩ | ⟨-, -, -, -, -, rfl⟩
      · exact same _ _ rfl
      · rfl
    rw [region]
    cases checkRegionEpoch' req.view a₁.region.view <;> rw [← peers, ← pending] <;> rfl
  · -- A `ChangePeer` request: both sides run `execChangePeer` on it.
    obtain ⟨adminReq, admin, present⟩ : ∃ adminReq, req.adminRequest = some adminReq ∧ adminReq.changePeer = some request := by
      simpa [RaftCmdpb.getChangePeerCmd, Option.bind_eq_some] using change
    rw [agreed (by simp [change])]
    cases matched : checkRegionEpoch req a.region
    · -- The epoch check fails on both sides, and neither changes the applier.
      simp only [matched, Bool.not_false, if_true] at executed
      cases pure_eq_ok.mp executed
      rcases finished with ⟨finished, -, -⟩ | ⟨_, finished, -, rfl, -, rfl⟩ <;> cases finished
      show ((some .epochNotMatch, { b with appliedIndex := index }) : Option ExecError × Raftstore.Applier) =
        (some .epochNotMatch, { b with region := a.region.view, pendingRemove := a.pendingRemove, appliedIndex := index })
      rw [← peers, ← pending]
    simp only [matched, Bool.not_true, Bool.false_eq_true, if_false, admin] at executed
    obtain ⟨⟨a₂, ctx₂, r₂⟩, admined, rest⟩ := bind_eq_ok.mp executed
    cases pure_eq_ok.mp rest
    unfold execAdminCmd at admined
    simp only [typed adminReq admin (by simp [present]), present] at admined
    rcases execChangePeer_refines id peers pending { ctx with applyState := a.applyState, wb := ctx.wb.setSafePoint } request
      with ⟨err, failed, refused⟩ | ⟨peers', pendingRemove, applier, outcome, accepted⟩
    · rw [failed] at admined
      cases pure_eq_ok.mp admined
      rcases finished with ⟨finished, -, -⟩ | ⟨_, finished, -, rfl, -, rfl⟩ <;> cases finished
      dsimp only
      rw [refused]
      show ((some err, { b with appliedIndex := index }) : Option ExecError × Raftstore.Applier) =
        (some err, { b with region := a.region.view, pendingRemove := a.pendingRemove, appliedIndex := index })
      rw [← peers, ← pending]
    · rw [applier, outcome] at admined
      cases pure_eq_ok.mp admined
      rcases finished with ⟨finished, -, -⟩ | ⟨_, finished, -, -, -, -⟩ <;> cases finished
      dsimp only
      rw [accepted]
      rfl

/-- Adding a peer on store 3 to region 1. -/
def addCmd : RaftCmdpb.RaftCmdRequest :=
  { adminRequest := some { cmdType := .changePeer, changePeer := some { changeType := .addNode, peer := ⟨3, 3⟩ } } }

/-- The callback model of region 1's applier adds the peer as the data path does. -/
theorem addCmd_refines : ∃ a' ctx' resp txn result,
    applier₀.applyRaftCmd (fun _ _ => true) ctx₀ 6 addCmd = .ok (a', ctx', resp, txn, result) ∧
      a'.region.peers = [⟨1, 1⟩, ⟨2, 2⟩, ⟨3, 3⟩] ∧
      (newApplierFromPeer 1 1 region₀.view 5).applyRaftCmd (fun _ _ => true) 6 addCmd.view =
        (if (fun _ _ => true : Raftstore.RaftCmdRequest → Raftstore.Region → Bool) addCmd.view applier₀.region.view then
            (RaftCmdpb.getChangePeerCmd addCmd).bind fun _ => changePeerError resp
          else some .epochNotMatch,
          { newApplierFromPeer 1 1 region₀.view 5 with
            region := a'.region.view, pendingRemove := a'.pendingRemove, appliedIndex := a'.applyState.appliedIndex }) := by
  obtain ⟨⟨a', ctx', resp, txn, result⟩, ran⟩ : ∃ r, applier₀.applyRaftCmd (fun _ _ => true) ctx₀ 6 addCmd = .ok r :=
    ⟨_, rfl⟩
  have added : a'.region.peers = [⟨1, 1⟩, ⟨2, 2⟩, ⟨3, 3⟩] := by
    cases ran
    rfl
  exact ⟨a', ctx', resp, txn, result, ran, added,
    applyRaftCmd_refines (by rfl) (by rfl) (by rfl) (fun _ => rfl) (fun _ admin _ => by cases admin; rfl) ran⟩

end Refines

/-! ## Runs of the apply loop -/

/--
The callback model's applier `b` reads the data path's `a`: the same id, the region's
peers, `pendingRemove`, and the applied index.
-/
structure Agrees (a : Applier) (b : Raftstore.Applier) : Prop where
  id : b.id = a.id
  peers : b.region = a.region.view
  pendingRemove : b.pendingRemove = a.pendingRemove
  appliedIndex : b.appliedIndex = a.applyState.appliedIndex

/--
What reading the data path's entries with the callback model asks of the data path's
decoder: the callback model's decoder finds in the same data the command's `ChangePeer`
part, a `ChangePeer` request comes in an admin request of that type, and the two epoch
checks judge a command with one alike on every region.
-/
structure DecodesAlike (checkRegionEpoch' : Raftstore.RaftCmdRequest → Raftstore.Region → Bool)
    (checkRegionEpoch : RaftCmdpb.RaftCmdRequest → Metapb.Region → Bool)
    (unmarshal : List Nat → Option RaftCmdpb.RaftCmdRequest) : Prop where
  view : ∀ data, (unmarshal data).map RaftCmdpb.RaftCmdRequest.view = Raftstore.RaftCmdRequest.unmarshal data
  typed : ∀ data cmd, unmarshal data = some cmd → ∀ adminReq, cmd.adminRequest = some adminReq →
    adminReq.changePeer.isSome → adminReq.cmdType = .changePeer
  agreed : ∀ data cmd region, unmarshal data = some cmd → (RaftCmdpb.getChangePeerCmd cmd).isSome →
    checkRegionEpoch' cmd.view region.view = checkRegionEpoch cmd region

section Runs

variable {checkRegionEpoch' : Raftstore.RaftCmdRequest → Raftstore.Region → Bool}
  {unmarshal : List Nat → Option RaftCmdpb.RaftCmdRequest} {b : Raftstore.Applier}

theorem DecodesAlike.decodes (decoder : DecodesAlike checkRegionEpoch' checkRegionEpoch unmarshal) {data : List Nat}
    {cmd : RaftCmdpb.RaftCmdRequest} (decoded : unmarshal data = some cmd) :
    Raftstore.RaftCmdRequest.unmarshal data = some cmd.view := by
  rw [← decoder.view, decoded]
  rfl

/--
At a nonzero index the callback model's `processRaftCmd` keeps what its `applyRaftCmd`
leaves, up to the callbacks it completes.
-/
theorem processRaftCmd_agrees {index term : Nat} {cmd : Raftstore.RaftCmdRequest} (nonzero : index ≠ 0)
    (agrees : Agrees a (b.applyRaftCmd checkRegionEpoch' index cmd).2) :
    ∃ b', b.processRaftCmd checkRegionEpoch' index term cmd = .ok b' ∧ Agrees a b' := by
  unfold Raftstore.Applier.processRaftCmd
  rw [if_neg nonzero]
  cases applied : b.applyRaftCmd checkRegionEpoch' index cmd with
  | mk error b₁ =>
    rw [applied] at agrees
    obtain ⟨_, found, _, -, -, -, callback⟩ := b₁.findCallback_spec index term (Raftstore.getChangePeerCmd cmd).isSome
    dsimp only
    rw [callback]
    cases found <;> exact ⟨_, rfl, agrees.id, agrees.peers, agrees.pendingRemove, agrees.appliedIndex⟩

/-- A command the data path decodes and runs, the callback model decodes and runs too. -/
theorem processRaftCmd_refines {a' : Applier} {ctx' : ApplyContext} {index term : Nat} {data : List Nat}
    (decoder : DecodesAlike checkRegionEpoch' checkRegionEpoch unmarshal) (agrees : Agrees a b)
    (decoded : unmarshal data = some req) (done : a.processRaftCmd checkRegionEpoch ctx index req = .ok (a', ctx')) :
    ∃ b', b.processRaftCmd checkRegionEpoch' index term req.view = .ok b' ∧ Agrees a' b' := by
  obtain ⟨nonzero, _, _, _, applied⟩ := processRaftCmd_eq_ok done
  refine processRaftCmd_agrees nonzero ?_
  rw [applyRaftCmd_refines agrees.id agrees.peers agrees.pendingRemove (decoder.agreed _ _ _ decoded)
    (decoder.typed _ _ decoded) applied]
  exact ⟨agrees.id.trans (applyRaftCmd_applies applied).id_eq.symm, rfl, rfl, rfl⟩

/-- One entry: where the data path applies it, the callback model applies it too, and the two still agree. -/
theorem handleRaftEntry_refines {a' : Applier} {ctx' : ApplyContext} {entry : Entry}
    (decoder : DecodesAlike checkRegionEpoch' checkRegionEpoch unmarshal) (agrees : Agrees a b)
    (done : a.handleRaftEntry checkRegionEpoch unmarshal ctx entry = .ok (a', ctx')) :
    ∃ b', b.handleRaftEntry checkRegionEpoch' entry = .ok b' ∧ Agrees a' b' := by
  unfold handleRaftEntry at done
  unfold Raftstore.Applier.handleRaftEntry Raftstore.Applier.handleRaftEntryNormal
    Raftstore.Applier.handleRaftEntryConfChange
  cases kind : entry.entryType <;> simp only [kind] at done ⊢
  case entryNormal =>
    by_cases empty : entry.data = []
    · -- The empty entry of a new leader: both take its index as the applied one.
      simp only [empty, ne_eq, not_true_eq_false, if_false] at done ⊢
      split_ifs at done with zero
      cases pure_eq_ok.mp done
      obtain ⟨_, _, -, -, popped⟩ :=
        Raftstore.Applier.popStaleNormals_spec entry.term b.pendingCmds.normals.length { b with appliedIndex := entry.index }
      rw [if_neg zero, popped]
      exact ⟨_, rfl, agrees.id, agrees.peers, agrees.pendingRemove, rfl⟩
    · simp only [empty, ne_eq, not_false_eq_true, if_true] at done ⊢
      split at done
      · rename_i decoded
        rw [decoder.decodes decoded]
        exact processRaftCmd_refines decoder agrees decoded done
      · exact absurd done throw_ne_ok
  case entryConfChange =>
    split at done
    · rename_i decoded
      rw [decoder.decodes decoded]
      exact processRaftCmd_refines decoder agrees decoded done
    · exact absurd done throw_ne_ok

/--
The loop of the data path, from a prepared applier, read through `Agrees`: the `commit`
after each entry leaves the applier as the entry left it, so the callback model applies the
same entries.
-/
theorem applyEntries_refines (decoder : DecodesAlike checkRegionEpoch' checkRegionEpoch unmarshal) :
    ∀ {a a' : Applier} {ctx ctx' : ApplyContext} {b : Raftstore.Applier} {entries : List Entry},
      Agrees a b → Prepared a ctx → a.applyEntries checkRegionEpoch unmarshal ctx entries = .ok (a', ctx') →
      ∃ b', b.handleRaftCommittedEntries checkRegionEpoch' entries = .ok b' ∧ Agrees a' b'
  | _, _, _, _, b, [], agrees, _, done => by
    cases pure_eq_ok.mp done
    exact ⟨b, rfl, agrees⟩
  | _, _, _, _, b, entry :: rest, agrees, prepared, done => by
    unfold applyEntries at done
    unfold Raftstore.Applier.handleRaftCommittedEntries
    rw [agrees.pendingRemove, agrees.appliedIndex]
    split_ifs at done with removed next
    · cases pure_eq_ok.mp done
      exact ⟨b, by rw [if_pos removed]; rfl, agrees⟩
    · obtain ⟨⟨a₁, ctx₁⟩, entered, committing⟩ := bind_eq_ok.mp done
      obtain ⟨⟨a₂, ctx₂⟩, committed, ran⟩ := bind_eq_ok.mp committing
      obtain ⟨rfl, -, prepared₂, -⟩ := applyEntry_runs prepared (by omega) entered committed
      obtain ⟨b₁, entered', agrees₁⟩ := handleRaftEntry_refines decoder agrees entered
      obtain ⟨b', ran', agrees'⟩ := applyEntries_refines decoder agrees₁ prepared₂ ran
      exact ⟨b', by rw [if_neg removed, if_neg next, entered']; exact ran', agrees'⟩

/--
The callback model's apply loop is the data path's, read through `Agrees`: from appliers that
agree, and an engine whose apply state for the region, if it holds one, has the applier's
applied index (`prepareFor` reads it back), wherever the data path applies a run of
committed entries, the callback model applies them too, and the two end agreeing on the id,
the region's peers, `pendingRemove` and the applied index.
-/
theorem committedEntries_refines {a a' : Applier} {ctx ctx' : ApplyContext} {entries : List Entry}
    (decoder : DecodesAlike checkRegionEpoch' checkRegionEpoch unmarshal) (agrees : Agrees a b)
    (stored : ∀ applyState, ctx.kv.applyStates a.region.id = some applyState →
      applyState.appliedIndex = a.applyState.appliedIndex)
    (done : a.handleRaftCommittedEntries checkRegionEpoch unmarshal ctx entries = .ok (a', ctx')) :
    ∃ b', b.handleRaftCommittedEntries checkRegionEpoch' entries = .ok b' ∧ Agrees a' b' := by
  rcases handleRaftCommittedEntries_eq_ok done with ⟨rfl, rfl, rfl⟩ | ⟨-, applyState, a₁, ctx₁, read, looped, rfl, rfl⟩
  · exact ⟨b, rfl, agrees⟩
  · have prepared : Prepared { a with applyState } { ctx with lastAppliedIndex := applyState.appliedIndex } :=
      ⟨rfl, read⟩
    have agreesRead : Agrees { a with applyState } b :=
      ⟨agrees.id, agrees.peers, agrees.pendingRemove, agrees.appliedIndex.trans (stored _ read).symm⟩
    exact applyEntries_refines decoder agreesRead prepared looped

/-- The data path's commands in the callback model's wire form: a `ChangePeer` request in an admin request of that type. -/
def decodeChangePeer (data : List Nat) : Option RaftCmdpb.RaftCmdRequest :=
  (Raftstore.RaftCmdRequest.unmarshal data).map fun cmd =>
    { adminRequest := cmd.changePeer.map fun changePeer => { cmdType := .changePeer, changePeer := some changePeer } }

theorem decodeChangePeer_alike : DecodesAlike (fun _ _ => true) (fun _ _ => true) decodeChangePeer where
  view data := by
    rw [decodeChangePeer, Option.map_map]
    rcases Raftstore.RaftCmdRequest.unmarshal data with _ | ⟨_ | _⟩ <;> rfl
  typed _ _ decoded adminReq admin _ := by
    obtain ⟨cmd, -, rfl⟩ := Option.map_eq_some'.mp decoded
    obtain ⟨changePeer, -, rfl⟩ := Option.map_eq_some'.mp admin
    rfl
  agreed _ _ _ _ _ := rfl

/-- Adding a peer on store 3 at index 6, then a leader's empty entry of term 2 at index 7. -/
def confEntries : List Entry :=
  [{ entryType := .entryConfChange, index := 6, term := 1, data := [1, 3, 3] }, { index := 7, term := 2 }]

/-- The callback model of region 1's applier follows the data path through the membership change. -/
theorem confRun_refines : ∃ a' ctx',
    applier₀.handleRaftCommittedEntries (fun _ _ => true) decodeChangePeer ctx₀ confEntries = .ok (a', ctx') ∧
      a'.region.peers = [⟨1, 1⟩, ⟨2, 2⟩, ⟨3, 3⟩] ∧ a'.applyState.appliedIndex = 7 ∧
      ∃ b', (newApplierFromPeer 1 1 region₀.view 5).handleRaftCommittedEntries (fun _ _ => true) confEntries = .ok b' ∧
        Agrees a' b' := by
  obtain ⟨⟨a', ctx'⟩, ran⟩ : ∃ r,
      applier₀.handleRaftCommittedEntries (fun _ _ => true) decodeChangePeer ctx₀ confEntries = .ok r :=
    ⟨_, rfl⟩
  have facts : a'.region.peers = [⟨1, 1⟩, ⟨2, 2⟩, ⟨3, 3⟩] ∧ a'.applyState.appliedIndex = 7 := by
    cases ran
    exact ⟨rfl, rfl⟩
  exact ⟨a', ctx', ran, facts.1, facts.2, committedEntries_refines decodeChangePeer_alike ⟨by rfl, by rfl, by rfl, by rfl⟩
    (fun _ read => by cases read; rfl) ran⟩

end Runs

end Exec.Applier

end TinyKVRaft.Raftstore
