import TinyKVRaft.Applier

namespace TinyKVRaft.Raftstore

/-!
# Each callback is completed once, and rightly

Runs of the applier from `newApplierFromPeer`, in which every proposal brings a callback of
its own.  The ledger invariant says that each callback handed to the applier waits in the
queue or has been completed, never both and never twice, and that a callback completed with
an execution response belongs to a proposal of that index and term whose command was
applied.  It holds whatever the tasks are, refreshes and `destroy` included.

A stale completion is meant to say that the proposal's command will not be applied.  Over
one committed log, whose terms do not decrease, that holds of runs of proposals and
committed entries when proposals of one term come in index order, a conf change is proposed
only once the earlier ones are applied or overwritten, and a proposal comes after every
unapplied command of its term before it (and, for a conf change, after every unapplied
conf change before it).  The invariant `Sound` carries what a stale completion knows: the
proposal's entry is applied, overwritten, or the applier is being removed.  A refresh
breaks it, and so does a command of the same term that nobody registered
(`staleCommand_applied_afterwards`).
-/

open PendingCmdQueue

/-- The proposals of an event bring callbacks no earlier proposal brought. -/
def Event.FreshFor (a : Applier) : Event → Prop
  | .proposal m => ((a.proposals ++ m.props).map (·.cb)).Nodup
  | _ => True

namespace Applier

/-- The ledger of callbacks: each is waiting or completed, once, and an execution response
goes to the proposal of the entry applied. -/
structure Ledger (a : Applier) : Prop where
  registeredOnce : (a.proposals.map (·.cb)).Nodup
  completedOnce : (a.done.map (·.1) ++ a.pendingCmds.cbs).Nodup
  normalsRegistered : (a.pendingCmds.normals.map (·.toProposal false)).Sublist a.proposals
  confRegistered : ∀ c ∈ a.pendingCmds.confChange, c.toProposal true ∈ a.proposals
  doneRegistered : ∀ x ∈ a.done, x.1 ∈ a.proposals.map (·.cb)
  execApplied : ∀ cb i t error, (cb, Resp.exec i t error) ∈ a.done →
    ∃ k, ⟨k, i, t, cb⟩ ∈ a.proposals ∧ (i, t, k) ∈ a.applied

variable {checkRegionEpoch : RaftCmdRequest → Region → Bool} {a b : Applier}

theorem Ledger.frame (inv : a.Ledger) (proposals : b.proposals = a.proposals)
    (done : b.done = a.done) (pendingCmds : b.pendingCmds = a.pendingCmds)
    (applied : b.applied = a.applied) : b.Ledger := by
  obtain ⟨h₁, h₂, h₃, h₄, h₅, h₆⟩ := inv
  exact ⟨proposals ▸ h₁, done ▸ pendingCmds ▸ h₂, proposals ▸ pendingCmds ▸ h₃,
    proposals ▸ pendingCmds ▸ h₄, proposals ▸ done ▸ h₅, proposals ▸ done ▸ applied ▸ h₆⟩

/-- A waiting command is one of the proposals, of its kind. -/
theorem Ledger.registered_of_takes (inv : a.Ledger) {k : Bool} {taken : List PendingCmd}
    {q : PendingCmdQueue} (takes : a.pendingCmds.Takes k taken q) {c : PendingCmd}
    (mem : c ∈ taken) : c.toProposal k ∈ a.proposals := by
  rcases takes.mem mem with ⟨rfl, normal⟩ | ⟨rfl, slot⟩
  · exact inv.normalsRegistered.subset (List.mem_map_of_mem _ normal)
  · exact inv.confRegistered c slot

/--
Completing the commands a call takes from the queue keeps the ledger, provided that an
execution response names the taken command's own index and term, applied as its kind.
-/
theorem Ledger.complete (inv : a.Ledger) {k : Bool} {taken : List PendingCmd}
    {q : PendingCmdQueue} (takes : a.pendingCmds.Takes k taken q) (respond : PendingCmd → Resp)
    {applied : List (Nat × Nat × Bool)} (grows : a.applied ⊆ applied)
    (execs : ∀ c ∈ taken, ∀ i t error, respond c = .exec i t error →
      i = c.index ∧ t = c.term ∧ (i, t, k) ∈ applied) :
    { a with pendingCmds := q, done := a.done ++ taken.map (fun c : PendingCmd => (c.cb, respond c)),
             applied }.Ledger where
  registeredOnce := inv.registeredOnce
  completedOnce := by
    have perm := (takes.cbs_perm.append_left (a.done.map (·.1))).nodup_iff.mp inv.completedOnce
    simpa [List.map_append, Function.comp_def] using perm
  normalsRegistered := (takes.normals_sublist.map _).trans inv.normalsRegistered
  confRegistered c mem := inv.confRegistered c (takes.confChange_mem mem)
  doneRegistered x mem := by
    rcases List.mem_append.mp mem with old | new
    · exact inv.doneRegistered x old
    · obtain ⟨c, taken, rfl⟩ := List.mem_map.mp new
      exact List.mem_map_of_mem _ (inv.registered_of_takes takes taken)
  execApplied cb i t error mem := by
    rcases List.mem_append.mp mem with old | new
    · obtain ⟨k', registered, done⟩ := inv.execApplied cb i t error old
      exact ⟨k', registered, grows done⟩
    · obtain ⟨c, taken, same⟩ := List.mem_map.mp new
      simp only [Prod.mk.injEq] at same
      obtain ⟨rfl, rfl, appliedNow⟩ := execs c taken i t error same.2
      exact ⟨k, same.1 ▸ inv.registered_of_takes takes taken, appliedNow⟩

/-- A callback the ledger holds belongs to a proposal. -/
theorem Ledger.registered_of_mem (inv : a.Ledger) {cb : Nat}
    (mem : cb ∈ a.done.map (·.1) ++ a.pendingCmds.cbs) : cb ∈ a.proposals.map (·.cb) := by
  rcases List.mem_append.mp mem with completed | waiting
  · obtain ⟨x, done, rfl⟩ := List.mem_map.mp completed
    exact inv.doneRegistered x done
  · simp only [cbs, List.mem_append, List.mem_map, Option.mem_toList] at waiting
    rcases waiting with ⟨c, normal, rfl⟩ | ⟨c, slot, rfl⟩
    · exact List.mem_map_of_mem (·.cb)
        (inv.normalsRegistered.subset (List.mem_map_of_mem (·.toProposal false) normal))
    · exact List.mem_map_of_mem (·.cb) (inv.confRegistered c slot)

/-- A fresh callback joins a ledger without duplicate anywhere in it. -/
theorem nodup_insert {l r : List Nat} {x : Nat} (fresh : x ∉ l ++ r)
    (nodup : (l ++ r).Nodup) : (l ++ x :: r).Nodup :=
  List.nodup_middle.mpr (List.nodup_cons.mpr ⟨fresh, nodup⟩)

/-- Recording a proposal with a fresh callback and queueing its command keeps the ledger. -/
theorem Ledger.enqueue (inv : a.Ledger) {p : Proposal} (fresh : p.cb ∉ a.proposals.map (·.cb))
    (slotFree : p.isConfChange = true → a.pendingCmds.confChange = none) :
    { a with
      proposals := a.proposals ++ [p]
      pendingCmds := if p.isConfChange then a.pendingCmds.setConfChange p.cmd
        else a.pendingCmds.appendNormal p.cmd }.Ledger := by
  have outside : p.cb ∉ a.done.map (·.1) ++ a.pendingCmds.cbs :=
    fun mem => fresh (inv.registered_of_mem mem)
  have recorded : p.cmd.toProposal p.isConfChange = p := rfl
  constructor
  · simpa [List.nodup_append, fresh] using inv.registeredOnce
  · have old := inv.completedOnce
    simp only [cbs, List.map_append, ← List.append_assoc] at old outside ⊢
    cases conf : p.isConfChange
    · simpa [appendNormal, Proposal.cmd] using nodup_insert outside old
    · have empty := slotFree conf
      simp only [empty, Option.toList, List.map_nil, List.append_nil] at old outside
      simpa [setConfChange, empty, Proposal.cmd] using
        (List.perm_append_singleton _ _).nodup_iff.mpr (List.nodup_cons.mpr ⟨outside, old⟩)
  · cases conf : p.isConfChange
    · rw [conf] at recorded
      simpa [appendNormal, recorded] using inv.normalsRegistered.append (.refl [p])
    · exact inv.normalsRegistered.trans (List.sublist_append_left _ _)
  · intro c slot
    cases conf : p.isConfChange <;>
      simp only [conf, Bool.false_eq_true, if_false, if_true, appendNormal, setConfChange,
        Option.mem_some_iff] at slot
    · exact List.mem_append_left _ (inv.confRegistered c slot)
    · subst slot
      rw [conf] at recorded
      simp [recorded]
  · intro x done
    exact List.map_append .. ▸ List.mem_append_left _ (inv.doneRegistered x done)
  · intro cb i t error done
    obtain ⟨k, registered, applied⟩ := inv.execApplied cb i t error done
    exact ⟨k, List.mem_append_left _ registered, applied⟩

/-- Recording a proposal with a fresh callback and completing it at once keeps the ledger. -/
theorem Ledger.reject (inv : a.Ledger) {p : Proposal} (fresh : p.cb ∉ a.proposals.map (·.cb))
    (term : Nat) :
    { a with proposals := a.proposals ++ [p]
             done := a.done ++ [(p.cb, Resp.staleCommand term)] }.Ledger := by
  have outside : p.cb ∉ a.done.map (·.1) ++ a.pendingCmds.cbs :=
    fun mem => fresh (inv.registered_of_mem mem)
  constructor
  · simpa [List.nodup_append, fresh] using inv.registeredOnce
  · simpa using nodup_insert (r := a.pendingCmds.cbs) outside inv.completedOnce
  · exact inv.normalsRegistered.trans (List.sublist_append_left _ _)
  · exact fun c slot => List.mem_append_left _ (inv.confRegistered c slot)
  · intro x done
    rcases List.mem_append.mp done with old | new
    · exact List.map_append .. ▸ List.mem_append_left _ (inv.doneRegistered x old)
    · simp [List.mem_singleton.mp new]
  · intro cb i t error done
    rcases List.mem_append.mp done with old | new
    · obtain ⟨k, registered, applied⟩ := inv.execApplied cb i t error old
      exact ⟨k, List.mem_append_left _ registered, applied⟩
    · simp at new

theorem Ledger.addProposal (inv : a.Ledger) {p : Proposal}
    (fresh : p.cb ∉ a.proposals.map (·.cb)) : (a.addProposal p).Ledger := by
  cases conf : p.isConfChange
  · rw [addProposal_normal conf]
    exact (inv.enqueue fresh (by simp [conf])).frame rfl rfl (by simp [conf]) rfl
  · rw [addProposal_conf conf]
    have taken := inv.complete (k := true) ⟨rfl, rfl⟩ (fun _ => .staleCommand a.term)
      (List.Subset.refl _) (by simp)
    exact (taken.enqueue fresh fun _ => rfl).frame rfl rfl (by simp [conf, setConfChange]) rfl

/-- Handling proposals with callbacks not seen before, one at a time, keeps the ledger. -/
theorem Ledger.foldl_proposals {f : Applier → Proposal → Applier}
    (step : ∀ (a : Applier) (p : Proposal), a.Ledger → p.cb ∉ a.proposals.map (·.cb) →
      (f a p).Ledger ∧ (f a p).proposals = a.proposals ++ [p]) :
    ∀ (props : List Proposal) (a : Applier), a.Ledger →
      ((a.proposals ++ props).map (·.cb)).Nodup → (props.foldl f a).Ledger
  | [], _, inv, _ => inv
  | p :: props, a, inv, fresh => by
    have split : (a.proposals.map (·.cb) ++ p.cb :: props.map (·.cb)).Nodup := by simpa using fresh
    have new := (List.nodup_cons.mp (List.nodup_middle.mp split)).1
    obtain ⟨inv', recorded⟩ := step a p inv fun mem => new (List.mem_append_left _ mem)
    exact Ledger.foldl_proposals step props (f a p) inv' (by simpa [recorded] using fresh)

theorem Ledger.handleProposal (inv : a.Ledger) {m : MsgApplyProposal}
    (fresh : ((a.proposals ++ m.props).map (·.cb)).Nodup) (done : a.handleProposal m = .ok b) :
    b.Ledger := by
  unfold Applier.handleProposal at done
  split at done
  · exact absurd done throw_ne_ok
  · split at done <;> obtain rfl := pure_eq_ok.mp done
    · exact Ledger.foldl_proposals (fun c p inv new => ⟨inv.reject new c.term, rfl⟩)
        m.props a inv fresh
    · exact Ledger.foldl_proposals
        (fun c p inv new => ⟨inv.addProposal new, addProposal_proposals c p⟩) m.props a inv fresh

/-- Applying one entry keeps the ledger: `findCallback` answers a command it finds with the
entry's response, which names the command's own index and term. -/
theorem Ledger.handleRaftEntry (inv : a.Ledger) {entry : Entry}
    (done : a.handleRaftEntry checkRegionEpoch entry = .ok b) : b.Ledger := by
  rcases handleRaftEntry_eq_ok done with ⟨-, popped, q, takes, -, rfl⟩ | ⟨cmd, -, processed⟩
  · exact (inv.complete takes (fun _ => .staleCommand entry.term) (List.Subset.refl _)
      (by simp)).frame rfl rfl rfl rfl
  · obtain ⟨error, a₁, popped, found, q, -, applied, takes, stale, matched, rfl⟩ :=
      processRaftCmd_eq_ok processed
    obtain ⟨region, pendingRemove, -, rfl⟩ := applyRaftCmd_frame applied
    let respond := fun c : PendingCmd =>
      if c.index = entry.index ∧ c.term = entry.term then Resp.exec entry.index entry.term error
      else .staleCommand entry.term
    have answered := (inv.frame (b := { a with region, pendingRemove, appliedIndex := entry.index })
      rfl rfl rfl rfl).complete takes respond
      (List.subset_append_left a.applied [(entry.index, entry.term, (getChangePeerCmd cmd).isSome)])
      fun c _ i t e same => by
        simp only [respond] at same
        split at same
        · rename_i own
          cases same
          exact ⟨own.1.symm, own.2.symm, by simp⟩
        · cases same
    refine answered.frame rfl ?_ rfl rfl
    simp only [List.map_append, List.append_assoc]
    congr 2
    · exact List.map_congr_left fun c mem => by simp [respond, (stale c mem).2]
    · exact List.map_congr_left fun c mem => by simp [respond, matched c (Option.mem_toList.mp mem)]

theorem Ledger.handleRaftCommittedEntries :
    ∀ {entries : List Entry} {a b : Applier}, a.Ledger →
      a.handleRaftCommittedEntries checkRegionEpoch entries = .ok b → b.Ledger
  | [], _, _, inv, done => by obtain rfl := pure_eq_ok.mp done; exact inv
  | entry :: rest, a, b, inv, done => by
    unfold Applier.handleRaftCommittedEntries at done
    split at done
    · obtain rfl := pure_eq_ok.mp done
      exact inv
    · split at done
      · exact absurd done throw_ne_ok
      · obtain ⟨a₁, applied, rest⟩ := bind_eq_ok.mp done
        exact Ledger.handleRaftCommittedEntries (inv.handleRaftEntry applied) rest

/-- Completing every waiting command with a response other than an execution one. -/
theorem Ledger.completeAll (inv : a.Ledger) (r : Resp) (notExec : ∀ i t e, r ≠ .exec i t e) :
    { a with
      pendingCmds := {}
      done := a.done ++ (a.pendingCmds.normals ++ a.pendingCmds.confChange.toList).map
        fun c : PendingCmd => (c.cb, r) }.Ledger := by
  have normals := inv.complete (k := false) (⟨[], by simp, rfl⟩ : a.pendingCmds.Takes false a.pendingCmds.normals _)
    (fun _ => r) (List.Subset.refl _)
    fun _ _ i t e same => absurd same (notExec i t e)
  have slot := normals.complete (k := true) ⟨rfl, rfl⟩ (fun _ => r) (List.Subset.refl _)
    fun _ _ i t e same => absurd same (notExec i t e)
  exact slot.frame rfl (by simp) rfl rfl

theorem Ledger.handleApply (inv : a.Ledger) {m : MsgApplyCommitted}
    (done : a.handleApply checkRegionEpoch m = .ok b) : b.Ledger := by
  unfold Applier.handleApply at done
  split at done
  · obtain rfl := pure_eq_ok.mp done
    exact inv
  · exact Ledger.handleRaftCommittedEntries (a := { a with term := m.term })
      (inv.frame rfl rfl rfl rfl) done

theorem Ledger.handleRefresh (inv : a.Ledger) {reg : MsgApplyRefresh} {appliedIndex : Nat}
    (done : a.handleRefresh reg appliedIndex = .ok b) : b.Ledger := by
  rw [handleRefresh_eq_ok done]
  exact (inv.completeAll (.staleCommand reg.term) fun _ _ _ => nofun).frame rfl rfl rfl rfl

theorem Ledger.destroy (inv : a.Ledger) : a.destroy.Ledger := by
  rw [destroy_eq]
  exact inv.completeAll .regionNotFound fun _ _ _ => nofun

/-- One event of a run whose proposals bring callbacks of their own. -/
def Step (checkRegionEpoch : RaftCmdRequest → Region → Bool) (a b : Applier) : Prop :=
  ∃ ev : Event, ev.FreshFor a ∧ a.handleEvent checkRegionEpoch ev = .ok b

theorem Ledger.step (inv : a.Ledger) (step : Step checkRegionEpoch a b) : b.Ledger := by
  obtain ⟨ev, fresh, done⟩ := step
  cases ev with
  | proposal m => exact inv.handleProposal fresh done
  | committed m => exact inv.handleApply done
  | refresh m appliedIndex => exact inv.handleRefresh done
  | destroy => obtain rfl := pure_eq_ok.mp done; exact inv.destroy

theorem Ledger.init (id term : Nat) (region : Region) (appliedIndex : Nat) :
    (newApplierFromPeer id term region appliedIndex).Ledger := by
  constructor <;> simp [newApplierFromPeer, cbs]

theorem Ledger.run {a₀ : Applier} (init : a₀.Ledger) (run : Relation.ReflTransGen (Step checkRegionEpoch) a₀ a) :
    a.Ledger := by
  induction run with
  | refl => exact init
  | tail _ step inductionHypothesis => exact inductionHypothesis.step step

/-- An execution response goes to the callback of the proposal at its own index and term,
whose command was applied. -/
theorem Ledger.exec_of_proposal (inv : a.Ledger) {p : Proposal} (mem : p ∈ a.proposals)
    {i t : Nat} {error : Option ExecError} (done : (p.cb, Resp.exec i t error) ∈ a.done) :
    i = p.index ∧ t = p.term ∧ (i, t, p.isConfChange) ∈ a.applied := by
  obtain ⟨k, registered, applied⟩ := inv.execApplied p.cb i t error done
  rw [← List.inj_on_of_nodup_map inv.registeredOnce registered mem rfl]
  exact ⟨rfl, rfl, applied⟩

theorem Ledger.eq_of_cb (inv : a.Ledger) {p q : Proposal} (mem : p ∈ a.proposals)
    (mem' : q ∈ a.proposals) (same : p.cb = q.cb) : p = q :=
  List.inj_on_of_nodup_map inv.registeredOnce mem mem' same

end Applier

/-! ## A stale command is never applied afterwards -/

section Sound

variable (L : Nat → Option Entry)

/-- The committed log `L` holds at `index` a command of term `term`, a conf change exactly
when `isConfChange`. -/
def CommandAt (index term : Nat) (isConfChange : Bool) : Prop :=
  ∃ entry cmd, L index = some entry ∧ entry.term = term ∧ Applier.commandOf entry = some cmd ∧
    (getChangePeerCmd cmd).isSome = isConfChange

/-- The terms of the committed log do not decrease along its indices. -/
def TermsNondecreasing : Prop :=
  ∀ i j ei ej, i ≤ j → L i = some ei → L j = some ej → ei.term ≤ ej.term

namespace Applier

/-- A proposal may yet be applied: its entry lies ahead and holds its command, and the
applier is not being removed. -/
def Live (a : Applier) (p : Proposal) : Prop :=
  a.appliedIndex < p.index ∧ CommandAt L p.index p.term p.isConfChange ∧ a.pendingRemove = false

/-- When a proposal `p` handed over after `earlier`, at applied index `applied`, is in order
with the log `L`: after the proposals of its term below it, and after the conf changes
`PendingConfIndex` and `ProposeConfChange` make it wait for. -/
structure Fits (applied : Nat) (earlier : List Proposal) (p : Proposal) : Prop where
  /-- Proposals of one term come in index order. -/
  ordered : ∀ q ∈ earlier, q.term = p.term → q.index < p.index
  /-- A conf change comes once every earlier one is applied or overwritten. -/
  confAfterConf : p.isConfChange = true → ∀ q ∈ earlier, q.isConfChange = true →
    q.index ≤ applied ∨ ¬ CommandAt L q.index q.term true
  /-- Every unapplied command of its term before it was handed over first. -/
  normalsBefore : p.isConfChange = false → ∀ j, applied < j → j < p.index →
    CommandAt L j p.term false → ∃ q ∈ earlier, q.isConfChange = false ∧ q.index = j ∧ q.term = p.term
  /-- A conf change comes once every conf change before it is applied. -/
  confsBefore : p.isConfChange = true → ∀ j t, applied < j → j < p.index → ¬ CommandAt L j t true

/-- `Fits` for each proposal of a batch, after the ones before it. -/
def FitsAll (applied : Nat) : List Proposal → List Proposal → Prop
  | _, [] => True
  | earlier, p :: props => Fits L applied earlier p ∧ FitsAll applied (earlier ++ [p]) props

end Applier

/-- An event of a run over the committed log `L`: proposals with callbacks of their own that
fit, or committed entries of `L`. -/
def Event.Admissible (a : Applier) : Event → Prop
  | .proposal m => ((a.proposals ++ m.props).map (·.cb)).Nodup ∧
      Applier.FitsAll L a.appliedIndex a.proposals m.props
  | .committed m => ∀ entry ∈ m.entries, L entry.index = some entry
  | .refresh .. | .destroy => False

namespace Applier

/-- One admissible event of a run over `L`. -/
def StepIn (checkRegionEpoch : RaftCmdRequest → Region → Bool) (a b : Applier) : Prop :=
  ∃ ev : Event, ev.Admissible L a ∧ a.handleEvent checkRegionEpoch ev = .ok b

/-- What the applier knows of its proposals over the committed log `L`: besides the ledger,
every stale completion is of a proposal that can no longer be applied, and every proposal
that can still be applied waits in the queue behind the commands of its term before it. -/
structure Sound (a : Applier) extends a.Ledger : Prop where
  appliedBelow : ∀ x ∈ a.applied, x.1 ≤ a.appliedIndex
  ordered : a.proposals.Pairwise fun p q => p.term = q.term → p.index < q.index
  notRemoved : ∀ x ∈ a.done, x.2 ≠ .regionNotFound
  staleDead : ∀ p ∈ a.proposals, ∀ t, (p.cb, Resp.staleCommand t) ∈ a.done → ¬ Live L a p
  waiting : ∀ p ∈ a.proposals, p.cb ∈ a.done.map (·.1) ∨
    p.isConfChange = false ∧ p.cmd ∈ a.pendingCmds.normals ∨
    p.isConfChange = true ∧ a.pendingCmds.confChange = some p.cmd
  normalsBefore : ∀ p ∈ a.proposals, Live L a p → p.isConfChange = false →
    ∀ j, a.appliedIndex < j → j < p.index → CommandAt L j p.term false →
      ∃ q ∈ a.proposals, q.isConfChange = false ∧ q.index = j ∧ q.term = p.term
  confsBefore : ∀ p ∈ a.proposals, Live L a p → p.isConfChange = true →
    ∀ j t, a.appliedIndex < j → j < p.index → ¬ CommandAt L j t true

variable {L} {checkRegionEpoch : RaftCmdRequest → Region → Bool} {a b : Applier}

theorem Live.of_later {p : Proposal} (live : Live L b p) (later : a.appliedIndex ≤ b.appliedIndex)
    (removed : a.pendingRemove = true → b.pendingRemove = true) : Live L a p := by
  refine ⟨Nat.lt_of_le_of_lt later live.1, live.2.1, ?_⟩
  cases removing : a.pendingRemove
  · rfl
  · exact absurd live.2.2 (by simp [removed removing])

/-- A proposal of a term older than an applied entry can no longer be applied. -/
theorem not_live_of_older (mono : TermsNondecreasing L) {entry : Entry}
    (committed : L entry.index = some entry) (past : entry.index ≤ a.appliedIndex) {p : Proposal}
    (older : p.term < entry.term) : ¬ Live L a p := by
  rintro ⟨ahead, ⟨e, -, found, same, -⟩, -⟩
  have := mono entry.index p.index entry e (by omega) committed found
  omega

/-- A proposal that can still be applied waits in the queue. -/
theorem Sound.waiting_of_live (sound : Sound L a) {p : Proposal} (mem : p ∈ a.proposals)
    (live : Live L a p) :
    p.isConfChange = false ∧ p.cmd ∈ a.pendingCmds.normals ∨
      p.isConfChange = true ∧ a.pendingCmds.confChange = some p.cmd := by
  rcases sound.waiting p mem with completed | waiting
  · exfalso
    obtain ⟨⟨cb, r⟩, done, same⟩ := List.mem_map.mp completed
    dsimp only at same
    subst same
    cases r with
    | exec i t error =>
      obtain ⟨rfl, -, applied⟩ := sound.toLedger.exec_of_proposal mem done
      exact absurd (sound.appliedBelow _ applied) (Nat.not_le.mpr live.1)
    | staleCommand t => exact sound.staleDead p mem t done live
    | regionNotFound => exact sound.notRemoved _ done rfl
  · exact waiting

/-- The normal commands wait in the order of their proposals. -/
theorem Sound.normals_ordered (sound : Sound L a) :
    a.pendingCmds.normals.Pairwise fun c d => c.term = d.term → c.index < d.index :=
  List.pairwise_map.mp (sound.ordered.sublist sound.normalsRegistered)

/-- `findCallback` passes no live command of the term it applies: a command of that term
further on was proposed after the one applied, which waits ahead of it in the queue. -/
theorem Sound.passed_not_live (sound : Sound L a) (mono : TermsNondecreasing L)
    (removed : a.pendingRemove = false) {entry : Entry} (next : a.appliedIndex + 1 = entry.index)
    (committed : L entry.index = some entry) {cmd : RaftCmdRequest}
    (command : commandOf entry = some cmd) (normal : (getChangePeerCmd cmd).isSome = false)
    {popped rest : List PendingCmd} (split : a.pendingCmds.normals = popped ++ rest)
    (passed : ∀ c ∈ popped, c.term ≤ entry.term ∧ ¬(c.index = entry.index ∧ c.term = entry.term))
    {c : PendingCmd} (mem : c ∈ popped) (past : entry.index ≤ b.appliedIndex) :
    ¬ Live L b (c.toProposal false) := by
  intro live
  have liveBefore : Live L a (c.toProposal false) := live.of_later (by omega) (by simp [removed])
  have registered : c.toProposal false ∈ a.proposals :=
    sound.normalsRegistered.subset (List.mem_map_of_mem _ (split ▸ List.mem_append_left _ mem))
  have ahead : entry.index < c.index := Nat.lt_of_le_of_lt past live.1
  obtain ⟨le, mismatch⟩ := passed c mem
  rcases Nat.lt_or_eq_of_le le with older | same
  · exact not_live_of_older mono committed past older live
  · have own : CommandAt L entry.index c.term false := ⟨entry, cmd, committed, same.symm, command, normal⟩
    obtain ⟨q, proposed, qNormal, qIndex, qTerm⟩ :=
      sound.normalsBefore _ registered liveBefore rfl entry.index (by omega) ahead own
    have liveQ : Live L a q := ⟨by omega, by rw [qNormal, qIndex, qTerm]; exact own, removed⟩
    rcases sound.waiting_of_live proposed liveQ with ⟨-, waits⟩ | ⟨conf, -⟩
    · rw [split] at waits
      rcases List.mem_append.mp waits with early | later
      · exact (passed _ early).2 ⟨qIndex, qTerm.trans same⟩
      · have order := (List.pairwise_append.mp (split ▸ sound.normals_ordered)).2.2 c mem _ later
        have : c.index < q.index := order qTerm.symm
        omega
    · simp [qNormal] at conf

/-- A conf change waiting in the slot cannot be live when a conf change before it is applied. -/
theorem Sound.slot_not_live (sound : Sound L a) (removed : a.pendingRemove = false)
    {entry : Entry} (next : a.appliedIndex + 1 = entry.index) (committed : L entry.index = some entry)
    {cmd : RaftCmdRequest} (command : commandOf entry = some cmd)
    (conf : (getChangePeerCmd cmd).isSome = true) {c : PendingCmd}
    (slot : a.pendingCmds.confChange = some c) (past : entry.index ≤ b.appliedIndex) :
    ¬ Live L b (c.toProposal true) := fun live =>
  sound.confsBefore _ (sound.confRegistered c slot) (live.of_later (by omega) (by simp [removed]))
    rfl entry.index entry.term (by omega) (Nat.lt_of_le_of_lt past live.1)
    ⟨entry, cmd, committed, rfl, command, conf⟩

/--
A call that takes commands from the queue and completes them keeps the invariant, provided
that each stale completion is of a proposal that can no longer be applied.
-/
theorem Sound.of_takes (sound : Sound L a) (ledger : b.Ledger) (proposals : b.proposals = a.proposals)
    (later : a.appliedIndex ≤ b.appliedIndex) (removed : a.pendingRemove = true → b.pendingRemove = true)
    (appliedBelow : ∀ x ∈ b.applied, x.1 ≤ b.appliedIndex) {k : Bool} {taken : List PendingCmd}
    (takes : a.pendingCmds.Takes k taken b.pendingCmds) (new : List (Nat × Resp))
    (done : b.done = a.done ++ new) (takenDone : ∀ c ∈ taken, c.cb ∈ new.map (·.1))
    (notRemoved : ∀ x ∈ new, x.2 ≠ .regionNotFound)
    (staleDead : ∀ p ∈ a.proposals, ∀ t, (p.cb, Resp.staleCommand t) ∈ new → ¬ Live L b p) :
    Sound L b where
  toLedger := ledger
  appliedBelow := appliedBelow
  ordered := proposals ▸ sound.ordered
  notRemoved x mem := by
    rw [done] at mem
    rcases List.mem_append.mp mem with old | new
    · exact sound.notRemoved x old
    · exact notRemoved x new
  staleDead p mem t stale := by
    rw [proposals] at mem
    rw [done] at stale
    rcases List.mem_append.mp stale with old | new
    · exact fun live => sound.staleDead p mem t old (live.of_later later removed)
    · exact staleDead p mem t new
  waiting p mem := by
    rw [proposals] at mem
    have completed : ∀ cb, cb ∈ new.map (·.1) → cb ∈ b.done.map (·.1) := fun cb h => by
      rw [done, List.map_append]
      exact List.mem_append_right _ h
    rcases sound.waiting p mem with old | ⟨normal, waits⟩ | ⟨conf, slot⟩
    · exact .inl (by rw [done, List.map_append]; exact List.mem_append_left _ old)
    · rcases takes.normal_mem waits with taken | stays
      · exact .inl (completed _ (takenDone _ taken))
      · exact .inr (.inl ⟨normal, stays⟩)
    · rcases takes.slot_mem slot with taken | stays
      · exact .inl (completed _ (takenDone _ taken))
      · exact .inr (.inr ⟨conf, stays⟩)
  normalsBefore p mem live normal j ahead below command := by
    rw [proposals] at mem ⊢
    exact sound.normalsBefore p mem (live.of_later later removed) normal j (by omega) below command
  confsBefore p mem live conf j t ahead below := by
    rw [proposals] at mem
    exact sound.confsBefore p mem (live.of_later later removed) conf j t (by omega) below

/-- Applying the next committed entry of `L` keeps the invariant. -/
theorem Sound.handleRaftEntry (sound : Sound L a) (mono : TermsNondecreasing L)
    (removed : a.pendingRemove = false) {entry : Entry} (next : a.appliedIndex + 1 = entry.index)
    (committed : L entry.index = some entry) (done : a.handleRaftEntry checkRegionEpoch entry = .ok b) :
    Sound L b := by
  have ledger := sound.toLedger.handleRaftEntry done
  rcases handleRaftEntry_eq_ok done with ⟨-, popped, q, takes, earlier, rfl⟩ | ⟨cmd, command, processed⟩
  · refine sound.of_takes ledger rfl (by dsimp only; omega) (fun kept => kept)
      (fun x mem => by have := sound.appliedBelow x mem; dsimp only; omega) takes _ rfl
      (fun c taken => by simpa using ⟨c, taken, rfl⟩) (by simp) fun p mem t stale => ?_
    obtain ⟨c, taken, same⟩ := List.mem_map.mp stale
    simp only [Prod.mk.injEq] at same
    rw [sound.eq_of_cb mem (sound.registered_of_takes takes taken) same.1.symm]
    exact not_live_of_older mono committed (le_refl _) (earlier c taken)
  · obtain ⟨error, a₁, popped, found, q, -, applied, takes, passed, matched, rfl⟩ :=
      processRaftCmd_eq_ok processed
    obtain ⟨region, pendingRemove, kept, rfl⟩ := applyRaftCmd_frame applied
    refine sound.of_takes ledger rfl (by dsimp only; omega) kept ?_ takes
      (popped.map (fun c => (c.cb, Resp.staleCommand entry.term)) ++
        found.toList.map (fun c => (c.cb, Resp.exec entry.index entry.term error)))
      (List.append_assoc _ _ _)
      (fun c taken => by simpa [Function.comp_def] using List.mem_map_of_mem (·.cb) taken)
      (fun x mem => by
        rcases List.mem_append.mp mem with new | new <;> obtain ⟨c, -, rfl⟩ := List.mem_map.mp new <;>
          simp)
      fun p mem t stale => ?_
    · intro x mem
      rcases List.mem_append.mp mem with old | new
      · have := sound.appliedBelow x old
        dsimp only
        omega
      · simp [List.mem_singleton.mp new]
    · simp only [List.mem_append, List.mem_map, Prod.mk.injEq] at stale
      rcases stale with ⟨c, passedOver, same, -⟩ | ⟨c, -, -, never⟩
      · have taken : c ∈ popped ++ found.toList := List.mem_append_left _ passedOver
        rw [sound.eq_of_cb mem (sound.registered_of_takes takes taken) same.symm]
        rcases takes.mem taken with ⟨normal, -⟩ | ⟨conf, slot⟩
        · obtain ⟨rest, split, -⟩ := (normal ▸ takes).normals_eq
          rw [List.append_assoc] at split
          rw [normal]
          exact sound.passed_not_live mono removed next committed command normal split
            (fun c mem => ⟨(passed c mem).1 normal, (passed c mem).2⟩) passedOver (le_refl _)
        · rw [conf]
          exact sound.slot_not_live removed next committed command conf slot (le_refl _)
      · cases never

theorem Sound.handleRaftCommittedEntries (mono : TermsNondecreasing L) :
    ∀ {entries : List Entry} {a b : Applier}, Sound L a →
      (∀ entry ∈ entries, L entry.index = some entry) →
      a.handleRaftCommittedEntries checkRegionEpoch entries = .ok b → Sound L b
  | [], _, _, sound, _, done => by obtain rfl := pure_eq_ok.mp done; exact sound
  | entry :: rest, a, b, sound, committed, done => by
    unfold Applier.handleRaftCommittedEntries at done
    split at done
    · obtain rfl := pure_eq_ok.mp done
      exact sound
    · rename_i removed
      split at done
      · exact absurd done throw_ne_ok
      · rename_i next
        obtain ⟨a₁, applied, rest'⟩ := bind_eq_ok.mp done
        exact Sound.handleRaftCommittedEntries mono
          (sound.handleRaftEntry mono (by simpa using removed) (by simpa using next)
            (committed entry (List.mem_cons_self _ _)) applied)
          (fun e mem => committed e (List.mem_cons_of_mem _ mem)) rest'

theorem Sound.handleApply (sound : Sound L a) (mono : TermsNondecreasing L) {m : MsgApplyCommitted}
    (committed : ∀ entry ∈ m.entries, L entry.index = some entry) (done : a.handleApply checkRegionEpoch m = .ok b) :
    Sound L b := by
  unfold Applier.handleApply at done
  split at done
  · obtain rfl := pure_eq_ok.mp done
    exact sound
  · refine Sound.handleRaftCommittedEntries mono (a := { a with term := m.term }) ?_ committed done
    exact sound.of_takes (sound.toLedger.frame rfl rfl rfl rfl) rfl (le_refl _) (fun kept => kept)
      sound.appliedBelow (k := false) (⟨_, rfl, rfl⟩ : a.pendingCmds.Takes false [] _) [] (by simp) (by simp)
      (by simp) (by simp)

/--
Handing over a proposal that fits keeps the invariant, given that each callback it displaces
is completed as stale only if its proposal can no longer be applied, and that the proposal's
own callback is completed or waits as its kind.
-/
theorem Sound.register (sound : Sound L a) {p : Proposal}
    (fits : Fits L a.appliedIndex a.proposals p) (fresh : p.cb ∉ a.proposals.map (·.cb))
    (ledger : b.Ledger) (proposals : b.proposals = a.proposals ++ [p]) (applied : b.applied = a.applied)
    (appliedIndex : b.appliedIndex = a.appliedIndex) (pendingRemove : b.pendingRemove = a.pendingRemove)
    (new : List (Nat × Resp)) (done : b.done = a.done ++ new)
    (notRemoved : ∀ x ∈ new, x.2 ≠ .regionNotFound)
    (staleDead : ∀ q ∈ b.proposals, ∀ t, (q.cb, Resp.staleCommand t) ∈ new → ¬ Live L b q)
    (keeps : ∀ c, (c ∈ a.pendingCmds.normals → c ∈ b.pendingCmds.normals ∨ c.cb ∈ new.map (·.1)) ∧
      (a.pendingCmds.confChange = some c → b.pendingCmds.confChange = some c ∨ c.cb ∈ new.map (·.1)))
    (placed : p.cb ∈ new.map (·.1) ∨ p.isConfChange = false ∧ p.cmd ∈ b.pendingCmds.normals ∨
      p.isConfChange = true ∧ b.pendingCmds.confChange = some p.cmd) : Sound L b := by
  have live : ∀ q, Live L b q ↔ Live L a q := fun q => by simp only [Live, appliedIndex, pendingRemove]
  have completed : ∀ cb, cb ∈ a.done.map (·.1) ∨ cb ∈ new.map (·.1) → cb ∈ b.done.map (·.1) :=
    fun cb h => by rw [done, List.map_append]; exact List.mem_append.mpr h
  have earlier : ∀ q ∈ b.proposals, q ∈ a.proposals ∨ q = p := fun q mem => by
    rw [proposals] at mem
    simpa using mem
  refine ⟨ledger, by rw [applied, appliedIndex]; exact sound.appliedBelow, ?_, ?_, ?_, ?_, ?_, ?_⟩
  · rw [proposals]
    exact List.pairwise_append.mpr ⟨sound.ordered, List.pairwise_singleton _ _,
      fun q mem r mem' => (List.mem_singleton.mp mem') ▸ fits.ordered q mem⟩
  · intro x mem
    rw [done] at mem
    rcases List.mem_append.mp mem with old | new
    · exact sound.notRemoved x old
    · exact notRemoved x new
  · intro q mem t stale
    rw [done] at stale
    rcases List.mem_append.mp stale with old | new
    · rcases earlier q mem with mem | rfl
      · exact fun alive => sound.staleDead q mem t old ((live q).mp alive)
      · exact absurd (sound.doneRegistered _ old) fresh
    · exact staleDead q mem t new
  · intro q mem
    rcases earlier q mem with mem | rfl
    · rcases sound.waiting q mem with old | ⟨normal, waits⟩ | ⟨conf, slot⟩
      · exact .inl (completed _ (.inl old))
      · exact ((keeps _).1 waits).elim (fun stays => .inr (.inl ⟨normal, stays⟩))
          fun taken => .inl (completed _ (.inr taken))
      · exact ((keeps _).2 slot).elim (fun stays => .inr (.inr ⟨conf, stays⟩))
          fun taken => .inl (completed _ (.inr taken))
    · exact placed.imp_left fun taken => completed _ (.inr taken)
  · intro q mem alive normal j ahead below command
    rw [appliedIndex] at ahead
    rcases earlier q mem with mem | rfl
    · obtain ⟨r, proposed, rest⟩ :=
        sound.normalsBefore q mem ((live q).mp alive) normal j ahead below command
      exact ⟨r, proposals ▸ List.mem_append_left _ proposed, rest⟩
    · obtain ⟨r, proposed, rest⟩ := fits.normalsBefore normal j ahead below command
      exact ⟨r, proposals ▸ List.mem_append_left _ proposed, rest⟩
  · intro q mem alive conf j t ahead below
    rw [appliedIndex] at ahead
    rcases earlier q mem with mem | rfl
    · exact sound.confsBefore q mem ((live q).mp alive) conf j t ahead below
    · exact fits.confsBefore conf j t ahead below

theorem Sound.addProposal (sound : Sound L a) {p : Proposal}
    (fits : Fits L a.appliedIndex a.proposals p) (fresh : p.cb ∉ a.proposals.map (·.cb)) :
    Sound L (a.addProposal p) := by
  have ledger := sound.toLedger.addProposal fresh
  cases conf : p.isConfChange
  · rw [addProposal_normal conf] at ledger ⊢
    exact sound.register fits fresh ledger rfl rfl rfl rfl [] (by simp) (by simp)
      (by simp) (fun c => ⟨fun waits => .inl (by simp [appendNormal, waits]), .inl⟩)
      (.inr (.inl ⟨conf, by simp [appendNormal]⟩))
  · rw [addProposal_conf conf] at ledger ⊢
    refine sound.register fits fresh ledger rfl rfl rfl rfl _ rfl (by simp) ?_
      (fun c => ⟨.inl, fun slot => .inr (by simp [slot])⟩) (.inr (.inr ⟨conf, rfl⟩))
    intro q mem t stale
    obtain ⟨c, slot, same⟩ := List.mem_map.mp stale
    simp only [Prod.mk.injEq] at same
    have registered := sound.confRegistered c (Option.mem_toList.mp slot)
    have replaced : q = c.toProposal true := by
      rcases List.mem_append.mp mem with old | new
      · exact sound.eq_of_cb old registered same.1.symm
      · rw [List.mem_singleton.mp new] at same
        exact absurd (same.1 ▸ List.mem_map_of_mem (·.cb) registered) fresh
    rw [replaced]
    rintro ⟨ahead, command, -⟩
    rcases fits.confAfterConf conf _ registered rfl with applied | overwritten
    · exact absurd ahead (Nat.not_lt.mpr applied)
    · exact overwritten command

theorem Sound.rejectProposal (sound : Sound L a) (removing : a.pendingRemove = true) {p : Proposal}
    (fits : Fits L a.appliedIndex a.proposals p) (fresh : p.cb ∉ a.proposals.map (·.cb)) :
    Sound L (a.rejectProposal p) :=
  sound.register fits fresh (sound.toLedger.reject fresh a.term) rfl rfl rfl rfl _ rfl (by simp)
    (fun _ _ _ _ alive => absurd alive.2.2
      (by simp [Applier.rejectProposal, notifyStaleCommand, removing]))
    (fun c => ⟨.inl, .inl⟩) (.inl (by simp [Proposal.cmd]))

/-- Handing over a batch of proposals that fit, one at a time, keeps the invariant. -/
theorem Sound.foldl_proposals (removing : Bool) {f : Applier → Proposal → Applier}
    (step : ∀ (a : Applier) (p : Proposal), Sound L a → a.pendingRemove = removing →
      Fits L a.appliedIndex a.proposals p → p.cb ∉ a.proposals.map (·.cb) →
      Sound L (f a p) ∧ (f a p).proposals = a.proposals ++ [p] ∧
        (f a p).appliedIndex = a.appliedIndex ∧ (f a p).pendingRemove = a.pendingRemove) :
    ∀ (props : List Proposal) (a : Applier), Sound L a → a.pendingRemove = removing →
      ((a.proposals ++ props).map (·.cb)).Nodup → FitsAll L a.appliedIndex a.proposals props →
      Sound L (props.foldl f a)
  | [], _, sound, _, _, _ => sound
  | p :: props, a, sound, removed, fresh, ⟨fits, rest⟩ => by
    have split : (a.proposals.map (·.cb) ++ p.cb :: props.map (·.cb)).Nodup := by simpa using fresh
    have new := (List.nodup_cons.mp (List.nodup_middle.mp split)).1
    obtain ⟨sound', recorded, index, kept⟩ :=
      step a p sound removed fits fun mem => new (List.mem_append_left _ mem)
    exact Sound.foldl_proposals removing step props (f a p) sound' (kept.trans removed)
      (by simpa [recorded] using fresh) (by rw [recorded, index]; exact rest)

theorem Sound.handleProposal (sound : Sound L a) {m : MsgApplyProposal}
    (admissible : (Event.proposal m).Admissible L a) (done : a.handleProposal m = .ok b) :
    Sound L b := by
  obtain ⟨fresh, fits⟩ := admissible
  unfold Applier.handleProposal at done
  split at done
  · exact absurd done throw_ne_ok
  · split at done <;> obtain rfl := pure_eq_ok.mp done
    · exact Sound.foldl_proposals true
        (fun c p sound removing fits new => ⟨sound.rejectProposal removing fits new, rfl, rfl, rfl⟩)
        m.props a sound (by simpa using ‹_›) fresh fits
    · exact Sound.foldl_proposals a.pendingRemove
        (fun c p sound _ fits new => by
          refine ⟨sound.addProposal fits new, addProposal_proposals c p, ?_, ?_⟩ <;>
            cases conf : p.isConfChange <;> simp [addProposal_normal, addProposal_conf, conf])
        m.props a sound rfl fresh fits

theorem Sound.step (sound : Sound L a) (mono : TermsNondecreasing L) (step : StepIn L checkRegionEpoch a b) :
    Sound L b := by
  obtain ⟨ev, admissible, done⟩ := step
  cases ev with
  | proposal m => exact sound.handleProposal admissible done
  | committed m => exact sound.handleApply mono admissible done
  | refresh m appliedIndex => exact admissible.elim
  | destroy => exact admissible.elim

theorem Sound.init (id term : Nat) (region : Region) (appliedIndex : Nat) :
    Sound L (newApplierFromPeer id term region appliedIndex) :=
  ⟨Ledger.init id term region appliedIndex, by simp [newApplierFromPeer], by simp [newApplierFromPeer],
    by simp [newApplierFromPeer], by simp [newApplierFromPeer], by simp [newApplierFromPeer],
    by simp [newApplierFromPeer], by simp [newApplierFromPeer]⟩

theorem Sound.run {a₀ : Applier} (mono : TermsNondecreasing L) (init : Sound L a₀)
    (run : Relation.ReflTransGen (StepIn L checkRegionEpoch) a₀ a) : Sound L a := by
  induction run with
  | refl => exact init
  | tail _ step inductionHypothesis => exact inductionHypothesis.step mono step

/-- `b` follows `a` by applying only commands that could still be applied in `a`, without
lowering the applied index or clearing `pendingRemove`. -/
def AppliesLive (L : Nat → Option Entry) (a b : Applier) : Prop :=
  (∃ more, b.applied = a.applied ++ more ∧ ∀ x ∈ more,
    a.appliedIndex < x.1 ∧ CommandAt L x.1 x.2.1 x.2.2 ∧ a.pendingRemove = false) ∧
  a.appliedIndex ≤ b.appliedIndex ∧ (a.pendingRemove = true → b.pendingRemove = true)

theorem AppliesLive.of_eq (applied : b.applied = a.applied) (index : b.appliedIndex = a.appliedIndex)
    (removed : b.pendingRemove = a.pendingRemove) : AppliesLive L a b :=
  ⟨⟨[], by simp [applied], by simp⟩, index.ge, fun removing => removed.trans removing⟩

theorem AppliesLive.trans {c : Applier} (first : AppliesLive L a b) (second : AppliesLive L b c) :
    AppliesLive L a c := by
  obtain ⟨⟨more₁, applied₁, live₁⟩, later₁, removed₁⟩ := first
  obtain ⟨⟨more₂, applied₂, live₂⟩, later₂, removed₂⟩ := second
  refine ⟨⟨more₁ ++ more₂, by rw [applied₂, applied₁, List.append_assoc], fun x mem => ?_⟩,
    later₁.trans later₂, removed₂ ∘ removed₁⟩
  rcases List.mem_append.mp mem with early | late
  · exact live₁ x early
  · obtain ⟨ahead, command, kept⟩ := live₂ x late
    refine ⟨by omega, command, ?_⟩
    cases removing : a.pendingRemove
    · rfl
    · exact absurd kept (by simp [removed₁ removing])

theorem AppliesLive.foldl {f : Applier → Proposal → Applier}
    (step : ∀ a p, AppliesLive L a (f a p)) :
    ∀ (props : List Proposal) (a : Applier), AppliesLive L a (props.foldl f a)
  | [], _ => .of_eq rfl rfl rfl
  | p :: props, a => (step a p).trans (AppliesLive.foldl step props (f a p))

theorem AppliesLive.handleRaftEntry (removed : a.pendingRemove = false) {entry : Entry}
    (next : a.appliedIndex + 1 = entry.index) (committed : L entry.index = some entry)
    (done : a.handleRaftEntry checkRegionEpoch entry = .ok b) : AppliesLive L a b := by
  rcases handleRaftEntry_eq_ok done with ⟨-, popped, q, -, -, rfl⟩ | ⟨cmd, command, processed⟩
  · exact ⟨⟨[], by simp, by simp⟩, by dsimp only; omega, fun kept => kept⟩
  · obtain ⟨error, a₁, popped, found, q, -, applied, -, -, -, rfl⟩ := processRaftCmd_eq_ok processed
    obtain ⟨region, pendingRemove, kept, rfl⟩ := applyRaftCmd_frame applied
    refine ⟨⟨[(entry.index, entry.term, (getChangePeerCmd cmd).isSome)], rfl, fun x mem => ?_⟩,
      by dsimp only; omega, kept⟩
    rw [List.mem_singleton.mp mem]
    exact ⟨by omega, ⟨entry, cmd, committed, rfl, command, rfl⟩, removed⟩

theorem AppliesLive.handleRaftCommittedEntries :
    ∀ {entries : List Entry} {a b : Applier}, (∀ entry ∈ entries, L entry.index = some entry) →
      a.handleRaftCommittedEntries checkRegionEpoch entries = .ok b → AppliesLive L a b
  | [], _, _, _, done => by obtain rfl := pure_eq_ok.mp done; exact .of_eq rfl rfl rfl
  | entry :: rest, a, b, committed, done => by
    unfold Applier.handleRaftCommittedEntries at done
    split at done
    · obtain rfl := pure_eq_ok.mp done
      exact .of_eq rfl rfl rfl
    · rename_i removed
      split at done
      · exact absurd done throw_ne_ok
      · rename_i next
        obtain ⟨a₁, applied, rest'⟩ := bind_eq_ok.mp done
        exact (AppliesLive.handleRaftEntry (by simpa using removed) (by simpa using next)
          (committed entry (List.mem_cons_self _ _)) applied).trans
          (AppliesLive.handleRaftCommittedEntries (fun e mem => committed e (List.mem_cons_of_mem _ mem))
            rest')

/-- An admissible step applies only commands that could still be applied. -/
theorem StepIn.appliesLive (step : StepIn L checkRegionEpoch a b) : AppliesLive L a b := by
  obtain ⟨ev, admissible, done⟩ := step
  cases ev with
  | proposal m =>
    simp only [Applier.handleEvent, Applier.handleProposal] at done
    split at done
    · exact absurd done throw_ne_ok
    · split at done <;> obtain rfl := pure_eq_ok.mp done
      · exact AppliesLive.foldl (f := rejectProposal) (fun c p => .of_eq rfl rfl rfl) m.props a
      · refine AppliesLive.foldl (f := addProposal) (fun c p => ?_) m.props a
        cases conf : p.isConfChange
        · rw [addProposal_normal conf]; exact .of_eq rfl rfl rfl
        · rw [addProposal_conf conf]; exact .of_eq rfl rfl rfl
  | committed m =>
    simp only [Applier.handleEvent, Applier.handleApply] at done
    split at done
    · obtain rfl := pure_eq_ok.mp done
      exact .of_eq rfl rfl rfl
    · exact (AppliesLive.of_eq (b := { a with term := m.term }) rfl rfl rfl).trans
        (AppliesLive.handleRaftCommittedEntries admissible done)
  | refresh m appliedIndex => exact admissible.elim
  | destroy => exact admissible.elim

/--
The applier completes each callback at most once, and with an execution response only for
the proposal at its own index and term, when that command is applied.  Over a committed log
whose terms do not decrease, in runs of proposals that fit and of committed entries, a
callback completed as stale belongs to a proposal whose command is never applied afterwards.
-/
theorem callbacks_completed_once_and_rightly (id term : Nat) (region : Region) (appliedIndex : Nat) :
    (∀ a, Relation.ReflTransGen (Step checkRegionEpoch) (newApplierFromPeer id term region appliedIndex) a →
      (a.done.map (·.1)).Nodup ∧
      ∀ p ∈ a.proposals, ∀ i t error, (p.cb, Resp.exec i t error) ∈ a.done →
        i = p.index ∧ t = p.term ∧ (i, t, p.isConfChange) ∈ a.applied) ∧
    ∀ L, TermsNondecreasing L → ∀ a₁ a₂,
      Relation.ReflTransGen (StepIn L checkRegionEpoch) (newApplierFromPeer id term region appliedIndex) a₁ →
      Relation.ReflTransGen (StepIn L checkRegionEpoch) a₁ a₂ →
      ∀ p ∈ a₁.proposals, ∀ t, (p.cb, Resp.staleCommand t) ∈ a₁.done →
        ∃ more, a₂.applied = a₁.applied ++ more ∧ (p.index, p.term, p.isConfChange) ∉ more := by
  refine ⟨fun a run => ?_, fun L mono a₁ a₂ run₁ run₂ p mem t stale => ?_⟩
  · have ledger := (Ledger.init id term region appliedIndex).run run
    exact ⟨(List.nodup_append.mp ledger.completedOnce).1,
      fun p mem i t error done => ledger.exec_of_proposal mem done⟩
  · have dead := ((Sound.init id term region appliedIndex).run mono run₁).staleDead p mem t stale
    have later : AppliesLive L a₁ a₂ := by
      induction run₂ with
      | refl => exact .of_eq rfl rfl rfl
      | tail _ step inductionHypothesis => exact inductionHypothesis.trans step.appliesLive
    obtain ⟨⟨more, applied, live⟩, -, -⟩ := later
    exact ⟨more, applied, fun again => dead (live _ again)⟩

/-- A committed log whose index 1 holds the empty entry of a leader of term 2, and index 2 a command of that leader. -/
def overwrittenLog : Nat → Option Entry
  | 1 => some { term := 2, index := 1 }
  | 2 => some { term := 2, index := 2, data := [0] }
  | _ => none

/--
A proposal of term 1 at index 1, whose entry a leader of term 2 overwrote: the leader's
empty entry completes the proposal as stale, once, and the leader's command at index 2
is applied next, without the proposal's command.
-/
theorem overwrittenProposal_never_applied :
    ∃ a₁ a₂ : Applier,
      Relation.ReflTransGen (Step (fun _ _ => true)) (newApplierFromPeer 1 1 {} 0) a₂ ∧
      Relation.ReflTransGen (StepIn overwrittenLog (fun _ _ => true)) (newApplierFromPeer 1 1 {} 0) a₁ ∧
      Relation.ReflTransGen (StepIn overwrittenLog (fun _ _ => true)) a₁ a₂ ∧
      (7, Resp.staleCommand 2) ∈ a₁.done ∧ (a₂.done.map (·.1)).Nodup ∧
      a₂.applied = a₁.applied ++ [(2, 2, false)] ∧
      ∃ more, a₂.applied = a₁.applied ++ more ∧ (1, 1, false) ∉ more := by
  have mono : TermsNondecreasing overwrittenLog := by
    have leaderTerm : ∀ i e, overwrittenLog i = some e → e.term = 2 := by
      intro i e found
      unfold overwrittenLog at found
      split at found <;> cases found <;> rfl
    intro i j ei ej _ found found'
    rw [leaderTerm i ei found, leaderTerm j ej found']
  obtain ⟨a₀, proposed⟩ : ∃ a₀, (newApplierFromPeer 1 1 {} 0).handleEvent (fun _ _ => true)
      (.proposal ⟨1, [⟨false, 1, 1, 7⟩]⟩) = .ok a₀ := ⟨_, rfl⟩
  obtain ⟨a₁, overwritten⟩ : ∃ a₁, a₀.handleEvent (fun _ _ => true)
      (.committed ⟨2, [{ term := 2, index := 1 }]⟩) = .ok a₁ := by
    cases proposed
    exact ⟨_, rfl⟩
  obtain ⟨a₂, applied⟩ : ∃ a₂, a₁.handleEvent (fun _ _ => true)
      (.committed ⟨2, [{ term := 2, index := 2, data := [0] }]⟩) = .ok a₂ := by
    cases proposed
    cases overwritten
    exact ⟨_, rfl⟩
  have fits : Fits overwrittenLog 0 [] ⟨false, 1, 1, 7⟩ :=
    ⟨by simp, by simp, fun _ j ahead below => by dsimp only at below; omega, by simp⟩
  have run₁ : Relation.ReflTransGen (StepIn overwrittenLog (fun _ _ => true)) (newApplierFromPeer 1 1 {} 0) a₁ :=
    .tail (.single ⟨.proposal ⟨1, [⟨false, 1, 1, 7⟩]⟩, ⟨by decide, fits, trivial⟩, proposed⟩)
      ⟨.committed ⟨2, [{ term := 2, index := 1 }]⟩, by simp [Event.Admissible, overwrittenLog], overwritten⟩
  have run₂ : Relation.ReflTransGen (StepIn overwrittenLog (fun _ _ => true)) a₁ a₂ :=
    .single ⟨.committed ⟨2, [{ term := 2, index := 2, data := [0] }]⟩,
      by simp [Event.Admissible, overwrittenLog], applied⟩
  have runFresh : Relation.ReflTransGen (Step (fun _ _ => true)) (newApplierFromPeer 1 1 {} 0) a₂ :=
    .tail (.tail (.single ⟨.proposal ⟨1, [⟨false, 1, 1, 7⟩]⟩, by simp [Event.FreshFor, newApplierFromPeer],
      proposed⟩) ⟨.committed ⟨2, [{ term := 2, index := 1 }]⟩, trivial, overwritten⟩)
      ⟨.committed ⟨2, [{ term := 2, index := 2, data := [0] }]⟩, trivial, applied⟩
  have proposal : (⟨false, 1, 1, 7⟩ : Proposal) ∈ a₁.proposals := by
    cases proposed; cases overwritten; decide
  have stale : (7, Resp.staleCommand 2) ∈ a₁.done := by
    cases proposed; cases overwritten; decide
  have next : a₂.applied = a₁.applied ++ [(2, 2, false)] := by
    cases proposed; cases overwritten; cases applied; rfl
  exact ⟨a₁, a₂, runFresh, run₁, run₂, stale,
    ((callbacks_completed_once_and_rightly 1 1 {} 0).1 a₂ runFresh).1, next,
    (callbacks_completed_once_and_rightly 1 1 {} 0).2 overwrittenLog mono a₁ a₂ run₁ run₂ _
      proposal 2 stale⟩

/--
A stale completion does not mean that the command is never applied.  A refresh after a
snapshot at index 1 completes the proposal waiting at `(2, 1)` as stale, and the next
batch applies the command at `(2, 1)`.  And when the command at `(1, 1)` is applied with
no proposal of its own waiting, `findCallback` pops the proposal at `(2, 1)`, of the same
term, as stale; its command at `(2, 1)` is applied next.
-/
theorem staleCommand_applied_afterwards :
    (∃ a₁ a₂ a₃ : Applier,
      (newApplierFromPeer 1 1 {} 0).handleEvent (fun _ _ => true) (.proposal ⟨1, [⟨false, 2, 1, 7⟩]⟩) = .ok a₁ ∧
      a₁.handleEvent (fun _ _ => true) (.refresh ⟨1, 2, {}⟩ 1) = .ok a₂ ∧
      a₂.handleEvent (fun _ _ => true) (.committed ⟨2, [{ term := 1, index := 2, data := [0] }]⟩) = .ok a₃ ∧
      (7, Resp.staleCommand 2) ∈ a₂.done ∧ a₃.applied = a₂.applied ++ [(2, 1, false)]) ∧
    (∃ a₁ a₂ a₃ : Applier,
      (newApplierFromPeer 1 1 {} 0).handleEvent (fun _ _ => true) (.proposal ⟨1, [⟨false, 2, 1, 7⟩]⟩) = .ok a₁ ∧
      a₁.handleEvent (fun _ _ => true) (.committed ⟨1, [{ term := 1, index := 1, data := [0] }]⟩) = .ok a₂ ∧
      a₂.handleEvent (fun _ _ => true) (.committed ⟨1, [{ term := 1, index := 2, data := [0] }]⟩) = .ok a₃ ∧
      (7, Resp.staleCommand 1) ∈ a₂.done ∧ a₃.applied = a₂.applied ++ [(2, 1, false)]) :=
  ⟨⟨_, _, _, rfl, rfl, rfl, by decide, rfl⟩, ⟨_, _, _, rfl, rfl, rfl, by decide, rfl⟩⟩

end Applier

end Sound

end TinyKVRaft.Raftstore
