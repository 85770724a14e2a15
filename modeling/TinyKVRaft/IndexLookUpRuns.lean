import Mathlib.Data.List.Perm.Basic
import TinyKVRaft.IndexLookUp

namespace TinyKVRaft.Executor

/-!
# Whatever the interleaving, `Next` returns the rows in the order of the index

`LookUp.Inv` holds of every state a run of `IndexLookUpExecutor` reaches, whatever the order
in which its goroutines step.  The tasks hold the index's handles in order.  The tasks on
`workCh` or with a table worker are not done, each in one place.  `resultCh` holds task ids
in the order the tasks were built.  `getResultTask` took a task only once it was done, and
`Next` returned the rows of the tasks it took one task after the other.  One lemma per
event shows that a step keeps the invariant, and `LookUp.Inv.run` that a run does.

From it, the rows `Next` returns are, batch after batch in the order of the index, the
table's rows of each batch's handles (`lookUp_returns_batches`); when the executor keeps
the order, they are the table's rows of the index's handles in the index's order
(`lookUp_returns_index_order`), however the table workers' tasks finish.  Once
`getResultTask` finds `resultCh` closed and empty, the context not cancelled, `Next` has
returned the rows of every handle of the index (`lookUp_returns_every_row`): the invariant
says what the index worker had done when it returned, and `LookUp.run_sized` that its batch
size never falls to zero.
-/

/-! ## Lists of tasks -/

section Tasks

variable {T : List LookupTableTask} {x id : Nat} {task t : LookupTableTask}

theorem getElem?_append_of_eq_some (U : List LookupTableTask) (found : T[x]? = some task) :
    (T ++ U)[x]? = some task := by
  obtain ⟨lt, -⟩ := List.getElem?_eq_some_iff.mp found
  rw [List.getElem?_append_left lt, found]

theorem exists_append {P : LookupTableTask → Prop} (U : List LookupTableTask)
    (held : ∃ task, T[x]? = some task ∧ P task) : ∃ task, (T ++ U)[x]? = some task ∧ P task :=
  have ⟨task, found, holds⟩ := held
  ⟨task, getElem?_append_of_eq_some U found, holds⟩

theorem getElem?_concat_eq_some (found : (T ++ [t])[x]? = some task) :
    T[x]? = some task ∨ x = T.length ∧ task = t := by
  rw [List.getElem?_append] at found
  split_ifs at found with lt
  · exact .inl found
  · obtain ⟨bound, found⟩ := List.getElem?_eq_some_iff.mp found
    simp only [List.length_singleton] at bound
    exact .inr ⟨by omega, by simpa using found.symm⟩

theorem getElem?_set_eq_some (found : (T.set id t)[x]? = some task) :
    x = id ∧ task = t ∨ x ≠ id ∧ T[x]? = some task := by
  rw [List.getElem?_set] at found
  split_ifs at found with same
  · exact .inl ⟨same.symm, (Option.some.inj found).symm⟩
  · exact .inr ⟨Ne.symm same, found⟩

/-- Replacing a task by one with the same `doneCh` keeps every task's `doneCh`. -/
theorem getElem?_set_doneCh (t : LookupTableTask) {u : LookupTableTask} (found : T[id]? = some task)
    (same : t.doneCh = task.doneCh) (found' : T[x]? = some u) :
    ∃ u', (T.set id t)[x]? = some u' ∧ u'.doneCh = u.doneCh := by
  by_cases here : id = x
  · subst here
    rw [found] at found'
    cases found'
    exact ⟨t, List.getElem?_set_self (List.getElem?_eq_some_iff.mp found).1, same⟩
  · exact ⟨u, by rw [List.getElem?_set_ne here, found'], rfl⟩

/-- Replacing a task by one with the same handles keeps the handles of the tasks. -/
theorem flatMap_set {β : Type} (f : LookupTableTask → List β) (found : T[id]? = some task) (same : f t = f task) :
    (T.set id t).flatMap f = T.flatMap f := by
  rw [List.flatMap_def, List.flatMap_def, List.map_set]
  congr 1
  apply List.ext_getElem?
  intro x
  rw [List.getElem?_set]
  split_ifs with here lt
  · rw [← here, List.getElem?_map, found, same]
    rfl
  · simp only [List.length_map, not_lt] at lt
    exact absurd (List.getElem?_eq_some_iff.mp found).1 (not_lt.mpr lt)
  · rfl

end Tasks

namespace LookUp

/-- The rows task `id` holds; none for an id with no task. -/
def rowsAt (tasks : List LookupTableTask) (id : Nat) : List Row :=
  (tasks[id]?.map (·.rows)).getD []

/-- The rows of `resultCurr` that `Next` has still to return. -/
def unread (s : LookUp) : List Row :=
  match s.resultCurr.bind (s.tasks[·]?) with
  | some task => task.rows.drop task.cursor
  | none => []

theorem rowsAt_of_eq_some {T : List LookupTableTask} {x : Nat} {task : LookupTableTask}
    (found : T[x]? = some task) : rowsAt T x = task.rows := by
  rw [rowsAt, found]
  rfl

theorem rowsAt_set {T : List LookupTableTask} {id : Nat} {task t : LookupTableTask} (found : T[id]? = some task)
    (same : t.rows = task.rows) : rowsAt (T.set id t) = rowsAt T := by
  funext x
  rw [rowsAt, rowsAt, List.getElem?_set]
  split_ifs with here lt
  · rw [← here, found]
    exact congrArg (Option.getD · []) (congrArg some same)
  · exact absurd (List.getElem?_eq_some_iff.mp found).1 lt
  · rfl

theorem flatMap_rowsAt_congr {T T' : List LookupTableTask} {n : Nat} (same : ∀ x < n, T'[x]? = T[x]?) :
    (List.range n).flatMap (rowsAt T') = (List.range n).flatMap (rowsAt T) :=
  List.flatMap_congr fun x mem => by rw [rowsAt, rowsAt, same x (List.mem_range.mp mem)]

theorem unread_of_current {s : LookUp} {c : Nat} {task : LookupTableTask} (current : s.resultCurr = some c)
    (found : s.tasks[c]? = some task) : s.unread = task.rows.drop task.cursor := by
  simp only [unread, current, Option.some_bind, found]

/-- With no rows left in `resultCurr`, nothing is unread. -/
theorem unread_of_hasRows {s : LookUp} (exhausted : s.hasRows = false) : s.unread = [] := by
  unfold hasRows at exhausted
  unfold unread
  cases found : s.resultCurr.bind (s.tasks[·]?) with
  | none => rfl
  | some task =>
    simp only [found, decide_eq_false_iff_not, not_lt] at exhausted
    exact List.drop_eq_nil_of_le exhausted

theorem unread_congr {s s' : LookUp} (current : s'.resultCurr = s.resultCurr)
    (same : ∀ c, s.resultCurr = some c → s'.tasks[c]? = s.tasks[c]?) : s'.unread = s.unread := by
  unfold unread
  rw [current]
  cases found : s.resultCurr with
  | none => rfl
  | some c => simp only [Option.some_bind, same c found]

/-! ## The invariant -/

/--
What every state of a run of the executor holds, over the table, the chunks the index
request returns, and whether the executor keeps the order.
-/
structure Inv (table : Int → Row) (chunks : List IndexChunk) (keepOrder : Bool) (s : LookUp) : Prop where
  keep : s.worker.keepOrder = keepOrder
  /-- While the index worker runs, its tasks and what the request has left hold the index's handles. -/
  fetched : s.phase ≠ .exited → s.tasks.flatMap (·.handles) ++ indexHandles s.chunks = indexHandles chunks
  /-- The tasks hold the index's handles in order, up to a point. -/
  inIndex : s.tasks.flatMap (·.handles) <+: indexHandles chunks
  /-- A task saves the index order of its handles when the order is kept. -/
  indexOrder : keepOrder = true → ∀ task ∈ s.tasks, task.indexOrder = saveIndexOrder (fun _ => 0) 0 task.handles
  /-- A task done without an error holds the table's rows of its handles... -/
  perm : ∀ task ∈ s.tasks, task.doneCh = some none → task.rows.Perm (task.handles.map table)
  /-- ...in the order of its handles when the order is kept, the rows carry their handles and the handles are distinct... -/
  ordered : keepOrder = true → (∀ h, (table h).handle = h) → (indexHandles chunks).Nodup →
    ∀ task ∈ s.tasks, task.doneCh = some none → task.rows = task.handles.map table
  /-- ...and any other task holds no rows. -/
  empty : ∀ task ∈ s.tasks, task.doneCh ≠ some none → task.rows = []
  /-- The tasks on `workCh` or with a table worker are built and not done... -/
  pending : ∀ id ∈ s.workCh ++ s.executing, ∃ task, s.tasks[id]? = some task ∧ task.doneCh = none
  /-- ...each in one place. -/
  nodup : (s.workCh ++ s.executing).Nodup
  /-- The task at the index worker's `select` is not sent and not done... -/
  selecting : ∀ id, s.phase = .selecting id →
    id ∉ s.workCh ++ s.executing ∧ ∃ task, s.tasks[id]? = some task ∧ task.doneCh = none
  /-- ...and it is the last task built, as is the task between the two sends. -/
  last : ∀ id, s.phase = .selecting id ∨ s.phase = .publishing id → id + 1 = s.tasks.length
  /-- `resultCh` holds the tasks after those `getResultTask` took, in the order they were built... -/
  fifo : s.resultCh = List.range' s.received s.resultCh.length
  /-- ...up to the last task built, at the top of the loop of `fetchHandles`... -/
  sent : s.phase = .fetching → s.received + s.resultCh.length = s.tasks.length
  /-- ...or up to the one the index worker is sending. -/
  sending : ∀ id, s.phase = .selecting id ∨ s.phase = .publishing id → s.received + s.resultCh.length = id
  sent_le : s.received + s.resultCh.length ≤ s.tasks.length
  /--
  Once the index worker returned, but at a `select` that found the context done or `finished`
  closed, it had sent every task it built on `resultCh`: it sent a failed task, or its tasks
  hold every handle of the index, or its batch size is zero.
  -/
  exited : s.phase = .exited → s.cancelled = false → s.finished = false →
    s.received + s.resultCh.length = s.tasks.length ∧
      ((∃ (x : Nat) (task : LookupTableTask) (err : Nat), s.tasks[x]? = some task ∧ task.doneCh = some (some err)) ∨
        s.tasks.flatMap (·.handles) = indexHandles chunks ∨ s.worker.batchSize = 0)
  /-- Every task `getResultTask` took was done, without an error but for the last when `Next` failed. -/
  taken : ∀ id < s.received, ∃ task, s.tasks[id]? = some task ∧ task.doneCh ≠ none ∧
    (task.doneCh ≠ some none → s.err ≠ none ∧ id + 1 = s.received)
  /-- `resultCurr` is a task `getResultTask` took. -/
  current : ∀ id, s.resultCurr = some id → id < s.received
  /-- A task not taken yet has its cursor at its first row. -/
  fresh : ∀ id task, s.tasks[id]? = some task → s.received ≤ id → task.cursor = 0
  /-- `Next` returned the rows of the tasks it took, in order, but for those of `resultCurr` still to return. -/
  output : s.out ++ s.unread = (List.range s.received).flatMap (rowsAt s.tasks)

variable {table : Int → Row} {chunks : List IndexChunk} {keepOrder : Bool} {s : LookUp} {id : Nat}
  {task : LookupTableTask}

theorem Inv.start (table : Int → Row) (keepOrder : Bool) (initBatchSize maxBatchSize : Nat) (chunks : List IndexChunk) :
    Inv table chunks keepOrder (start keepOrder initBatchSize maxBatchSize chunks) where
  keep := rfl
  fetched _ := rfl
  inIndex := ⟨_, rfl⟩
  indexOrder _ _ := nofun
  perm _ := nofun
  ordered _ _ _ _ := nofun
  empty _ := nofun
  pending _ := nofun
  nodup := List.nodup_nil
  selecting _ := nofun
  last _ phase := by rcases phase with phase | phase <;> cases phase
  fifo := rfl
  sent _ := rfl
  sending _ phase := by rcases phase with phase | phase <;> cases phase
  sent_le := le_rfl
  exited := nofun
  taken _ := nofun
  current _ := nofun
  fresh _ _ := nofun
  output := rfl

theorem Inv.received_le (inv : Inv table chunks keepOrder s) : s.received ≤ s.tasks.length :=
  le_trans (Nat.le_add_right _ _) inv.sent_le

/-- The handles of a task are distinct when the index's are. -/
theorem Inv.nodup_handles (inv : Inv table chunks keepOrder s) (distinct : (indexHandles chunks).Nodup)
    (mem : task ∈ s.tasks) : task.handles.Nodup :=
  distinct.sublist ((List.sublist_flatten_of_mem (List.mem_map_of_mem _ mem)).trans inv.inIndex.sublist)

/-- The tasks `getResultTask` took are left as they were, so `Next` has returned the same rows. -/
theorem Inv.output_of_below (inv : Inv table chunks keepOrder s) {s' : LookUp} (out : s'.out = s.out)
    (current : s'.resultCurr = s.resultCurr) (received : s'.received = s.received)
    (below : ∀ x < s.received, s'.tasks[x]? = s.tasks[x]?) :
    s'.out ++ s'.unread = (List.range s'.received).flatMap (rowsAt s'.tasks) := by
  rw [out, received, unread_congr current fun c found => below c (inv.current c found), flatMap_rowsAt_congr below]
  exact inv.output

/-! ## Each step keeps the invariant -/

/-- A round of `fetchHandles` keeps the invariant. -/
theorem Inv.fetchBatch (inv : Inv table chunks keepOrder s) (fetching : s.phase = .fetching) :
    Inv table chunks keepOrder s.fetchBatch := by
  have running := inv.fetched (by simp [fetching])
  have sent := inv.sent fetching
  have below : ∀ U : List LookupTableTask, ∀ x < s.received, (s.tasks ++ U)[x]? = s.tasks[x]? :=
    fun _ x lt => List.getElem?_append_left (by have := inv.sent_le; omega)
  have fresh : ∀ t : LookupTableTask, t.cursor = 0 → ∀ x u, (s.tasks ++ [t])[x]? = some u → s.received ≤ x →
      u.cursor = 0 := fun t zero x u found le => by
    rcases getElem?_concat_eq_some found with found | ⟨-, rfl⟩
    exacts [inv.fresh x u found le, zero]
  obtain ⟨worker, rest, resized, ⟨err, fetched⟩ | ⟨read, fetched⟩ | ⟨handles, split, fetched⟩⟩ := fetchBatch_cases s <;>
    rw [fetched]
  · -- `Next` of the index failed: the failed task goes on `resultCh`, and the worker returns.
    refine { inv with
      keep := resized.1.trans inv.keep
      fetched := fun exited => absurd rfl exited
      inIndex := by simpa [failedTask] using (⟨_, running⟩ : s.tasks.flatMap (·.handles) <+: indexHandles chunks)
      indexOrder := fun kept u mem => ?_
      perm := fun u mem done => ?_
      ordered := fun kept rowsOf distinct u mem done => ?_
      empty := fun u mem failed => ?_
      pending := fun x mem => exists_append _ (inv.pending x mem)
      selecting := by simp
      last := by simp
      fifo := by
        rw [List.length_append, List.length_singleton, List.range'_concat, ← inv.fifo, Nat.one_mul, sent]
      sent := by simp
      sending := by simp
      sent_le := by simp only [List.length_append, List.length_singleton]; omega
      exited := fun _ _ _ => ⟨by simp only [List.length_append, List.length_singleton]; omega,
        .inl ⟨_, _, err, List.getElem?_concat_length _ _, rfl⟩⟩
      taken := fun x lt => exists_append _ (inv.taken x lt)
      fresh := fresh _ rfl
      output := inv.output_of_below rfl rfl rfl (below _) } <;>
    rcases List.mem_append.mp mem with mem | mem
    all_goals try obtain rfl := List.mem_singleton.mp mem
    · exact inv.indexOrder kept u mem
    · rfl
    · exact inv.perm u mem done
    · cases done
    · exact inv.ordered kept rowsOf distinct u mem done
    · cases done
    · exact inv.empty u mem failed
    · rfl
  · -- No handles left: the worker returns.
    exact { inv with
      keep := resized.1.trans inv.keep
      fetched := fun exited => absurd rfl exited
      inIndex := ⟨_, running⟩
      selecting := by simp
      last := by simp
      sent := by simp
      sending := by simp
      exited := fun _ _ _ => ⟨sent, .inr (read.imp_left fun read => by rw [← running, read, List.append_nil])⟩ }
  · -- A batch: its task is built, and the worker goes to its `select`.
    have fetched' : (s.tasks ++ [worker.buildTableTask handles]).flatMap (·.handles) ++ indexHandles rest =
        indexHandles chunks := by
      rw [List.flatMap_append, List.flatMap_singleton, List.append_assoc]
      exact split ▸ running
    refine { inv with
      keep := resized.1.trans inv.keep
      fetched := fun _ => fetched'
      inIndex := ⟨_, fetched'⟩
      indexOrder := fun kept u mem => ?_
      perm := fun u mem done => ?_
      ordered := fun kept rowsOf distinct u mem done => ?_
      empty := fun u mem failed => ?_
      pending := fun x mem => exists_append _ (inv.pending x mem)
      selecting := fun x phase => ?_
      last := fun x phase => ?_
      sent := by simp
      sending := fun x phase => ?_
      sent_le := by simp only [List.length_append, List.length_singleton]; omega
      exited := nofun
      taken := fun x lt => exists_append _ (inv.taken x lt)
      fresh := fresh _ rfl
      output := inv.output_of_below rfl rfl rfl (below _) }
    · rcases List.mem_append.mp mem with mem | mem
      · exact inv.indexOrder kept u mem
      · obtain rfl := List.mem_singleton.mp mem
        exact if_pos (resized.1.trans (inv.keep.trans kept))
    · rcases List.mem_append.mp mem with mem | mem
      · exact inv.perm u mem done
      · obtain rfl := List.mem_singleton.mp mem
        cases done
    · rcases List.mem_append.mp mem with mem | mem
      · exact inv.ordered kept rowsOf distinct u mem done
      · obtain rfl := List.mem_singleton.mp mem
        cases done
    · rcases List.mem_append.mp mem with mem | mem
      · exact inv.empty u mem failed
      · obtain rfl := List.mem_singleton.mp mem
        rfl
    · -- The new task has the next id: no id on `workCh` or with a table worker.
      cases phase
      refine ⟨fun mem => ?_, _, List.getElem?_concat_length _ _, rfl⟩
      obtain ⟨u, found, -⟩ := inv.pending _ mem
      exact absurd (List.getElem?_eq_some_iff.mp found).1 (lt_irrefl _)
    · rcases phase with phase | phase <;> cases phase
      simp
    · rcases phase with phase | phase <;> cases phase
      exact sent

/-- The `select` sending the task on `workCh` keeps the invariant. -/
theorem Inv.send (inv : Inv table chunks keepOrder s) (selecting : s.phase = .selecting id) :
    Inv table chunks keepOrder { s with phase := .publishing id, workCh := s.workCh ++ [id] } := by
  obtain ⟨unsent, waiting⟩ := inv.selecting id selecting
  exact { inv with
    fetched := fun _ => inv.fetched (by simp [selecting])
    pending := fun x mem => by
      simp only [List.append_assoc, List.singleton_append, List.mem_append, List.mem_cons] at mem
      rcases mem with mem | rfl | mem
      exacts [inv.pending x (List.mem_append_left _ mem), waiting, inv.pending x (List.mem_append_right _ mem)]
    nodup := by
      rw [List.append_assoc, List.singleton_append]
      exact List.perm_middle.nodup_iff.mpr (List.nodup_cons.mpr ⟨unsent, inv.nodup⟩)
    selecting := nofun
    last := fun x phase => by
      rcases phase with phase | phase <;> cases phase
      exact inv.last id (.inl selecting)
    sent := nofun
    exited := nofun
    sending := fun x phase => by
      rcases phase with phase | phase <;> cases phase
      exact inv.sending id (.inl selecting) }

/-- The `select` finding the context done or `finished` closed keeps the invariant. -/
theorem Inv.stop (inv : Inv table chunks keepOrder s) (flag : (s.cancelled || s.finished) = true) :
    Inv table chunks keepOrder { s with phase := .exited } :=
  { inv with
    exited := fun _ (running : s.cancelled = false) (unclosed : s.finished = false) => by
      rw [running, unclosed] at flag
      cases flag
    fetched := fun exited => absurd rfl exited
    selecting := nofun
    last := fun _ phase => by rcases phase with phase | phase <;> cases phase
    sent := nofun
    sending := fun _ phase => by rcases phase with phase | phase <;> cases phase }

/-- Sending the task on `resultCh` keeps the invariant. -/
theorem Inv.publish (inv : Inv table chunks keepOrder s) (publishing : s.phase = .publishing id) :
    Inv table chunks keepOrder { s with phase := .fetching, resultCh := s.resultCh ++ [id] } := by
  have last := inv.last id (.inr publishing)
  have sending := inv.sending id (.inr publishing)
  exact { inv with
    fetched := fun _ => inv.fetched (by simp [publishing])
    selecting := nofun
    last := fun _ phase => by rcases phase with phase | phase <;> cases phase
    fifo := by
      rw [List.length_append, List.length_singleton, List.range'_concat, ← inv.fifo, Nat.one_mul, sending]
    sent := fun _ => by simp only [List.length_append, List.length_singleton]; omega
    sending := fun _ phase => by rcases phase with phase | phase <;> cases phase
    exited := nofun
    sent_le := by simp only [List.length_append, List.length_singleton]; omega }

/-- A table worker receiving a task from `workCh` keeps the invariant. -/
theorem Inv.pick (inv : Inv table chunks keepOrder s) {rest : List Nat} (head : s.workCh = id :: rest) :
    Inv table chunks keepOrder { s with workCh := rest, executing := s.executing ++ [id] } := by
  have moved : (rest ++ (s.executing ++ [id])).Perm (s.workCh ++ s.executing) := by
    rw [head, ← List.append_assoc]
    exact List.perm_append_singleton _ _
  exact { inv with
    pending := fun x mem => inv.pending x (moved.subset mem)
    nodup := moved.nodup_iff.mpr inv.nodup
    selecting := fun x phase =>
      have ⟨unsent, waiting⟩ := inv.selecting x phase
      ⟨fun mem => unsent (moved.subset mem), waiting⟩ }

/-- A table worker finishing its task keeps the invariant. -/
theorem Inv.execute (inv : Inv table chunks keepOrder s) {reply : Except Nat (List Row)}
    (found : s.tasks[id]? = some task) (picked : id ∈ s.executing) (replied : Replies table task.handles reply) :
    Inv table chunks keepOrder
      { s with executing := s.executing.erase id,
               tasks := s.tasks.set id (task.executeTask s.worker.keepOrder reply) } := by
  have kept : (task.executeTask s.worker.keepOrder reply).handles = task.handles ∧
      (task.executeTask s.worker.keepOrder reply).indexOrder = task.indexOrder ∧
      (task.executeTask s.worker.keepOrder reply).cursor = task.cursor := by
    cases reply <;> exact ⟨rfl, rfl, rfl⟩
  have mem := List.getElem?_mem found
  have waiting : task.doneCh = none := by
    obtain ⟨u, found', waiting⟩ := inv.pending id (List.mem_append_right _ picked)
    rw [found] at found'
    exact Option.some.inj found' ▸ waiting
  -- The task was not taken, so the tasks `getResultTask` took are left as they were.
  have untaken : s.received ≤ id := by
    by_contra taken
    obtain ⟨u, found', done, -⟩ := inv.taken id (by omega)
    rw [found] at found'
    exact done (Option.some.inj found' ▸ waiting)
  have below : ∀ x < s.received, (s.tasks.set id (task.executeTask s.worker.keepOrder reply))[x]? = s.tasks[x]? :=
    fun x lt => List.getElem?_set_ne (by omega)
  have others : s.workCh ++ s.executing.erase id ⊆ s.workCh ++ s.executing :=
    ((List.erase_sublist _ _).append_left _).subset
  -- A failed task is not the one the table worker finished, which was not done.
  have unfailed : ∀ {x u err}, s.tasks[x]? = some u → u.doneCh = some (some err) → id ≠ x := fun found' failed same => by
    subst same
    rw [found] at found'
    cases found'
    rw [waiting] at failed
    cases failed
  have gone : id ∉ s.workCh ++ s.executing.erase id := by
    have ⟨distinct, executing, apart⟩ := List.nodup_append.mp inv.nodup
    rw [List.mem_append, not_or]
    exact ⟨fun sent => apart sent picked, executing.not_mem_erase⟩
  exact { inv with
    fetched := fun running => by rw [flatMap_set _ found kept.1]; exact inv.fetched running
    inIndex := by rw [flatMap_set _ found kept.1]; exact inv.inIndex
    indexOrder := fun keep u mem' => (List.mem_or_eq_of_mem_set mem').elim (inv.indexOrder keep u) fun same => by
      rw [same, kept.1, kept.2.1]
      exact inv.indexOrder keep task mem
    perm := fun u mem' done => (List.mem_or_eq_of_mem_set mem').elim (fun old => inv.perm u old done) fun same => by
      subst same
      cases reply with
      | ok rows => exact executeTask_perm _ replied
      | error err => cases done
    ordered := fun keep rowsOf distinct u mem' done =>
      (List.mem_or_eq_of_mem_set mem').elim (fun old => inv.ordered keep rowsOf distinct u old done) fun same => by
        subst same
        cases reply with
        | ok rows =>
          rw [inv.keep, keep]
          exact executeTask_keepOrder rowsOf (inv.indexOrder keep task mem) (inv.nodup_handles distinct mem) replied
        | error err => cases done
    empty := fun u mem' failed => (List.mem_or_eq_of_mem_set mem').elim (fun old => inv.empty u old failed) fun same => by
      subst same
      cases reply with
      | ok rows => exact absurd rfl failed
      | error err => exact inv.empty task mem (by rw [waiting]; exact nofun)
    pending := fun x sent => by
      obtain ⟨u, found', waiting'⟩ := inv.pending x (others sent)
      exact ⟨u, by rw [List.getElem?_set_ne fun same => by subst same; exact gone sent]; exact found', waiting'⟩
    nodup := inv.nodup.sublist ((List.erase_sublist _ _).append_left _)
    selecting := fun x phase => by
      obtain ⟨unsent, u, found', waiting'⟩ := inv.selecting x phase
      refine ⟨fun sent => unsent (others sent), u, ?_, waiting'⟩
      rw [List.getElem?_set_ne fun same => by subst same; exact unsent (List.mem_append_right _ picked)]
      exact found'
    last := fun x phase => by rw [List.length_set]; exact inv.last x phase
    sent := fun phase => by rw [List.length_set]; exact inv.sent phase
    sent_le := by rw [List.length_set]; exact inv.sent_le
    exited := fun phase running unclosed => (inv.exited phase running unclosed).imp (by rw [List.length_set]; exact ·) <|
      Or.imp (fun ⟨x, u, err, found', failed⟩ => ⟨x, u, err, by rw [List.getElem?_set_ne (unfailed found' failed)]; exact found', failed⟩)
        (Or.imp_left fun all => by rw [flatMap_set _ found kept.1]; exact all)
    taken := fun x lt => by rw [below x lt]; exact inv.taken x lt
    fresh := fun x u found' le => by
      rcases getElem?_set_eq_some found' with ⟨rfl, rfl⟩ | ⟨-, found'⟩
      exacts [kept.2.2.trans (inv.fresh x task found le), inv.fresh x u found' le]
    output := inv.output_of_below rfl rfl rfl below }

/-- `getResultTask` taking a task done without an error keeps the invariant. -/
theorem Inv.take (inv : Inv table chunks keepOrder s) {rest : List Nat} (ok : s.err = none)
    (exhausted : s.hasRows = false) (head : s.resultCh = id :: rest) (found : s.tasks[id]? = some task)
    (done : task.doneCh = some none) :
    Inv table chunks keepOrder { s with resultCh := rest, received := s.received + 1, resultCurr := some id } := by
  have fifo := inv.fifo
  rw [head, List.length_cons, List.range'_succ] at fifo
  obtain ⟨rfl, queue⟩ := List.cons.inj fifo
  have length : s.resultCh.length = rest.length + 1 := by rw [head]; rfl
  exact { inv with
    fifo := queue
    sent := fun phase => by dsimp only; have := inv.sent phase; omega
    sending := fun x phase => by dsimp only; have := inv.sending x phase; omega
    sent_le := by dsimp only; have := inv.sent_le; omega
    exited := fun phase running unclosed => (inv.exited phase running unclosed).imp_left fun sent => by dsimp only; omega
    taken := fun x lt => by
      rcases Nat.lt_succ_iff_lt_or_eq.mp lt with lt | rfl
      · obtain ⟨u, found', done', failed⟩ := inv.taken x lt
        exact ⟨u, found', done', fun notOk => absurd ok (failed notOk).1⟩
      · exact ⟨task, found, by rw [done]; exact nofun, fun notOk => absurd done notOk⟩
    current := fun x current => by cases current; exact Nat.lt_succ_self _
    fresh := fun x u found' le => inv.fresh x u found' (by dsimp only at le; omega)
    output := by
      dsimp only
      simp only [unread, Option.some_bind, found, inv.fresh s.received task found le_rfl, List.drop_zero]
      rw [List.range_succ, List.flatMap_append, List.flatMap_singleton, rowsAt_of_eq_some found, ← inv.output,
        unread_of_hasRows exhausted, List.append_nil] }

/-- `getResultTask` taking a failed task keeps the invariant: `Next` returns its error. -/
theorem Inv.takeFailed (inv : Inv table chunks keepOrder s) {rest : List Nat} {err : Nat} (ok : s.err = none)
    (head : s.resultCh = id :: rest) (found : s.tasks[id]? = some task)
    (failed : task.doneCh = some (some err)) :
    Inv table chunks keepOrder { s with resultCh := rest, received := s.received + 1, err := some err } := by
  have fifo := inv.fifo
  rw [head, List.length_cons, List.range'_succ] at fifo
  obtain ⟨rfl, queue⟩ := List.cons.inj fifo
  have length : s.resultCh.length = rest.length + 1 := by rw [head]; rfl
  exact { inv with
    fifo := queue
    sent := fun phase => by dsimp only; have := inv.sent phase; omega
    sending := fun x phase => by dsimp only; have := inv.sending x phase; omega
    sent_le := by dsimp only; have := inv.sent_le; omega
    exited := fun phase running unclosed => (inv.exited phase running unclosed).imp_left fun sent => by dsimp only; omega
    taken := fun x lt => by
      rcases Nat.lt_succ_iff_lt_or_eq.mp lt with lt | rfl
      · obtain ⟨u, found', done', failed'⟩ := inv.taken x lt
        exact ⟨u, found', done', fun notOk => absurd ok (failed' notOk).1⟩
      · exact ⟨task, found, by rw [failed]; exact nofun, fun _ => ⟨nofun, rfl⟩⟩
    current := fun x current => Nat.lt_succ_of_lt (inv.current x current)
    fresh := fun x u found' le => inv.fresh x u found' (by dsimp only at le; omega)
    output := by
      rw [List.range_succ, List.flatMap_append, List.flatMap_singleton, rowsAt_of_eq_some found,
        inv.empty task (List.getElem?_mem found) (by rw [failed]; exact nofun), List.append_nil]
      exact inv.output }

/-- `Next` returning the next row of `resultCurr` keeps the invariant. -/
theorem Inv.emit (inv : Inv table chunks keepOrder s) {row : Row} (current : s.resultCurr = some id)
    (found : s.tasks[id]? = some task) (next : task.rows[task.cursor]? = some row) :
    Inv table chunks keepOrder
      { s with out := s.out ++ [row], tasks := s.tasks.set id { task with cursor := task.cursor + 1 } } := by
  have mem := List.getElem?_mem found
  obtain ⟨bound, rfl⟩ := List.getElem?_eq_some_iff.mp next
  set read : LookupTableTask := { task with cursor := task.cursor + 1 }
  have handles : (s.tasks.set id read).flatMap (·.handles) = s.tasks.flatMap (·.handles) := flatMap_set _ found rfl
  -- Only the cursor moves: a task of the list is one of before, or the task with its cursor moved.
  have moved : ∀ u ∈ s.tasks.set id read, u ∈ s.tasks ∨ u = read := fun _ mem' => List.mem_or_eq_of_mem_set mem'
  have fresh : ∀ x u, (s.tasks.set id read)[x]? = some u → s.received ≤ x → u.cursor = 0 := fun x u found' le => by
    rcases getElem?_set_eq_some found' with ⟨rfl, -⟩ | ⟨-, found'⟩
    exacts [absurd (inv.current x current) (by omega), inv.fresh x u found' le]
  have unread : LookUp.unread { s with out := s.out ++ [task.rows[task.cursor]], tasks := s.tasks.set id read } =
      task.rows.drop (task.cursor + 1) := by
    simp only [unread, current, Option.some_bind, List.getElem?_set_self (List.getElem?_eq_some_iff.mp found).1]
  have output := inv.output
  rw [unread_of_current current found, List.drop_eq_getElem_cons bound] at output
  refine { inv with
    fetched := fun running => handles ▸ inv.fetched running
    inIndex := handles ▸ inv.inIndex
    indexOrder := fun keep u mem' => ?_
    perm := fun u mem' => ?_
    ordered := fun keep rowsOf distinct u mem' => ?_
    empty := fun u mem' => ?_
    pending := fun x sent =>
      have ⟨_, found', waiting⟩ := inv.pending x sent
      have ⟨u, found', same⟩ := getElem?_set_doneCh read found rfl found'
      ⟨u, found', same ▸ waiting⟩
    selecting := fun x phase =>
      have ⟨unsent, _, found', waiting⟩ := inv.selecting x phase
      have ⟨u, found', same⟩ := getElem?_set_doneCh read found rfl found'
      ⟨unsent, u, found', same ▸ waiting⟩
    last := fun x phase => by rw [List.length_set]; exact inv.last x phase
    sent := fun phase => by rw [List.length_set]; exact inv.sent phase
    sent_le := by rw [List.length_set]; exact inv.sent_le
    exited := fun phase running unclosed => (inv.exited phase running unclosed).imp (by rw [List.length_set]; exact ·) <|
      Or.imp (fun ⟨x, _, err, found', failed⟩ =>
          have ⟨u, found', same⟩ := getElem?_set_doneCh read found rfl found'
          ⟨x, u, err, found', same.trans failed⟩)
        (Or.imp_left (handles ▸ ·))
    taken := fun x lt =>
      have ⟨_, found', done, failed⟩ := inv.taken x lt
      have ⟨u, found', same⟩ := getElem?_set_doneCh read found rfl found'
      ⟨u, found', same ▸ done, same ▸ failed⟩
    fresh := fresh
    output := by
      dsimp only
      rw [unread, rowsAt_set found (rfl : read.rows = task.rows), List.append_assoc, List.singleton_append]
      exact output }
  all_goals rcases moved u mem' with mem' | rfl
  · exact inv.indexOrder keep u mem'
  · exact inv.indexOrder keep task mem
  · exact inv.perm u mem'
  · exact inv.perm task mem
  · exact inv.ordered keep rowsOf distinct u mem'
  · exact inv.ordered keep rowsOf distinct task mem
  · exact inv.empty u mem'
  · exact inv.empty task mem

/-- Every step of every goroutine keeps the invariant. -/
theorem Inv.step (inv : Inv table chunks keepOrder s) {s' : LookUp} {e : Event} (stepped : s.step table e = some s') :
    Inv table chunks keepOrder s' := by
  cases e <;> dsimp only [LookUp.step] at stepped
  case fetch =>
    split_ifs at stepped with fetching
    cases stepped
    exact inv.fetchBatch fetching
  case send =>
    cases phase : s.phase <;> rw [phase] at stepped <;> cases stepped
    exact inv.send phase
  case stop =>
    cases phase : s.phase <;> rw [phase] at stepped <;> try cases stepped
    split_ifs at stepped with flag
    cases stepped
    exact inv.stop flag
  case publish =>
    cases phase : s.phase <;> rw [phase] at stepped <;> cases stepped
    exact inv.publish phase
  case pick =>
    cases head : s.workCh <;> rw [head] at stepped <;> cases stepped
    exact inv.pick head
  case execute id reply =>
    cases found : s.tasks[id]? with
    | none => rw [found] at stepped; cases stepped
    | some task =>
      rw [found] at stepped
      dsimp only at stepped
      split_ifs at stepped with guard
      cases stepped
      exact inv.execute found guard.1 guard.2
  case take =>
    split_ifs at stepped with guard
    obtain ⟨ok, -, exhausted⟩ := guard
    cases head : s.resultCh with
    | nil => rw [head] at stepped; cases stepped
    | cons id rest =>
      rw [head] at stepped
      dsimp only at stepped
      split at stepped <;> rename_i done
      · obtain ⟨task, found, done⟩ := Option.bind_eq_some.mp done
        cases stepped
        exact inv.take ok exhausted head found done
      · obtain ⟨task, found, failed⟩ := Option.bind_eq_some.mp done
        cases stepped
        exact inv.takeFailed ok head found failed
      · cases stepped
  case emit =>
    split_ifs at stepped
    cases current : s.resultCurr with
    | none => rw [current] at stepped; cases stepped
    | some id =>
      rw [current] at stepped
      dsimp only at stepped
      cases found : s.tasks[id]? with
      | none => rw [found] at stepped; cases stepped
      | some task =>
        rw [found] at stepped
        dsimp only at stepped
        cases next : task.rows[task.cursor]? with
        | none => rw [next] at stepped; cases stepped
        | some row =>
          rw [next] at stepped
          cases stepped
          rw [← current]
          exact inv.emit current found next
  case cancel =>
    cases stepped
    exact { inv with exited := fun _ => nofun }
  case close =>
    cases stepped
    exact { inv with exited := fun _ _ => nofun }

/-- Every run keeps the invariant. -/
theorem Inv.run : ∀ {s s' : LookUp} {events : List Event}, Inv table chunks keepOrder s →
    s.run table events = some s' → Inv table chunks keepOrder s'
  | _, _, [], inv, ran => by
    cases ran
    exact inv
  | _, _, _ :: _, inv, ran => by
    obtain ⟨_, stepped, ran⟩ := Option.bind_eq_some.mp ran
    exact Inv.run (inv.step stepped) ran

/-! ## The batch size -/

/-- A step keeps the index worker, but for a round of `fetchHandles`, which may resize its batch. -/
theorem step_resized {s' : LookUp} {e : Event} (stepped : s.step table e = some s') : s.worker.Resized s'.worker := by
  cases e <;> dsimp only [step] at stepped
  case fetch =>
    split_ifs at stepped
    cases stepped
    exact fetchBatch_resized s
  all_goals
    repeat' (first | split at stepped | split_ifs at stepped)
    all_goals first | (cases stepped; exact .refl _) | cases stepped

/-- Along a run, the batch sizes stay positive when they start so. -/
theorem run_sized : ∀ {s s' : LookUp} {events : List Event}, 0 < s.worker.batchSize ∧ 0 < s.worker.maxBatchSize →
    s.run table events = some s' → 0 < s'.worker.batchSize ∧ 0 < s'.worker.maxBatchSize
  | _, _, [], positive, ran => by
    cases ran
    exact positive
  | _, _, _ :: _, positive, ran => by
    obtain ⟨_, stepped, ran⟩ := Option.bind_eq_some.mp ran
    exact run_sized ((step_resized stepped).positive positive) ran

end LookUp

/-! ## What `Next` returns -/

/--
Where each part but the last is what was expected and the last is that or nothing, the
parts run along the expected ones.
-/
theorem flatMap_range_begins {f g : Nat → List Row} : ∀ {n : Nat}, (∀ i < n, f i = g i ∨ i + 1 = n ∧ f i = []) →
    (List.range n).flatMap f <+: (List.range n).flatMap g
  | 0, _ => ⟨[], rfl⟩
  | n + 1, parts => by
    have same : (List.range n).flatMap f = (List.range n).flatMap g := List.flatMap_congr fun i mem =>
      (parts i (by simp at mem; omega)).resolve_right fun ⟨last, _⟩ => by simp at mem; omega
    rw [List.range_succ, List.flatMap_append, List.flatMap_append, List.flatMap_singleton, List.flatMap_singleton,
      same]
    rcases parts n (by omega) with last | ⟨-, empty⟩
    · simp only [last, List.prefix_refl]
    · simp only [empty, List.append_nil, List.prefix_append]

theorem flatMap_range_getElem? {β : Type} (f : LookupTableTask → List β) :
    ∀ {n : Nat} {T : List LookupTableTask}, n ≤ T.length →
      (List.range n).flatMap (fun i => (T[i]?.map f).getD []) = (T.take n).flatMap f
  | 0, _, _ => by simp
  | n + 1, T, le => by
    rw [List.range_succ, List.flatMap_append, flatMap_range_getElem? f (by omega), List.take_succ,
      List.flatMap_append]
    simp [List.getElem?_eq_getElem (show n < T.length by omega)]

theorem flatMap_take {β : Type} (f : LookupTableTask → List β) (T : List LookupTableTask) (n : Nat) :
    (T.take n).flatMap f <+: T.flatMap f :=
  ⟨(T.drop n).flatMap f, by rw [← List.flatMap_append, List.take_append_drop]⟩

variable {table : Int → Row} {chunks : List IndexChunk} {keepOrder : Bool} {initBatchSize maxBatchSize : Nat}
  {events : List Event} {s : LookUp}

/--
Whatever the interleaving, `Next` returns rows batch after batch, the batches taking the
index's handles in order, and each batch's rows the table's rows of its handles in some
order: the rows `Next` has returned run along such a sequence of batches.
-/
theorem lookUp_returns_batches
    (ran : (LookUp.start keepOrder initBatchSize maxBatchSize chunks).run table events = some s) :
    ∃ batches : List (List Int), batches.flatten <+: indexHandles chunks ∧
      ∃ rows : List (List Row), List.Forall₂ (fun batch rows => rows.Perm (batch.map table)) batches rows ∧
        s.out <+: rows.flatten := by
  have inv := (LookUp.Inv.start table keepOrder initBatchSize maxBatchSize chunks).run ran
  let rowsOf (t : LookupTableTask) : List Row := if t.doneCh = some none then t.rows else t.handles.map table
  have parts : ∀ i < s.received,
      LookUp.rowsAt s.tasks i = (s.tasks[i]?.map rowsOf).getD [] ∨ i + 1 = s.received ∧ LookUp.rowsAt s.tasks i = [] := by
    intro i lt
    obtain ⟨t, found, -, failed⟩ := inv.taken i lt
    rw [LookUp.rowsAt_of_eq_some found, found]
    by_cases ok : t.doneCh = some none
    · exact .inl (if_pos ok).symm
    · exact .inr ⟨(failed ok).2, inv.empty t (List.getElem?_mem found) ok⟩
  refine ⟨(s.tasks.take s.received).map (·.handles), (flatMap_take _ _ _).trans inv.inIndex,
    (s.tasks.take s.received).map rowsOf, ?_, ?_⟩
  · rw [List.forall₂_map_left_iff, List.forall₂_map_right_iff, List.forall₂_same]
    intro t mem
    dsimp only [rowsOf]
    by_cases ok : t.doneCh = some none
    · rw [if_pos ok]
      exact inv.perm t (List.mem_of_mem_take mem) ok
    · rw [if_neg ok]
  · rw [← List.flatMap_def, ← flatMap_range_getElem? _ inv.received_le]
    exact List.IsPrefix.trans ⟨_, rfl⟩ (inv.output ▸ flatMap_range_begins parts)

/-- A table whose rows hold only their handles. -/
def handleRows (h : Int) : Row :=
  { handle := h }

/-- An index holding the handles 3 and 1, then 2, in two chunks. -/
def twoChunks : List IndexChunk :=
  [.rows 3 [1], .rows 2 []]

/--
Batches of at least one handle, then two: both batches are sent before either is done; the
second batch's table read finishes first, and the first one's reader returns its rows in
the order of the handles.
-/
def twoBatches : List Event :=
  [.fetch, .send, .publish, .fetch, .send, .publish, .pick, .pick, .execute 1 (.ok [handleRows 2]),
    .execute 0 (.ok [handleRows 1, handleRows 3]), .take, .emit, .emit, .take, .emit]

/-- Not keeping the order, `Next` returns the first batch's rows in the order the reader returned them. -/
theorem twoBatches_batches : ∃ s, (LookUp.start false 1 2 twoChunks).run handleRows twoBatches = some s ∧
    s.out = [handleRows 1, handleRows 3, handleRows 2] ∧
    ∃ batches : List (List Int), batches.flatten <+: indexHandles twoChunks ∧
      ∃ rows : List (List Row), List.Forall₂ (fun batch rows => rows.Perm (batch.map handleRows)) batches rows ∧
        s.out <+: rows.flatten := by
  obtain ⟨s, ran⟩ : ∃ s, (LookUp.start false 1 2 twoChunks).run handleRows twoBatches = some s := ⟨_, rfl⟩
  exact ⟨s, ran, by cases ran; rfl, lookUp_returns_batches ran⟩

/--
Keeping the order, whatever the interleaving, `Next` returns the table's rows of the
index's handles in the order of the index, as far as it has returned rows: the table
workers' tasks may finish in any order and their readers return rows in any order.  The
rows carry their handles, and the index holds each handle once.
-/
theorem lookUp_returns_index_order (rowsOf : ∀ h, (table h).handle = h) (distinct : (indexHandles chunks).Nodup)
    (ran : (LookUp.start true initBatchSize maxBatchSize chunks).run table events = some s) :
    s.out <+: (indexHandles chunks).map table := by
  have inv := (LookUp.Inv.start table true initBatchSize maxBatchSize chunks).run ran
  have parts : ∀ i < s.received, LookUp.rowsAt s.tasks i = (s.tasks[i]?.map fun t => t.handles.map table).getD [] ∨
      i + 1 = s.received ∧ LookUp.rowsAt s.tasks i = [] := by
    intro i lt
    obtain ⟨t, found, -, failed⟩ := inv.taken i lt
    rw [LookUp.rowsAt_of_eq_some found, found]
    by_cases ok : t.doneCh = some none
    · exact .inl (inv.ordered rfl rowsOf distinct t (List.getElem?_mem found) ok)
    · exact .inr ⟨(failed ok).2, inv.empty t (List.getElem?_mem found) ok⟩
  have returned : s.out <+: (s.tasks.take s.received).flatMap fun t => t.handles.map table := by
    rw [← flatMap_range_getElem? _ inv.received_le]
    exact List.IsPrefix.trans ⟨_, rfl⟩ (inv.output ▸ flatMap_range_begins parts)
  refine returned.trans ((flatMap_take _ _ _).trans ?_)
  rw [← List.map_flatMap]
  exact inv.inIndex.map table

/-- Keeping the order, the same interleaving returns the rows in the order of the index. -/
theorem twoBatches_index_order : ∃ s, (LookUp.start true 1 2 twoChunks).run handleRows twoBatches = some s ∧
    s.out = [handleRows 3, handleRows 1, handleRows 2] ∧ s.out <+: (indexHandles twoChunks).map handleRows := by
  obtain ⟨s, ran⟩ : ∃ s, (LookUp.start true 1 2 twoChunks).run handleRows twoBatches = some s := ⟨_, rfl⟩
  exact ⟨s, ran, by cases ran; rfl, lookUp_returns_index_order (fun _ => rfl) (by decide) ran⟩

/--
Unless the workers' context was cancelled, once `getResultTask` finds `resultCh` closed and
empty, `Next` has returned the table's rows of every handle of the index, each batch's rows
in the order its reader returned them; when the executor keeps the order, the rows of the
index's handles in the order of the index.  The batch sizes start positive.
-/
theorem lookUp_returns_every_row (positive : 0 < initBatchSize) (positiveMax : 0 < maxBatchSize)
    (ran : (LookUp.start keepOrder initBatchSize maxBatchSize chunks).run table events = some s)
    (ended : s.ended) (running : s.cancelled = false) :
    s.out.Perm ((indexHandles chunks).map table) ∧
      (keepOrder = true → (∀ h, (table h).handle = h) → (indexHandles chunks).Nodup →
        s.out = (indexHandles chunks).map table) := by
  obtain ⟨ok, unclosed, exhausted, exited, drained⟩ := ended
  have inv := (LookUp.Inv.start table keepOrder initBatchSize maxBatchSize chunks).run ran
  have sized := LookUp.run_sized (by dsimp only [LookUp.start, IndexWorker.new]; split_ifs <;> omega) ran
  obtain ⟨sent, rest⟩ := inv.exited exited running unclosed
  rw [drained, List.length_nil, Nat.add_zero] at sent
  -- Every task was taken, so each was done, and without an error, as `Next` returned none.
  have done : ∀ t ∈ s.tasks, t.doneCh = some none := fun t mem => by
    obtain ⟨x, found⟩ := List.mem_iff_getElem?.mp mem
    obtain ⟨t', found', -, failed⟩ := inv.taken x (sent ▸ (List.getElem?_eq_some_iff.mp found).1)
    rw [found] at found'
    cases found'
    by_contra notOk
    exact (failed notOk).1 ok
  have handles : s.tasks.flatMap (·.handles) = indexHandles chunks := by
    rcases rest with ⟨x, t, err, found, failed⟩ | all | zero
    · cases failed.symm.trans (done t (List.getElem?_mem found))
    · exact all
    · omega
  have out : s.out = s.tasks.flatMap (·.rows) := by
    have output := inv.output
    rw [LookUp.unread_of_hasRows exhausted, List.append_nil, sent] at output
    rw [output]
    conv_rhs => rw [← List.take_length s.tasks]
    exact flatMap_range_getElem? (·.rows) (le_refl s.tasks.length)
  have rows : (indexHandles chunks).map table = s.tasks.flatMap fun t => t.handles.map table := by
    rw [← handles, List.map_flatMap]
  rw [out, rows]
  exact ⟨List.Perm.flatMap_left _ fun t mem => inv.perm t mem (done t mem),
    fun kept rowsOf distinct => List.flatMap_congr fun t mem => inv.ordered kept rowsOf distinct t mem (done t mem)⟩

/-- The same interleaving, then the index worker finding the index read: `Next` has returned every row, in order. -/
theorem twoBatches_every_row :
    ∃ s, (LookUp.start true 1 2 twoChunks).run handleRows (twoBatches ++ [Event.fetch]) = some s ∧ s.ended ∧
      s.out = (indexHandles twoChunks).map handleRows := by
  obtain ⟨s, ran⟩ : ∃ s, (LookUp.start true 1 2 twoChunks).run handleRows (twoBatches ++ [Event.fetch]) = some s :=
    ⟨_, rfl⟩
  have ended : s.ended := by cases ran; exact ⟨rfl, rfl, rfl, rfl, rfl⟩
  exact ⟨s, ran, ended,
    (lookUp_returns_every_row (by decide) (by decide) ran ended (by cases ran; rfl)).2 rfl (fun _ => rfl) (by decide)⟩

end TinyKVRaft.Executor
