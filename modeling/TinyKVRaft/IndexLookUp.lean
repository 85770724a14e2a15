import Mathlib.Data.List.Sort
import Mathlib.Data.List.Range

namespace TinyKVRaft.Executor

/-!
# The double read of `IndexLookUpExecutor`

`IndexLookUpExecutor` of tinysql's `executor/distsql.go` reads an index, then the table
rows of the handles the index holds, on three kinds of goroutine.  The index worker
(`fetchHandles`) cuts the index's handles into batches, `batchSize` doubling up to
`maxBatchSize`, and sends each batch as a `lookupTableTask` on `workCh` and then on
`resultCh`.  Table workers take the tasks from `workCh` and finish them in any order: each
reads the rows of its task's handles and, when the executor keeps the order, sorts them
back into the order of the index (`rowIdx`, `sort.Sort`).  `Next` takes the tasks from
`resultCh` in the order they were sent, waits on each one's `doneCh`, and returns its rows.

The executor is a state machine here: `LookUp` holds where the index worker is in
`fetchHandles`, the two channels as queues of task ids, the tasks the table workers hold,
and the reader's `resultCurr`; `LookUp.step` is one step of one goroutine, so a run is any
interleaving of them.  What the code calls and src/ does not hold is the environment: the
index request (`distsql.Select`), read as the chunks its `Next` returns; the table reader
built from a task's handles, whose reply a step takes as its argument; and Go's
`sort.Sort`, an insertion sort here on the same key (a permutation sorted by `rowIdx` is
all the proofs use of it).  Channels are unbounded queues: a capacity only blocks a
sender, so every run of the code is a run of the model.
-/

/-- A row of the table, as `executeTask` reads it: the handle in column `handleIdx`, and the rest. -/
structure Row where
  handle : Int
  values : List Int := []
  deriving Repr, DecidableEq

/--
A chunk that `Next` of the index request returns before the request is drained: the
handles (the last column of the index rows), at least one, or an error.  Once drained,
`Next` returns no rows.
-/
inductive IndexChunk where
  | rows (first : Int) (rest : List Int)
  | error (err : Nat)
  deriving Repr, DecidableEq

/-- The handles the index request returns before it is drained or fails. -/
def indexHandles : List IndexChunk → List Int
  | [] => []
  | .rows first rest :: chunks => first :: rest ++ indexHandles chunks
  | .error _ :: _ => []

/-- Why `extractTaskHandles` returned. -/
inductive Stop where
  /-- The batch holds `batchSize` handles. -/
  | full
  /-- `Next` returned no rows: the index is read. -/
  | drained
  /-- `Next` failed. -/
  | failed (err : Nat)
  deriving Repr, DecidableEq

/-- The handles of the index a batch that stopped so leaves to later batches. -/
def Stop.rest : Stop → List IndexChunk → List Int
  | .failed _, _ => []
  | _, chunks => indexHandles chunks

/-! ## The index worker -/

/-- `indexWorker`, with the fields `fetchHandles` reads. -/
structure IndexWorker where
  keepOrder : Bool
  batchSize : Nat
  maxBatchSize : Nat
  deriving Repr, DecidableEq

/--
The loop of `extractTaskHandles`: the chunks `Next` returns go onto `handles` while it
holds fewer than `batchSize`, each whole.
-/
def extractLoop (batchSize : Nat) (handles : List Int) : List IndexChunk → List Int × Stop × List IndexChunk
  | [] => (handles, if handles.length < batchSize then .drained else .full, [])
  | chunk :: chunks =>
    if handles.length < batchSize then
      match chunk with
      | .rows first rest => extractLoop batchSize (handles ++ first :: rest) chunks
      | .error err => (handles, .failed err, chunks)
    else (handles, .full, chunk :: chunks)

/-- A batch takes the handles of the index in order: what it holds and what it leaves are the handles it was given. -/
theorem extractLoop_handles (batchSize : Nat) :
    ∀ (handles : List Int) (chunks : List IndexChunk),
      handles ++ indexHandles chunks =
        (extractLoop batchSize handles chunks).1 ++
          (extractLoop batchSize handles chunks).2.1.rest (extractLoop batchSize handles chunks).2.2
  | handles, [] => by
    unfold extractLoop
    split_ifs <;> rfl
  | handles, chunk :: chunks => by
    unfold extractLoop
    split_ifs
    · cases chunk with
      | rows first rest =>
        rw [← extractLoop_handles batchSize _ chunks, indexHandles, List.append_assoc]
      | error err => simp [indexHandles, Stop.rest]
    · rfl

/-- The loop only adds to the handles it was given. -/
theorem extractLoop_grows (batchSize : Nat) :
    ∀ (handles : List Int) (chunks : List IndexChunk), handles <+: (extractLoop batchSize handles chunks).1
  | handles, [] => List.prefix_refl handles
  | handles, chunk :: chunks => by
    unfold extractLoop
    split_ifs
    · cases chunk with
      | rows first rest => exact (List.prefix_append _ _).trans (extractLoop_grows batchSize _ chunks)
      | error err => exact List.prefix_refl handles
    · exact List.prefix_refl handles

/-- A batch comes back empty only when the index is read, when `batchSize` is zero, or when `Next` failed. -/
theorem extractLoop_empty {batchSize : Nat} {chunks rest : List IndexChunk} {stop : Stop}
    (extracted : extractLoop batchSize [] chunks = ([], stop, rest)) :
    indexHandles chunks = [] ∨ batchSize = 0 ∨ ∃ err, stop = .failed err := by
  cases chunks with
  | nil => exact .inl rfl
  | cons chunk chunks =>
    unfold extractLoop at extracted
    split_ifs at extracted with room
    · cases chunk with
      | rows first rest' =>
        have grown := extractLoop_grows batchSize ([] ++ first :: rest') chunks
        dsimp only at extracted
        rw [extracted] at grown
        exact absurd (List.prefix_nil.mp grown) (List.cons_ne_nil first rest')
      | error err =>
        cases extracted
        exact .inr (.inr ⟨err, rfl⟩)
    · exact .inr (.inl (Nat.eq_zero_of_not_pos room))

namespace IndexWorker

/-- `startIndexWorker`: the worker starts from `initBatchSize`, cut down to `maxBatchSize`. -/
def new (keepOrder : Bool) (initBatchSize maxBatchSize : Nat) : IndexWorker :=
  { keepOrder, batchSize := if initBatchSize > maxBatchSize then maxBatchSize else initBatchSize, maxBatchSize }

/--
`extractTaskHandles`: a batch of handles, why it stopped, the worker (its `batchSize`
doubled after a full batch, cut down to `maxBatchSize`), and what the index request has
left.  The keys it counts are the batch's handles, which the caller adds up and drops.
-/
def extractTaskHandles (w : IndexWorker) (chunks : List IndexChunk) :
    List Int × Stop × IndexWorker × List IndexChunk :=
  match extractLoop w.batchSize [] chunks with
  | (handles, .full, chunks) =>
    let batchSize := w.batchSize * 2
    (handles, .full, { w with batchSize := if batchSize > w.maxBatchSize then w.maxBatchSize else batchSize }, chunks)
  | (handles, stop, chunks) => (handles, stop, w, chunks)

/-- What `extractTaskHandles` may do to the worker: keep it, or double its batch size up to `maxBatchSize`. -/
def Resized (w w' : IndexWorker) : Prop :=
  w'.keepOrder = w.keepOrder ∧ w'.maxBatchSize = w.maxBatchSize ∧
    (w'.batchSize = w.batchSize ∨
      w'.batchSize = if w.batchSize * 2 > w.maxBatchSize then w.maxBatchSize else w.batchSize * 2)

theorem Resized.refl (w : IndexWorker) : w.Resized w :=
  ⟨rfl, rfl, .inl rfl⟩

/-- A batch size of zero stays zero. -/
theorem Resized.zero {w w' : IndexWorker} (resized : w.Resized w') (zero : w.batchSize = 0) : w'.batchSize = 0 := by
  rcases resized.2.2 with same | doubled
  · omega
  · rw [doubled]
    split_ifs <;> omega

/-- Positive batch sizes stay positive. -/
theorem Resized.positive {w w' : IndexWorker} (resized : w.Resized w')
    (positive : 0 < w.batchSize ∧ 0 < w.maxBatchSize) : 0 < w'.batchSize ∧ 0 < w'.maxBatchSize := by
  refine ⟨?_, resized.2.1 ▸ positive.2⟩
  rcases resized.2.2 with same | doubled
  · omega
  · rw [doubled]
    split_ifs <;> omega

/-- `extractTaskHandles` is its loop, with the worker's batch size moved on after a full batch. -/
theorem extractTaskHandles_eq (w : IndexWorker) (chunks : List IndexChunk) :
    ∃ w', w.Resized w' ∧
      w.extractTaskHandles chunks =
        ((extractLoop w.batchSize [] chunks).1, (extractLoop w.batchSize [] chunks).2.1, w',
          (extractLoop w.batchSize [] chunks).2.2) := by
  unfold extractTaskHandles
  split <;> rename_i extracted <;> rw [extracted] <;> refine ⟨_, ?_, rfl⟩
  exacts [⟨rfl, rfl, .inr rfl⟩, Resized.refl w]

end IndexWorker

/-! ## Tasks -/

/--
The loop of `buildTableTask` that saves the index order: each handle's position in
`handles`, counted from `i`, a repeated handle keeping its last.  A handle not in them
reads as what `indexOrder` held, Go's zero at first.
-/
def saveIndexOrder (indexOrder : Int → Nat) : Nat → List Int → Int → Nat
  | _, [] => indexOrder
  | i, h :: handles => saveIndexOrder (fun k => if k = h then i else indexOrder k) (i + 1) handles

/-- A handle not in the batch reads as it did before. -/
theorem saveIndexOrder_of_not_mem {k : Int} :
    ∀ {indexOrder : Int → Nat} {i : Nat} {handles : List Int}, k ∉ handles →
      saveIndexOrder indexOrder i handles k = indexOrder k
  | _, _, [], _ => rfl
  | _, _, h :: handles, absent => by
    rw [List.mem_cons, not_or] at absent
    rw [saveIndexOrder, saveIndexOrder_of_not_mem absent.2, if_neg absent.1]

/-- Of distinct handles, each reads as its position: `indexOrder` numbers the batch. -/
theorem saveIndexOrder_map :
    ∀ {indexOrder : Int → Nat} {i : Nat} {handles : List Int}, handles.Nodup →
      handles.map (saveIndexOrder indexOrder i handles) = List.range' i handles.length
  | _, _, [], _ => rfl
  | _, i, h :: handles, distinct => by
    rw [List.nodup_cons] at distinct
    rw [List.map_cons, saveIndexOrder, saveIndexOrder_of_not_mem distinct.1, if_pos rfl,
      saveIndexOrder_map distinct.2, List.length_cons, List.range'_succ]

/--
`lookupTableTask`: the handles, their index order when the order is kept, the rows a table
worker read for them, the reader's cursor, and what `doneCh` holds: nothing yet, or the
task's error, `none` for nil.
-/
structure LookupTableTask where
  handles : List Int
  indexOrder : Int → Nat := fun _ => 0
  rows : List Row := []
  cursor : Nat := 0
  doneCh : Option (Option Nat) := none

/-- `buildTableTask`: the task of a batch, which saves the index order if the order is kept. -/
def IndexWorker.buildTableTask (w : IndexWorker) (handles : List Int) : LookupTableTask :=
  { handles, indexOrder := if w.keepOrder then saveIndexOrder (fun _ => 0) 0 handles else fun _ => 0 }

/-- The task `fetchHandles` sends on `resultCh` alone when `Next` of the index fails: its `doneCh` already holds the error. -/
def failedTask (err : Nat) : LookupTableTask :=
  { handles := [], doneCh := some (some err) }

/-- What the table reader may return for a task: the table's rows of its handles, in any order, or an error. -/
def Replies (table : Int → Row) (handles : List Int) : Except Nat (List Row) → Prop
  | .ok rows => rows.Perm (handles.map table)
  | .error _ => True

instance (table : Int → Row) (handles : List Int) : (reply : Except Nat (List Row)) →
    Decidable (Replies table handles reply)
  | .ok rows => inferInstanceAs (Decidable (rows.Perm (handles.map table)))
  | .error _ => isTrue trivial

/--
`executeTask` and the send on `doneCh` of `pickAndExecTask`, given what the table reader
returned: the rows, sorted back into the index order when the order is kept, or the error
(the consumer reads no rows of a failed task).
-/
def LookupTableTask.executeTask (keepOrder : Bool) (task : LookupTableTask) :
    Except Nat (List Row) → LookupTableTask
  | .ok rows =>
    { task with
      rows := if keepOrder then rows.insertionSort (fun r r' => task.indexOrder r.handle ≤ task.indexOrder r'.handle) else rows
      doneCh := some none }
  | .error err => { task with doneCh := some (some err) }

section Sorted

variable {α : Type} {key : α → Nat}

/-- Two orders of one list, both sorted by a key that tells its elements apart, are the same. -/
theorem eq_of_perm_of_sorted_key : ∀ {l l' : List α}, (∀ a ∈ l, ∀ b ∈ l, key a = key b → a = b) → l.Perm l' →
    l.Sorted (fun a b => key a ≤ key b) → l'.Sorted (fun a b => key a ≤ key b) → l = l'
  | [], _, _, same, _, _ => same.nil_eq
  | _ :: _, [], _, same, _, _ => (List.cons_ne_nil _ _ same.symm.nil_eq.symm).elim
  | a :: l, b :: l', distinct, same, sorted, sorted' => by
    have b_mem : b ∈ a :: l := same.symm.subset (List.mem_cons_self b l')
    have a_mem : a ∈ b :: l' := same.subset (List.mem_cons_self a l)
    have le : key a ≤ key b := by
      rcases List.mem_cons.mp b_mem with rfl | later
      · exact le_rfl
      · exact List.rel_of_sorted_cons sorted b later
    have ge : key b ≤ key a := by
      rcases List.mem_cons.mp a_mem with rfl | later
      · exact le_rfl
      · exact List.rel_of_sorted_cons sorted' a later
    obtain rfl := distinct a (List.mem_cons_self a l) b b_mem (le_antisymm le ge)
    rw [eq_of_perm_of_sorted_key (fun x x_mem y y_mem => distinct x (List.mem_cons_of_mem a x_mem) y
      (List.mem_cons_of_mem a y_mem)) (List.perm_cons a |>.mp same) sorted.of_cons sorted'.of_cons]

end Sorted

/--
Keeping the order works: of distinct handles, whose rows carry them, the rows the table
reader returned in any order come out of `executeTask` in the order of the handles.
-/
theorem executeTask_keepOrder {table : Int → Row} {task : LookupTableTask} {rows : List Row}
    (rowsOf : ∀ h, (table h).handle = h) (saved : task.indexOrder = saveIndexOrder (fun _ => 0) 0 task.handles)
    (distinct : task.handles.Nodup) (replied : rows.Perm (task.handles.map table)) :
    (task.executeTask true (.ok rows)).rows = task.handles.map table := by
  set key := fun r : Row => task.indexOrder r.handle
  have total : IsTotal Row (fun r r' => key r ≤ key r') := ⟨fun _ _ => le_total _ _⟩
  have trans : IsTrans Row (fun r r' => key r ≤ key r') := ⟨fun _ _ _ => le_trans⟩
  have keys : (task.handles.map table).map key = List.range task.handles.length := by
    rw [List.map_map, List.range_eq_range', ← @saveIndexOrder_map (fun _ => 0) 0 task.handles distinct]
    exact List.map_congr_left fun h _ => by simp only [Function.comp, key, rowsOf, saved]
  have sortedRows : (task.handles.map table).Sorted (fun r r' => key r ≤ key r') := by
    have ranged := List.sorted_le_range task.handles.length
    rw [← keys, List.Sorted, List.pairwise_map] at ranged
    exact ranged
  have distinctKeys : ∀ r ∈ task.handles.map table, ∀ r' ∈ task.handles.map table, key r = key r' → r = r' :=
    fun r mem r' mem' same => List.inj_on_of_nodup_map (keys ▸ List.nodup_range task.handles.length) mem mem' same
  exact (eq_of_perm_of_sorted_key distinctKeys ((List.perm_insertionSort _ rows).trans replied).symm
    sortedRows (List.sorted_insertionSort _ rows)).symm

/-- Whatever the order, the rows of a task executed without an error are the table's rows of its handles. -/
theorem executeTask_perm {table : Int → Row} {task : LookupTableTask} {rows : List Row} (keepOrder : Bool)
    (replied : rows.Perm (task.handles.map table)) :
    ((task.executeTask keepOrder (.ok rows)).rows).Perm (task.handles.map table) := by
  unfold LookupTableTask.executeTask
  split_ifs
  · exact (List.perm_insertionSort _ rows).trans replied
  · exact replied

/-! ## The executor and its goroutines -/

/-- Where the index worker's goroutine is in `fetchHandles`. -/
inductive IndexPhase where
  /-- At the top of the loop, about to extract a batch. -/
  | fetching
  /-- At the `select`, with task `id` built. -/
  | selecting (id : Nat)
  /-- Past `workCh <- task`, about to send task `id` on `resultCh`. -/
  | publishing (id : Nat)
  /-- `fetchHandles` returned, and the goroutine closed `workCh` and `resultCh`. -/
  | exited
  deriving Repr, DecidableEq

/--
`IndexLookUpExecutor` once `startWorkers` ran: the index worker and what the index request
has left, the tasks built so far (a task's id is its place in the list), the two channels,
the tasks the table workers took from `workCh`, and the reader's side of `Next`.
`received` (the tasks `getResultTask` took from `resultCh`) and `out` (every row `Next`
returned) are ghost.  `err` is the error `Next` returned; its caller then stops calling it,
as after `Close`.
-/
structure LookUp where
  worker : IndexWorker
  chunks : List IndexChunk
  phase : IndexPhase := .fetching
  tasks : List LookupTableTask := []
  workCh : List Nat := []
  resultCh : List Nat := []
  executing : List Nat := []
  resultCurr : Option Nat := none
  received : Nat := 0
  out : List Row := []
  err : Option Nat := none
  /-- The workers' context is done. -/
  cancelled : Bool := false
  /-- `Close` closed `finished`. -/
  finished : Bool := false

/-- One step of one goroutine. -/
inductive Event where
  /-- The index worker extracts a batch and builds its task, or returns. -/
  | fetch
  /-- The index worker's `select` sends the task on `workCh`. -/
  | send
  /-- The index worker's `select` finds the context done or `finished` closed, and returns. -/
  | stop
  /-- The index worker sends the task on `resultCh`. -/
  | publish
  /-- A table worker receives a task from `workCh`. -/
  | pick
  /-- A table worker finishes task `id`, with what the table reader returned. -/
  | execute (id : Nat) (reply : Except Nat (List Row))
  /-- `getResultTask` receives a task from `resultCh`, then its result from `doneCh`. -/
  | take
  /-- `Next` returns the next row of `resultCurr`. -/
  | emit
  /-- The workers' context is cancelled. -/
  | cancel
  /-- `Close`. -/
  | close

namespace LookUp

/-- `startWorkers` on the first `Next`, over the chunks the index request will return. -/
def start (keepOrder : Bool) (initBatchSize maxBatchSize : Nat) (chunks : List IndexChunk) : LookUp :=
  { worker := IndexWorker.new keepOrder initBatchSize maxBatchSize, chunks }

/--
The loop of `fetchHandles` up to its `select`: a batch and its task; or, when `Next` of the
index failed, the failed task sent on `resultCh` and the return; or, with no handles left,
the return.
-/
def fetchBatch (s : LookUp) : LookUp :=
  match s.worker.extractTaskHandles s.chunks with
  | (_, .failed err, worker, chunks) =>
    { s with worker, chunks, phase := .exited, tasks := s.tasks ++ [failedTask err],
             resultCh := s.resultCh ++ [s.tasks.length] }
  | ([], _, worker, chunks) => { s with worker, chunks, phase := .exited }
  | (handles, _, worker, chunks) =>
    { s with worker, chunks, phase := .selecting s.tasks.length, tasks := s.tasks ++ [worker.buildTableTask handles] }

/--
What one round of `fetchHandles` does: builds the task of a batch taken from the index's
handles in order; or returns, having sent the failed task when `Next` of the index failed.
-/
theorem fetchBatch_cases (s : LookUp) : ∃ worker rest, s.worker.Resized worker ∧
    ((∃ err, s.fetchBatch =
        { s with worker, chunks := rest, phase := .exited, tasks := s.tasks ++ [failedTask err],
                 resultCh := s.resultCh ++ [s.tasks.length] }) ∨
      (indexHandles s.chunks = [] ∨ worker.batchSize = 0) ∧
        s.fetchBatch = { s with worker, chunks := rest, phase := .exited } ∨
      ∃ handles, indexHandles s.chunks = handles ++ indexHandles rest ∧
        s.fetchBatch =
          { s with worker, chunks := rest, phase := .selecting s.tasks.length,
                   tasks := s.tasks ++ [worker.buildTableTask handles] }) := by
  obtain ⟨worker, resized, extracted⟩ := s.worker.extractTaskHandles_eq s.chunks
  have split := extractLoop_handles s.worker.batchSize [] s.chunks
  generalize batched : extractLoop s.worker.batchSize [] s.chunks = batch at extracted split
  obtain ⟨handles, stop, rest⟩ := batch
  refine ⟨worker, rest, resized, ?_⟩
  unfold fetchBatch
  rw [extracted]
  cases stop with
  | failed err => exact .inl ⟨err, by cases handles <;> rfl⟩
  | full | drained =>
    cases handles with
    | nil =>
      -- With no handles and no failure, the index is read or the batch size is zero.
      obtain read | zero | ⟨_, failed⟩ := extractLoop_empty batched
      exacts [.inr (.inl ⟨.inl read, rfl⟩), .inr (.inl ⟨.inr (resized.zero zero), rfl⟩), nomatch failed]
    | cons h hs => exact .inr (.inr ⟨_, split, rfl⟩)

/-- A round of `fetchHandles` keeps the worker or resizes its batch. -/
theorem fetchBatch_resized (s : LookUp) : s.worker.Resized s.fetchBatch.worker := by
  obtain ⟨worker, rest, resized, ⟨err, fetched⟩ | ⟨-, fetched⟩ | ⟨handles, -, fetched⟩⟩ := fetchBatch_cases s <;>
    rw [fetched] <;> exact resized

/-- The test `getResultTask` makes first: `resultCurr` has rows left to return. -/
def hasRows (s : LookUp) : Bool :=
  match s.resultCurr.bind (s.tasks[·]?) with
  | some task => decide (task.cursor < task.rows.length)
  | none => false

/-- One step of the goroutine the event names, if it can take it. -/
def step (table : Int → Row) (s : LookUp) : Event → Option LookUp
  | .fetch => if s.phase = .fetching then some s.fetchBatch else none
  | .send =>
    match s.phase with
    | .selecting id => some { s with phase := .publishing id, workCh := s.workCh ++ [id] }
    | _ => none
  | .stop =>
    match s.phase with
    | .selecting _ => if s.cancelled || s.finished then some { s with phase := .exited } else none
    | _ => none
  | .publish =>
    match s.phase with
    | .publishing id => some { s with phase := .fetching, resultCh := s.resultCh ++ [id] }
    | _ => none
  | .pick =>
    match s.workCh with
    | id :: rest => some { s with workCh := rest, executing := s.executing ++ [id] }
    | [] => none
  | .execute id reply =>
    match s.tasks[id]? with
    | some task =>
      if id ∈ s.executing ∧ Replies table task.handles reply then
        some { s with executing := s.executing.erase id,
                      tasks := s.tasks.set id (task.executeTask s.worker.keepOrder reply) }
      else none
    | none => none
  | .take =>
    if s.err = none ∧ s.finished = false ∧ s.hasRows = false then
      match s.resultCh with
      | id :: rest =>
        match s.tasks[id]?.bind (·.doneCh) with
        | some none => some { s with resultCh := rest, received := s.received + 1, resultCurr := some id }
        | some (some err) => some { s with resultCh := rest, received := s.received + 1, err := some err }
        | none => none
      | [] => none
    else none
  | .emit =>
    if s.err = none ∧ s.finished = false then
      match s.resultCurr with
      | some id =>
        match s.tasks[id]? with
        | some task =>
          match task.rows[task.cursor]? with
          | some row => some { s with out := s.out ++ [row], tasks := s.tasks.set id { task with cursor := task.cursor + 1 } }
          | none => none
        | none => none
      | none => none
    else none
  | .cancel => some { s with cancelled := true }
  | .close => some { s with finished := true }

/--
`getResultTask` returning no task, so that `Next` returns no rows: `resultCurr` has no rows
left, and `resultCh` is empty and closed, the index worker having returned.
-/
def ended (s : LookUp) : Prop :=
  s.err = none ∧ s.finished = false ∧ s.hasRows = false ∧ s.phase = .exited ∧ s.resultCh = []

instance : DecidablePred ended := fun s =>
  inferInstanceAs (Decidable (s.err = none ∧ s.finished = false ∧ s.hasRows = false ∧ s.phase = .exited ∧ s.resultCh = []))

/-- The state a run of events reaches, if each of its steps can be taken. -/
def run (table : Int → Row) : LookUp → List Event → Option LookUp
  | s, [] => some s
  | s, e :: events => (s.step table e).bind fun s' => run table s' events

end LookUp

end TinyKVRaft.Executor
