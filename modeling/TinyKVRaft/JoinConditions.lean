import TinyKVRaft.PlanExpression

namespace TinyKVRaft.Planner

/-!
# The conditions of a join

`buildJoin` of tinysql's `planner/core/logical_plan_builder.go` builds the `LogicalJoin` of
two plans, and `attachOnConds` files the items of its `ON` condition into the join's four
lists, by `ExtractOnCondition`: equalities of a column of each side (the join keys),
conditions on the left side's columns only, on the right side's only, and the rest.  A
condition without columns goes where `pushDownConstExpr` sends it for the join's type.  When
asked to (`deriveLeft`, `deriveRight`), `ExtractOnCondition` also derives conditions a child
can filter on: `NOT NULL` of a join key where the condition rejects nulls, and the relaxed
filter of `DeriveRelaxedFiltersFromDNF`.

Two things make the filing right, and both are proved for every list of conditions.  The
conditions of the four lists hold together exactly where the conditions given do
(`extractOnCondition_preserves`), so the join matches the same rows; and each list reads only
the columns its place allows (`extractOnCondition_placed`), so a child can evaluate its own.
`buildJoin_on_meaning` puts them together for the join `buildJoin` returns, which files its
`ON` condition without derivations.

The two derivations belong to the `expression` package, which src/ does not hold; they are
parameters here, and the theorems assume of them what the code relies on.
-/

/-- `JoinType`. -/
inductive JoinType where
  | innerJoin
  | leftOuterJoin
  | rightOuterJoin
  deriving Repr, DecidableEq

/-- A logical join: what `buildJoin` and the join's conditions code read and write. -/
structure LogicalJoin where
  joinType : JoinType := .innerJoin
  cartesianJoin : Bool := false
  /-- The schema of `children[0]`. -/
  leftSchema : Schema
  /-- The schema of `children[1]`. -/
  rightSchema : Schema
  schema : Schema
  equalConditions : List Expression := []
  leftConditions : List Expression := []
  rightConditions : List Expression := []
  otherConditions : List Expression := []
  deriving Repr

/-- The four lists `ExtractOnCondition` returns. -/
structure OnConditions where
  eqCond : List Expression := []
  leftCond : List Expression := []
  rightCond : List Expression := []
  otherCond : List Expression := []
  deriving Repr

/-- The conditions of the four lists. -/
def OnConditions.conditions (conds : OnConditions) : List Expression :=
  conds.eqCond ++ conds.leftCond ++ conds.rightCond ++ conds.otherCond

/-- The join's four lists of conditions. -/
def LogicalJoin.onConditions (p : LogicalJoin) : OnConditions :=
  ⟨p.equalConditions, p.leftConditions, p.rightConditions, p.otherConditions⟩

/-! ## The code -/

section Code

-- `isNullRejected`: whether a condition is never true where the schema's columns are `NULL`;
-- `expression.DeriveRelaxedFiltersFromDNF`: a weaker condition on the schema's columns.
variable (isNullRejected : Schema → Expression → Bool)
variable (deriveRelaxedFiltersFromDNF : Expression → Schema → Option Expression)

/--
`pushDownConstExpr`: where a condition without columns goes.  A filter (`filterCond`) goes to
both children; on an outer join the outer side's copy is put on the join itself, as one of the
inner side's conditions.  A join condition goes to the inner side of an outer join, and to
both sides of an inner join.
-/
def LogicalJoin.pushDownConstExpr (p : LogicalJoin) (expr : Expression) (leftCond rightCond : List Expression)
    (filterCond : Bool) : LogicalJoin × List Expression × List Expression :=
  match p.joinType with
  | .leftOuterJoin =>
    if filterCond then ({ p with rightConditions := p.rightConditions ++ [expr] }, leftCond ++ [expr], rightCond)
    else (p, leftCond, rightCond ++ [expr])
  | .rightOuterJoin =>
    if filterCond then ({ p with leftConditions := p.leftConditions ++ [expr] }, leftCond, rightCond ++ [expr])
    else (p, leftCond ++ [expr], rightCond)
  | .innerJoin => (p, leftCond ++ [expr], rightCond ++ [expr])

/-- The name and the two columns of a function of two columns, as `ExtractOnCondition` tests for one. -/
def binaryColumns : Expression → Option (String × Column × Column)
  | .scalarFunction funcName [.column arg0, .column arg1] => some (funcName, arg0, arg1)
  | _ => none

/--
The columns of the two schemas that two columns are, the left one first, and the two columns in
that order: `RetrieveColumn` of `ExtractOnCondition`, trying the columns the other way round
when they are not the left's and the right's.
-/
def retrieveSides (leftSchema rightSchema : Schema) (arg0 arg1 : Column) :
    Option ((Column × Column) × Column × Column) :=
  match leftSchema.retrieveColumn arg0, rightSchema.retrieveColumn arg1 with
  | some leftCol, some rightCol => some ((leftCol, rightCol), arg0, arg1)
  | _, _ =>
    match leftSchema.retrieveColumn arg1, rightSchema.retrieveColumn arg0 with
    | some leftCol, some rightCol => some ((leftCol, rightCol), arg1, arg0)
    | _, _ => none

/-- The `NOT NULL` of a join key that `ExtractOnCondition` derives for one side. -/
def deriveNotNull (derive : Bool) (schema : Schema) (expr : Expression) (col : Column) : List Expression :=
  if derive && isNullRejected schema expr && !col.notNull then [buildNotNullExpr col] else []

/-- The relaxed filter that `ExtractOnCondition` derives for one side. -/
def deriveRelaxed (derive : Bool) (schema : Schema) (expr : Expression) : List Expression :=
  if derive then (deriveRelaxedFiltersFromDNF expr schema).toList else []

/--
The rest of the loop body of `ExtractOnCondition`, after the test for an equality of a column
of each side: a condition goes by the columns it reads.
-/
def LogicalJoin.placeCondition (deriveLeft deriveRight : Bool) (leftSchema rightSchema : Schema)
    (p : LogicalJoin) (conds : OnConditions) (expr : Expression) : LogicalJoin × OnConditions :=
  let columns := expr.extractColumns
  if columns.isEmpty then
    let (p, leftCond, rightCond) :=
      p.pushDownConstExpr expr conds.leftCond conds.rightCond (deriveLeft || deriveRight)
    (p, { conds with leftCond, rightCond })
  else if columns.all rightSchema.contains then (p, { conds with rightCond := conds.rightCond ++ [expr] })
  else if columns.all leftSchema.contains then (p, { conds with leftCond := conds.leftCond ++ [expr] })
  else
    (p, { conds with
      leftCond := conds.leftCond ++ deriveRelaxed deriveRelaxedFiltersFromDNF deriveLeft leftSchema expr
      rightCond := conds.rightCond ++ deriveRelaxed deriveRelaxedFiltersFromDNF deriveRight rightSchema expr
      otherCond := conds.otherCond ++ [expr] })

/-- One turn of the loop of `ExtractOnCondition`, on the condition `expr`. -/
def LogicalJoin.extractCondition (deriveLeft deriveRight : Bool) (leftSchema rightSchema : Schema)
    (state : LogicalJoin × OnConditions) (expr : Expression) : LogicalJoin × OnConditions :=
  let place := fun (conds : OnConditions) =>
    state.1.placeCondition deriveRelaxedFiltersFromDNF deriveLeft deriveRight leftSchema rightSchema conds expr
  match binaryColumns expr with
  | some (funcName, arg0, arg1) =>
    match retrieveSides leftSchema rightSchema arg0 arg1 with
    | some ((leftCol, rightCol), arg0, arg1) =>
      let conds := { state.2 with
        leftCond := state.2.leftCond ++ deriveNotNull isNullRejected deriveLeft leftSchema expr leftCol
        rightCond := state.2.rightCond ++ deriveNotNull isNullRejected deriveRight rightSchema expr rightCol }
      if funcName = "eq" then (state.1, { conds with eqCond := conds.eqCond ++ [eqCondition arg0 arg1] })
      else place conds
    | none => place state.2
  | none => place state.2

/--
`ExtractOnCondition`: the four lists of the conditions, and the join, which gets the outer
side's copies of the filters without columns.  (`extractOnCondition` calls it with the
schemas of the join's children.)
-/
def LogicalJoin.extractOnCondition (p : LogicalJoin) (conditions : List Expression) (leftSchema rightSchema : Schema)
    (deriveLeft deriveRight : Bool) : LogicalJoin × OnConditions :=
  conditions.foldl
    (LogicalJoin.extractCondition isNullRejected deriveRelaxedFiltersFromDNF deriveLeft deriveRight leftSchema rightSchema)
    (p, {})

/-- `attachOnConds`: the join with the filed items of its `ON` condition before its conditions. -/
def LogicalJoin.attachOnConds (p : LogicalJoin) (onConds : List Expression) : LogicalJoin :=
  let (p, conds) :=
    p.extractOnCondition isNullRejected deriveRelaxedFiltersFromDNF onConds p.leftSchema p.rightSchema false false
  { p with
    equalConditions := conds.eqCond ++ p.equalConditions
    leftConditions := conds.leftCond ++ p.leftConditions
    rightConditions := conds.rightCond ++ p.rightConditions
    otherConditions := conds.otherCond ++ p.otherConditions }

/-- `resetNotNullFlag`: the columns from `start` to before `«end»` lose their `NotNullFlag`. -/
def resetNotNullFlag (schema : Schema) (start «end» : Nat) : Schema :=
  ⟨schema.columns.mapIdx fun i col => if start ≤ i ∧ i < «end» then { col with notNull := false } else col⟩

/-- The join of the parser's `ast.Join`. -/
inductive AstJoinType where
  | crossJoin
  | leftJoin
  | rightJoin
  deriving Repr, DecidableEq

/--
`buildJoin` of two built plans, given by their schemas, with the `ON` condition as `rewrite`
returns it (`onExpr`).  A left (right) join's right (left) columns may be `NULL` in the join's
schema.
-/
def buildJoin (leftSchema rightSchema : Schema) (tp : AstJoinType) (onExpr : Option Expression) : LogicalJoin :=
  let joinPlan : LogicalJoin := { leftSchema, rightSchema, schema := mergeSchema leftSchema rightSchema }
  let joinPlan : LogicalJoin :=
    match tp with
    | .leftJoin =>
      { joinPlan with
        joinType := .leftOuterJoin
        schema := resetNotNullFlag joinPlan.schema leftSchema.len joinPlan.schema.len }
    | .rightJoin =>
      { joinPlan with
        joinType := .rightOuterJoin
        schema := resetNotNullFlag joinPlan.schema 0 leftSchema.len }
    | .crossJoin => { joinPlan with joinType := .innerJoin }
  match onExpr with
  | some onExpr => joinPlan.attachOnConds isNullRejected deriveRelaxedFiltersFromDNF (splitCNFItems onExpr)
  | none => if joinPlan.joinType = .innerJoin then { joinPlan with cartesianJoin := true } else joinPlan

end Code

/-! ## Where the conditions go -/

/-- Whether a condition reads only columns of the schema. -/
def Schema.Covers (schema : Schema) (expr : Expression) : Prop :=
  ∀ col ∈ expr.extractColumns, schema.contains col = true

/--
Where `ExtractOnCondition` files conditions: an equality of a column of the left schema and one
of the right, and conditions on the columns of one schema.
-/
structure Placed (leftSchema rightSchema : Schema) (conds : OnConditions) : Prop where
  eqCond : ∀ e ∈ conds.eqCond,
    ∃ arg0 arg1, e = eqCondition arg0 arg1 ∧ leftSchema.contains arg0 = true ∧ rightSchema.contains arg1 = true
  leftCond : ∀ e ∈ conds.leftCond, leftSchema.Covers e
  rightCond : ∀ e ∈ conds.rightCond, rightSchema.Covers e

/-- The join without its left and right conditions. -/
def LogicalJoin.withoutSides (p : LogicalJoin) : LogicalJoin :=
  { p with leftConditions := [], rightConditions := [] }

/-- A join that `ExtractOnCondition` hands back: `p` with conditions without columns added to its
left and right lists. -/
structure Gains (p p' : LogicalJoin) : Prop where
  leftConditions : ∃ consts, p'.leftConditions = p.leftConditions ++ consts ∧ ∀ e ∈ consts, e.extractColumns = []
  rightConditions : ∃ consts, p'.rightConditions = p.rightConditions ++ consts ∧ ∀ e ∈ consts, e.extractColumns = []
  rest : p'.withoutSides = p.withoutSides

theorem Gains.refl (p : LogicalJoin) : Gains p p :=
  ⟨⟨[], (List.append_nil _).symm, nofun⟩, ⟨[], (List.append_nil _).symm, nofun⟩, rfl⟩

theorem Gains.trans {p p' p'' : LogicalJoin} (first : Gains p p') (second : Gains p' p'') : Gains p p'' := by
  obtain ⟨⟨left, leftEq, leftConst⟩, ⟨right, rightEq, rightConst⟩, rest⟩ := first
  obtain ⟨⟨left', leftEq', leftConst'⟩, ⟨right', rightEq', rightConst'⟩, rest'⟩ := second
  refine ⟨⟨left ++ left', ?_, ?_⟩, ⟨right ++ right', ?_, ?_⟩, rest'.trans rest⟩
  · rw [leftEq', leftEq, List.append_assoc]
  · exact List.forall_mem_append.mpr ⟨leftConst, leftConst'⟩
  · rw [rightEq', rightEq, List.append_assoc]
  · exact List.forall_mem_append.mpr ⟨rightConst, rightConst'⟩

theorem binaryColumns_eq_some {expr : Expression} {funcName : String} {arg0 arg1 : Column}
    (binary : binaryColumns expr = some (funcName, arg0, arg1)) :
    expr = .scalarFunction funcName [.column arg0, .column arg1] := by
  unfold binaryColumns at binary
  split at binary
  · cases binary; rfl
  · cases binary

/-- The two columns `retrieveSides` returns are the condition's, the left schema's one first. -/
theorem retrieveSides_spec {leftSchema rightSchema : Schema} {arg0 arg1 leftCol rightCol col0 col1 : Column}
    (retrieved : retrieveSides leftSchema rightSchema arg0 arg1 = some ((leftCol, rightCol), col0, col1)) :
    (col0 = arg0 ∧ col1 = arg1 ∨ col0 = arg1 ∧ col1 = arg0) ∧
      leftSchema.retrieveColumn col0 = some leftCol ∧ rightSchema.retrieveColumn col1 = some rightCol := by
  unfold retrieveSides at retrieved
  split at retrieved
  · cases retrieved
    exact ⟨.inl ⟨rfl, rfl⟩, by assumption, by assumption⟩
  · split at retrieved
    · cases retrieved
      exact ⟨.inr ⟨rfl, rfl⟩, by assumption, by assumption⟩
    · cases retrieved

section Filing

variable {isNullRejected : Schema → Expression → Bool}
variable {deriveRelaxedFiltersFromDNF : Expression → Schema → Option Expression}
variable {deriveLeft deriveRight : Bool} {leftSchema rightSchema : Schema}

/-- The join `pushDownConstExpr` returns gains at most the condition, which reads no column. -/
theorem gains_pushDownConstExpr {p : LogicalJoin} {expr : Expression} (constant : expr.extractColumns = [])
    (leftCond rightCond : List Expression) (filterCond : Bool) :
    Gains p (p.pushDownConstExpr expr leftCond rightCond filterCond).1 := by
  have added : ∀ e ∈ [expr], e.extractColumns = [] := List.forall_mem_singleton.mpr constant
  unfold LogicalJoin.pushDownConstExpr
  split <;> (try split) <;> first
    | exact Gains.refl p
    | exact ⟨⟨[], (List.append_nil _).symm, nofun⟩, ⟨[expr], rfl, added⟩, rfl⟩
    | exact ⟨⟨[expr], rfl, added⟩, ⟨[], (List.append_nil _).symm, nofun⟩, rfl⟩

theorem Placed.placeCondition
    (relaxedOn : ∀ expr schema relaxed, deriveRelaxedFiltersFromDNF expr schema = some relaxed → schema.Covers relaxed)
    {p : LogicalJoin} {conds : OnConditions} (placed : Placed leftSchema rightSchema conds) (expr : Expression) :
    let placedNext := p.placeCondition deriveRelaxedFiltersFromDNF deriveLeft deriveRight leftSchema rightSchema conds expr
    Gains p placedNext.1 ∧ Placed leftSchema rightSchema placedNext.2 := by
  have relaxed : ∀ derive schema, ∀ e ∈ deriveRelaxed deriveRelaxedFiltersFromDNF derive schema expr, schema.Covers e := by
    intro derive schema e mem
    unfold deriveRelaxed at mem
    split_ifs at mem
    · exact relaxedOn expr schema e (Option.mem_toList.mp mem)
    · cases mem
  have appended : ∀ (schema : Schema) (conds : List Expression), (∀ e ∈ conds, schema.Covers e) →
      schema.Covers expr → ∀ e ∈ conds ++ [expr], schema.Covers e := fun _ _ covered covers =>
    List.forall_mem_append.mpr ⟨covered, List.forall_mem_singleton.mpr covers⟩
  unfold LogicalJoin.placeCondition
  dsimp only
  split_ifs with constant right left
  · have none : expr.extractColumns = [] := List.isEmpty_iff.mp constant
    have covers : ∀ schema : Schema, schema.Covers expr := fun _ col mem => by rw [none] at mem; cases mem
    refine ⟨gains_pushDownConstExpr none _ _ _, ?_⟩
    unfold LogicalJoin.pushDownConstExpr
    split <;> (try split) <;>
      exact ⟨placed.eqCond,
        by first | exact appended _ _ placed.leftCond (covers _) | exact placed.leftCond,
        by first | exact appended _ _ placed.rightCond (covers _) | exact placed.rightCond⟩
  · refine ⟨Gains.refl p, placed.eqCond, placed.leftCond, List.forall_mem_append.mpr ⟨placed.rightCond, ?_⟩⟩
    exact List.forall_mem_singleton.mpr fun col mem => List.all_eq_true.mp right col mem
  · refine ⟨Gains.refl p, placed.eqCond, List.forall_mem_append.mpr ⟨placed.leftCond, ?_⟩, placed.rightCond⟩
    exact List.forall_mem_singleton.mpr fun col mem => List.all_eq_true.mp left col mem
  · exact ⟨Gains.refl p, placed.eqCond, List.forall_mem_append.mpr ⟨placed.leftCond, relaxed _ _⟩,
      List.forall_mem_append.mpr ⟨placed.rightCond, relaxed _ _⟩⟩

/-- One turn of the loop keeps the lists in their places, and the join gains only conditions without columns. -/
theorem Placed.extractCondition
    (relaxedOn : ∀ expr schema relaxed, deriveRelaxedFiltersFromDNF expr schema = some relaxed → schema.Covers relaxed)
    {state : LogicalJoin × OnConditions} (placed : Placed leftSchema rightSchema state.2) (expr : Expression) :
    let next := LogicalJoin.extractCondition isNullRejected deriveRelaxedFiltersFromDNF deriveLeft deriveRight
      leftSchema rightSchema state expr
    Gains state.1 next.1 ∧ Placed leftSchema rightSchema next.2 := by
  unfold LogicalJoin.extractCondition
  dsimp only
  rcases binary : binaryColumns expr with _ | ⟨funcName, arg0, arg1⟩
  · exact placed.placeCondition relaxedOn expr
  dsimp only
  rcases retrieved : retrieveSides leftSchema rightSchema arg0 arg1 with _ | ⟨⟨leftCol, rightCol⟩, col0, col1⟩
  · exact placed.placeCondition relaxedOn expr
  obtain ⟨-, left, right⟩ := retrieveSides_spec retrieved
  have notNull : ∀ {schema : Schema} {col found : Column} (derive : Bool), schema.retrieveColumn col = some found →
      ∀ e ∈ deriveNotNull isNullRejected derive schema expr found, schema.Covers e := by
    intro schema col found derive retrieved e mem
    unfold deriveNotNull at mem
    split_ifs at mem
    · obtain rfl := List.mem_singleton.mp mem
      intro col' mem'
      simp [buildNotNullExpr, Expression.extractColumns] at mem'
      rw [mem']
      exact Schema.contains_retrieved retrieved
    · cases mem
  have derived : Placed leftSchema rightSchema { state.2 with
      leftCond := state.2.leftCond ++ deriveNotNull isNullRejected deriveLeft leftSchema expr leftCol
      rightCond := state.2.rightCond ++ deriveNotNull isNullRejected deriveRight rightSchema expr rightCol } :=
    ⟨placed.eqCond, List.forall_mem_append.mpr ⟨placed.leftCond, notNull _ left⟩,
      List.forall_mem_append.mpr ⟨placed.rightCond, notNull _ right⟩⟩
  dsimp only
  split_ifs
  · refine ⟨Gains.refl _, List.forall_mem_append.mpr ⟨derived.eqCond, ?_⟩, derived.leftCond, derived.rightCond⟩
    exact List.forall_mem_singleton.mpr
      ⟨col0, col1, rfl, Schema.contains_of_retrieveColumn left, Schema.contains_of_retrieveColumn right⟩
  · exact derived.placeCondition relaxedOn expr

theorem Placed.foldl
    (relaxedOn : ∀ expr schema relaxed, deriveRelaxedFiltersFromDNF expr schema = some relaxed → schema.Covers relaxed) :
    ∀ (conditions : List Expression) {state : LogicalJoin × OnConditions}, Placed leftSchema rightSchema state.2 →
      let extracted := conditions.foldl (LogicalJoin.extractCondition isNullRejected deriveRelaxedFiltersFromDNF
        deriveLeft deriveRight leftSchema rightSchema) state
      Gains state.1 extracted.1 ∧ Placed leftSchema rightSchema extracted.2
  | [], _, placed => ⟨Gains.refl _, placed⟩
  | expr :: conditions, _, placed =>
    have ⟨gains, next⟩ := placed.extractCondition relaxedOn expr
    have ⟨gains', extracted⟩ := Placed.foldl relaxedOn conditions next
    ⟨gains.trans gains', extracted⟩

/--
`ExtractOnCondition` files every condition where a child can evaluate it: the equalities are of
a column of the left schema and one of the right, the left (right) conditions read only columns
of the left (right) schema, and the join it hands back is the one given with conditions that
read no column added to its left and right lists.  The relaxed filters are assumed to read only
the schema they are derived for.
-/
theorem extractOnCondition_placed
    (relaxedOn : ∀ expr schema relaxed, deriveRelaxedFiltersFromDNF expr schema = some relaxed → schema.Covers relaxed)
    (p : LogicalJoin) (conditions : List Expression) (leftSchema rightSchema : Schema) (deriveLeft deriveRight : Bool) :
    let extracted := p.extractOnCondition isNullRejected deriveRelaxedFiltersFromDNF conditions leftSchema rightSchema
      deriveLeft deriveRight
    Gains p extracted.1 ∧ Placed leftSchema rightSchema extracted.2 :=
  Placed.foldl relaxedOn conditions (show Placed leftSchema rightSchema ((p, {}) : LogicalJoin × OnConditions).2 from
    ⟨fun _ mem => (nomatch mem), fun _ mem => (nomatch mem), fun _ mem => (nomatch mem)⟩)

/-- Deriving no relaxed filter derives none that reads another schema. -/
theorem relaxedOn_none : ∀ (expr : Expression) (schema : Schema) (relaxed : Expression),
    (fun _ _ => none : Expression → Schema → Option Expression) expr schema = some relaxed → schema.Covers relaxed :=
  fun _ _ _ derived => nomatch derived

/-- Column 1, the left table's key. -/
def leftKey : Column := ⟨1, false⟩

/-- Column 2, the right table's key. -/
def rightKey : Column := ⟨2, false⟩

/-- Column 3, of the left table. -/
def leftValue : Column := ⟨3, false⟩

def leftTable : Schema := ⟨[leftKey, leftValue]⟩

def rightTable : Schema := ⟨[rightKey]⟩

/-- `rightKey = leftKey AND leftKey < 5 AND leftValue < rightKey`. -/
def onCondition : Expression :=
  .scalarFunction "and" [.scalarFunction "eq" [.column rightKey, .column leftKey],
    .scalarFunction "lt" [.column leftKey, .constant (some 5)], .scalarFunction "lt" [.column leftValue, .column rightKey]]

/-- The left outer join of the two tables, before its conditions are filed. -/
def leftOuter : LogicalJoin :=
  { joinType := .leftOuterJoin, leftSchema := leftTable, rightSchema := rightTable,
    schema := mergeSchema leftTable rightTable }

/--
Deriving for both sides, with a test that finds every condition null-rejecting: the equality
is rebuilt left key first, and each side gets the `NOT NULL` of its key, for the equality
and again for the `lt` of the two sides, which stays on the join.
-/
theorem leftOuter_files_on :
    let extracted := leftOuter.extractOnCondition (fun _ _ => true) (fun _ _ => none) (splitCNFItems onCondition)
      leftTable rightTable true true
    extracted.2 =
      { eqCond := [eqCondition leftKey rightKey]
        leftCond := [buildNotNullExpr leftKey, .scalarFunction "lt" [.column leftKey, .constant (some 5)],
          buildNotNullExpr leftValue]
        rightCond := [buildNotNullExpr rightKey, buildNotNullExpr rightKey]
        otherCond := [.scalarFunction "lt" [.column leftValue, .column rightKey]] } ∧
      Gains leftOuter extracted.1 ∧ Placed leftTable rightTable extracted.2 :=
  ⟨rfl, extractOnCondition_placed relaxedOn_none leftOuter (splitCNFItems onCondition) leftTable rightTable true true⟩

end Filing

/-! ## What the filed conditions mean -/

/--
What `ExtractOnCondition` relies on of the two derivations: a condition that rejects the nulls
of a schema holds only where the schema's columns it reads are not `NULL`, and a relaxed filter
holds wherever the condition it is derived from does.
-/
structure SoundDerivations {ρ : Type} (holds : Expression → ρ → Bool) (isNullRejected : Schema → Expression → Bool)
    (deriveRelaxedFiltersFromDNF : Expression → Schema → Option Expression) : Prop where
  notNull : ∀ schema expr col found row, isNullRejected schema expr = true → holds expr row = true →
    col ∈ expr.extractColumns → schema.retrieveColumn col = some found → holds (buildNotNullExpr found) row = true
  relaxed : ∀ expr schema relaxed row, deriveRelaxedFiltersFromDNF expr schema = some relaxed →
    holds expr row = true → holds relaxed row = true

section Meaning

variable {ρ : Type} {holds : Expression → ρ → Bool}
variable {isNullRejected : Schema → Expression → Bool}
variable {deriveRelaxedFiltersFromDNF : Expression → Schema → Option Expression}
variable {deriveLeft deriveRight : Bool} {leftSchema rightSchema : Schema}

/-- Deriving nothing is sound. -/
theorem soundDerivations_none : SoundDerivations holds (fun _ _ => false) (fun _ _ => none) :=
  ⟨fun _ _ _ _ _ rejected => (nomatch rejected), fun _ _ _ _ derived => (nomatch derived)⟩

theorem SoundDerivations.notNull_all (sound : SoundDerivations holds isNullRejected deriveRelaxedFiltersFromDNF)
    {schema : Schema} {expr : Expression} {col found : Column} {row : ρ} (holding : holds expr row = true)
    (mem : col ∈ expr.extractColumns) (retrieved : schema.retrieveColumn col = some found) (derive : Bool) :
    (deriveNotNull isNullRejected derive schema expr found).all (holds · row) = true := by
  unfold deriveNotNull
  split_ifs with derived
  · simp only [Bool.and_eq_true] at derived
    simpa using sound.notNull schema expr col found row derived.1.2 holding mem retrieved
  · rfl

theorem SoundDerivations.relaxed_all (sound : SoundDerivations holds isNullRejected deriveRelaxedFiltersFromDNF)
    {expr : Expression} {row : ρ} (holding : holds expr row = true) (derive : Bool) (schema : Schema) :
    (deriveRelaxed deriveRelaxedFiltersFromDNF derive schema expr).all (holds · row) = true := by
  unfold deriveRelaxed
  split_ifs
  · cases derived : deriveRelaxedFiltersFromDNF expr schema with
    | none => rfl
    | some relaxed => simpa using sound.relaxed expr schema relaxed row derived holding
  · rfl

theorem placeCondition_all (sound : SoundDerivations holds isNullRejected deriveRelaxedFiltersFromDNF)
    (p : LogicalJoin) (conds : OnConditions) (expr : Expression) (row : ρ) :
    (p.placeCondition deriveRelaxedFiltersFromDNF deriveLeft deriveRight leftSchema rightSchema conds expr).2.conditions.all
      (holds · row) = (conds.conditions.all (holds · row) && holds expr row) := by
  unfold LogicalJoin.placeCondition
  dsimp only
  cases holding : holds expr row
  all_goals
    split_ifs
    all_goals (try (unfold LogicalJoin.pushDownConstExpr; split <;> (try split)))
  all_goals simp only [OnConditions.conditions, List.all_append, List.all_cons, List.all_nil, holding,
    Bool.and_true, Bool.and_false, Bool.false_and, Bool.and_assoc]
  all_goals simp only [sound.relaxed_all holding, Bool.true_and]

theorem extractCondition_all (sem : ConditionSemantics holds)
    (sound : SoundDerivations holds isNullRejected deriveRelaxedFiltersFromDNF)
    (state : LogicalJoin × OnConditions) (expr : Expression) (row : ρ) :
    (LogicalJoin.extractCondition isNullRejected deriveRelaxedFiltersFromDNF deriveLeft deriveRight leftSchema rightSchema
      state expr).2.conditions.all (holds · row) = (state.2.conditions.all (holds · row) && holds expr row) := by
  unfold LogicalJoin.extractCondition
  dsimp only
  rcases binary : binaryColumns expr with _ | ⟨funcName, arg0, arg1⟩
  · exact placeCondition_all sound _ _ _ row
  dsimp only
  rcases retrieved : retrieveSides leftSchema rightSchema arg0 arg1 with _ | ⟨⟨leftCol, rightCol⟩, col0, col1⟩
  · exact placeCondition_all sound _ _ _ row
  obtain ⟨swapped, left, right⟩ := retrieveSides_spec retrieved
  have exprEq := binaryColumns_eq_some binary
  have mem : col0 ∈ expr.extractColumns ∧ col1 ∈ expr.extractColumns := by
    rw [exprEq]
    rcases swapped with ⟨rfl, rfl⟩ | ⟨rfl, rfl⟩ <;> simp [Expression.extractColumns]
  dsimp only
  split_ifs with isEq
  · have same : holds (eqCondition col0 col1) row = holds expr row := by
      rw [exprEq, isEq]
      rcases swapped with ⟨rfl, rfl⟩ | ⟨rfl, rfl⟩
      · rfl
      · exact sem.eq_comm _ _ row
    cases holding : holds expr row
    · simp only [OnConditions.conditions, List.all_append, List.all_cons, List.all_nil, same, holding,
        Bool.and_true, Bool.and_false, Bool.false_and, Bool.and_assoc]
    · simp only [OnConditions.conditions, List.all_append, List.all_cons, List.all_nil, same, holding,
        sound.notNull_all holding mem.1 left, sound.notNull_all holding mem.2 right, Bool.and_true]
  · rw [placeCondition_all sound]
    cases holding : holds expr row
    · simp only [Bool.and_false]
    · simp only [OnConditions.conditions, List.all_append, sound.notNull_all holding mem.1 left,
        sound.notNull_all holding mem.2 right, Bool.and_true]

theorem foldl_extractCondition_all (sem : ConditionSemantics holds)
    (sound : SoundDerivations holds isNullRejected deriveRelaxedFiltersFromDNF) (row : ρ) :
    ∀ (conditions : List Expression) (state : LogicalJoin × OnConditions),
      (conditions.foldl (LogicalJoin.extractCondition isNullRejected deriveRelaxedFiltersFromDNF deriveLeft deriveRight
        leftSchema rightSchema) state).2.conditions.all (holds · row) =
          (state.2.conditions.all (holds · row) && conditions.all (holds · row))
  | [], _ => (Bool.and_true _).symm
  | expr :: conditions, state => by
    rw [List.foldl_cons, foldl_extractCondition_all sem sound row conditions, extractCondition_all sem sound,
      List.all_cons, Bool.and_assoc]

end Meaning

/-! ## The join `buildJoin` returns -/

section Build

variable {isNullRejected : Schema → Expression → Bool}
variable {deriveRelaxedFiltersFromDNF : Expression → Schema → Option Expression} {leftSchema rightSchema : Schema}

/-- Without derivations, a turn of the loop reads neither derivation. -/
theorem extractCondition_underived :
    LogicalJoin.extractCondition isNullRejected deriveRelaxedFiltersFromDNF false false leftSchema rightSchema =
      LogicalJoin.extractCondition (fun _ _ => false) (fun _ _ => none) false false leftSchema rightSchema := by
  funext state expr
  rfl

/-- Without derivations, a turn of the loop hands back the join as it was. -/
theorem extractCondition_underived_join (state : LogicalJoin × OnConditions) (expr : Expression) :
    (LogicalJoin.extractCondition isNullRejected deriveRelaxedFiltersFromDNF false false leftSchema rightSchema
      state expr).1 = state.1 := by
  have placed : ∀ conds, (state.1.placeCondition deriveRelaxedFiltersFromDNF false false leftSchema rightSchema
      conds expr).1 = state.1 := by
    intro conds
    unfold LogicalJoin.placeCondition LogicalJoin.pushDownConstExpr
    simp only [Bool.or_false, Bool.false_eq_true, if_false]
    split_ifs
    · split <;> rfl
    all_goals rfl
  unfold LogicalJoin.extractCondition
  split
  · split
    · split_ifs
      · rfl
      · exact placed _
    · exact placed _
  · exact placed _

theorem foldl_extractCondition_underived_join :
    ∀ (conditions : List Expression) (state : LogicalJoin × OnConditions),
      (conditions.foldl (LogicalJoin.extractCondition isNullRejected deriveRelaxedFiltersFromDNF false false
        leftSchema rightSchema) state).1 = state.1
  | [], _ => rfl
  | expr :: conditions, state => by
    rw [List.foldl_cons, foldl_extractCondition_underived_join conditions, extractCondition_underived_join]

/-- Without derivations, `ExtractOnCondition` reads neither derivation and hands back the join as it was. -/
theorem extractOnCondition_underived (p : LogicalJoin) (conditions : List Expression) :
    p.extractOnCondition isNullRejected deriveRelaxedFiltersFromDNF conditions leftSchema rightSchema false false =
      (p, (p.extractOnCondition (fun _ _ => false) (fun _ _ => none) conditions leftSchema rightSchema false false).2) := by
  rw [LogicalJoin.extractOnCondition, LogicalJoin.extractOnCondition, ← extractCondition_underived]
  exact Prod.ext (foldl_extractCondition_underived_join conditions _) rfl

/-- The join of `buildJoin` before its `ON` condition is attached: no conditions yet. -/
theorem buildJoin_eq_attachOnConds (isNullRejected : Schema → Expression → Bool)
    (deriveRelaxedFiltersFromDNF : Expression → Schema → Option Expression) (leftSchema rightSchema : Schema)
    (tp : AstJoinType) (onExpr : Expression) :
    ∃ joinPlan : LogicalJoin,
      buildJoin isNullRejected deriveRelaxedFiltersFromDNF leftSchema rightSchema tp (some onExpr) =
        joinPlan.attachOnConds isNullRejected deriveRelaxedFiltersFromDNF (splitCNFItems onExpr) ∧
      joinPlan.leftSchema = leftSchema ∧ joinPlan.rightSchema = rightSchema ∧ joinPlan.onConditions = {} := by
  cases tp <;> exact ⟨_, rfl, rfl, rfl, rfl⟩

/--
The join `buildJoin` builds with an `ON` condition keeps its children's schemas, files the
items of the condition where the children can evaluate them (equalities of a column of each
side, and conditions on one side's columns), and its four lists of conditions hold together
exactly where the `ON` condition does.  The two derivations are whatever the `expression`
package does: without derivations `buildJoin` does not call them.
-/
theorem buildJoin_on_meaning {ρ : Type} {holds : Expression → ρ → Bool} (sem : ConditionSemantics holds)
    (tp : AstJoinType) (onExpr : Expression) :
    let p := buildJoin isNullRejected deriveRelaxedFiltersFromDNF leftSchema rightSchema tp (some onExpr)
    p.leftSchema = leftSchema ∧ p.rightSchema = rightSchema ∧ Placed leftSchema rightSchema p.onConditions ∧
      ∀ row, p.onConditions.conditions.all (holds · row) = holds onExpr row := by
  obtain ⟨joinPlan, built, rfl, rfl, empty⟩ :=
    buildJoin_eq_attachOnConds isNullRejected deriveRelaxedFiltersFromDNF leftSchema rightSchema tp onExpr
  obtain ⟨noEq, noLeft, noRight, noOther⟩ : joinPlan.equalConditions = [] ∧ joinPlan.leftConditions = [] ∧
      joinPlan.rightConditions = [] ∧ joinPlan.otherConditions = [] := by
    simpa [LogicalJoin.onConditions] using empty
  -- The lists are those `ExtractOnCondition` files without derivations, from none.
  set conds := (joinPlan.extractOnCondition (fun _ _ => false) (fun _ _ => none) (splitCNFItems onExpr)
    joinPlan.leftSchema joinPlan.rightSchema false false).2 with filed
  have attached : buildJoin isNullRejected deriveRelaxedFiltersFromDNF joinPlan.leftSchema joinPlan.rightSchema tp
      (some onExpr) =
        { joinPlan with
          equalConditions := conds.eqCond, leftConditions := conds.leftCond,
          rightConditions := conds.rightCond, otherConditions := conds.otherCond } := by
    rw [built, LogicalJoin.attachOnConds, extractOnCondition_underived]
    simp only [noEq, noLeft, noRight, noOther, List.append_nil]
  rw [attached]
  refine ⟨rfl, rfl, ?_, fun row => ?_⟩
  · exact (Placed.foldl relaxedOn_none (splitCNFItems onExpr)
      (show Placed joinPlan.leftSchema joinPlan.rightSchema ((joinPlan, {}) : LogicalJoin × OnConditions).2 from
        ⟨fun _ mem => (nomatch mem), fun _ mem => (nomatch mem), fun _ mem => (nomatch mem)⟩)).2
  · show conds.conditions.all (holds · row) = holds onExpr row
    rw [filed, LogicalJoin.extractOnCondition, foldl_extractCondition_all sem soundDerivations_none]
    exact (Bool.true_and _).trans (sem.splitCNFItems_all row onExpr)

/-- `LEFT JOIN ... ON onCondition` files the equality, the left table's filter, and the rest. -/
theorem leftJoin_on_meaning :
    (buildJoin (fun _ _ => false) (fun _ _ => none) leftTable rightTable .leftJoin (some onCondition)).onConditions =
      { eqCond := [eqCondition leftKey rightKey]
        leftCond := [.scalarFunction "lt" [.column leftKey, .constant (some 5)]]
        otherCond := [.scalarFunction "lt" [.column leftValue, .column rightKey]] } ∧
    let p := buildJoin (fun _ _ => false) (fun _ _ => none) leftTable rightTable .leftJoin (some onCondition)
    p.leftSchema = leftTable ∧ p.rightSchema = rightTable ∧ Placed leftTable rightTable p.onConditions ∧
      ∀ row, p.onConditions.conditions.all (Expression.holds · row) = onCondition.holds row :=
  ⟨rfl, buildJoin_on_meaning holds_semantics .leftJoin onCondition⟩

end Build

end TinyKVRaft.Planner
