import Mathlib.Data.List.Basic

namespace TinyKVRaft.Planner

/-!
# Columns, schemas and conditions of the planner

The planner of tinysql's `planner/core` builds plans over the expressions of the
`expression` package, which src/ does not hold.  This module keeps of them what the join
code of `logical_plan_builder.go` reads: a column's `UniqueID`, by which a `Schema` finds it,
and its `NotNullFlag`; the columns a condition reads (`ExtractColumns`); the items of a
conjunction (`SplitCNFItems`); and the two conditions the join code builds, `eq` of two
columns and the `not(isnull(..))` of `BuildNotNullExpr`.

What a condition means is left open.  The join code is proved correct for any evaluation
with the two properties of `ConditionSemantics`; `Expression.eval`, MySQL's three-valued
logic on integers, is one.
-/

/-- A column: schemas match it by `UniqueID`; `notNull` is the `NotNullFlag` of its type. -/
structure Column where
  uniqueID : Nat
  notNull : Bool := false
  deriving Repr, DecidableEq

/--
An expression: a column, a constant (`NULL` is `none`; a correlated column is a constant to
the join code), or a scalar function, named as `ast` names it, of its arguments.
-/
inductive Expression where
  | column (col : Column)
  | constant (value : Option Int)
  | scalarFunction (funcName : String) (args : List Expression)
  deriving Repr

namespace Expression

mutual
/-- `expression.ExtractColumns`: the columns an expression reads, left to right. -/
def extractColumns : Expression → List Column
  | .column col => [col]
  | .constant _ => []
  | .scalarFunction _ args => extractColumnsOfArgs args

/-- The columns of a function's arguments, in order. -/
def extractColumnsOfArgs : List Expression → List Column
  | [] => []
  | arg :: args => arg.extractColumns ++ extractColumnsOfArgs args
end

@[simp]
theorem extractColumnsOfArgs_eq (args : List Expression) :
    extractColumnsOfArgs args = args.flatMap extractColumns := by
  induction args with
  | nil => rfl
  | cons arg args ih => rw [extractColumnsOfArgs, ih, List.flatMap_cons]

@[simp]
theorem extractColumns_scalarFunction (funcName : String) (args : List Expression) :
    (scalarFunction funcName args).extractColumns = args.flatMap extractColumns := by
  rw [extractColumns, extractColumnsOfArgs_eq]

end Expression

/-- `expression.Schema`: its columns, in order. -/
structure Schema where
  columns : List Column
  deriving Repr, DecidableEq

namespace Schema

/-- `Schema.Len`. -/
def len (schema : Schema) : Nat :=
  schema.columns.length

/-- `Schema.RetrieveColumn`: the schema's column of the same `UniqueID`, if it has one. -/
def retrieveColumn (schema : Schema) (col : Column) : Option Column :=
  schema.columns.find? (·.uniqueID == col.uniqueID)

/-- `Schema.Contains`: whether the schema has a column of the same `UniqueID`. -/
def contains (schema : Schema) (col : Column) : Bool :=
  schema.columns.any (·.uniqueID == col.uniqueID)

/-- A retrieved column is the schema's own, of the same `UniqueID`. -/
theorem retrieveColumn_spec {schema : Schema} {col found : Column}
    (retrieved : schema.retrieveColumn col = some found) :
    found ∈ schema.columns ∧ found.uniqueID = col.uniqueID := by
  unfold retrieveColumn at retrieved
  have same := List.find?_some retrieved
  exact ⟨List.mem_of_find?_eq_some retrieved, beq_iff_eq.mp same⟩

theorem contains_of_retrieveColumn {schema : Schema} {col found : Column}
    (retrieved : schema.retrieveColumn col = some found) : schema.contains col := by
  have ⟨mem, same⟩ := retrieveColumn_spec retrieved
  exact List.any_eq_true.mpr ⟨found, mem, beq_iff_eq.mpr same⟩

/-- A schema contains the columns it retrieves. -/
theorem contains_retrieved {schema : Schema} {col found : Column}
    (retrieved : schema.retrieveColumn col = some found) : schema.contains found := by
  have ⟨mem, _⟩ := retrieveColumn_spec retrieved
  exact List.any_eq_true.mpr ⟨found, mem, beq_self_eq_true _⟩

end Schema

/-- `expression.MergeSchema`: the columns of the left schema, then those of the right. -/
def mergeSchema (lSchema rSchema : Schema) : Schema :=
  ⟨lSchema.columns ++ rSchema.columns⟩

/-- `NewFunctionInternal(ctx, ast.EQ, .., arg0, arg1)` of two columns. -/
def eqCondition (arg0 arg1 : Column) : Expression :=
  .scalarFunction "eq" [.column arg0, .column arg1]

/-- `expression.BuildNotNullExpr` of a column: `not(isnull(col))`. -/
def buildNotNullExpr (col : Column) : Expression :=
  .scalarFunction "not" [.scalarFunction "isnull" [.column col]]

mutual
/-- `splitNormalFormItems`: the items of nested applications of `funcName`. -/
def splitNormalFormItems (funcName : String) : Expression → List Expression
  | .scalarFunction name args =>
    if name = funcName then splitNormalFormItemsOfArgs funcName args else [.scalarFunction name args]
  | expr => [expr]

/-- The items of a function's arguments, in order. -/
def splitNormalFormItemsOfArgs (funcName : String) : List Expression → List Expression
  | [] => []
  | arg :: args => splitNormalFormItems funcName arg ++ splitNormalFormItemsOfArgs funcName args
end

/-- `expression.SplitCNFItems`: the items of a conjunction. -/
def splitCNFItems (onExpr : Expression) : List Expression :=
  splitNormalFormItems "and" onExpr

/--
What the join code needs of the evaluation `holds` of a condition on a row: a conjunction holds
where all its items do, and an equality of two columns holds either way round.
-/
structure ConditionSemantics {ρ : Type} (holds : Expression → ρ → Bool) : Prop where
  and_all : ∀ args row, holds (.scalarFunction "and" args) row = args.all (holds · row)
  eq_comm : ∀ arg0 arg1 row, holds (eqCondition arg0 arg1) row = holds (eqCondition arg1 arg0) row

section Semantics

variable {ρ : Type} {holds : Expression → ρ → Bool}

mutual
theorem ConditionSemantics.splitNormalFormItems_all (sem : ConditionSemantics holds) (row : ρ) :
    ∀ expr, (splitNormalFormItems "and" expr).all (holds · row) = holds expr row
  | .scalarFunction name args => by
    rw [splitNormalFormItems]
    split_ifs with isAnd
    · rw [isAnd, sem.and_all, sem.splitNormalFormItemsOfArgs_all row args]
    · exact Bool.and_true _
  | .column _ => Bool.and_true _
  | .constant _ => Bool.and_true _

theorem ConditionSemantics.splitNormalFormItemsOfArgs_all (sem : ConditionSemantics holds) (row : ρ) :
    ∀ args, (splitNormalFormItemsOfArgs "and" args).all (holds · row) = args.all (holds · row)
  | [] => rfl
  | arg :: args => by
    rw [splitNormalFormItemsOfArgs, List.all_append, List.all_cons, sem.splitNormalFormItems_all row arg,
      sem.splitNormalFormItemsOfArgs_all row args]
end

/-- The items `SplitCNFItems` returns all hold exactly where the conjunction does. -/
theorem ConditionSemantics.splitCNFItems_all (sem : ConditionSemantics holds) (row : ρ) (onExpr : Expression) :
    (splitCNFItems onExpr).all (holds · row) = holds onExpr row :=
  sem.splitNormalFormItems_all row onExpr

end Semantics

/-! ## MySQL's three-valued logic, one evaluation the join code is correct for -/

/-- The truth of a value in a condition: non-zero; `NULL` is not true. -/
def isTrue : Option Int → Bool
  | some value => value != 0
  | none => false

/--
The functions of `Expression.eval`: `eq` and `lt` of two values, `isnull`, `not`, and `and` of
any number of items (false if one is, else `NULL` if one is, else true).  Any other is `NULL`.
-/
def callFunction : String → List (Option Int) → Option Int
  | "eq", [some a, some b] => some (if a = b then 1 else 0)
  | "lt", [some a, some b] => some (if a < b then 1 else 0)
  | "isnull", [value] => some (if value.isNone then 1 else 0)
  | "not", [some value] => some (if value = 0 then 1 else 0)
  | "and", values => if values.any (· == some 0) then some 0 else if values.all Option.isSome then some 1 else none
  | _, _ => none

namespace Expression

mutual
/-- The value of an expression on a row given by `UniqueID`. -/
def eval (row : Nat → Option Int) : Expression → Option Int
  | .column col => row col.uniqueID
  | .constant value => value
  | .scalarFunction funcName args => callFunction funcName (evalArgs row args)

/-- The values of a function's arguments. -/
def evalArgs (row : Nat → Option Int) : List Expression → List (Option Int)
  | [] => []
  | arg :: args => arg.eval row :: evalArgs row args
end

/-- Whether a condition holds on a row: its value is true. -/
def holds (expr : Expression) (row : Nat → Option Int) : Bool :=
  isTrue (expr.eval row)

theorem evalArgs_all (row : Nat → Option Int) (args : List Expression) :
    (evalArgs row args).all isTrue = args.all (holds · row) := by
  induction args with
  | nil => rfl
  | cons arg args ih => rw [evalArgs, List.all_cons, List.all_cons, ih]; rfl

end Expression

/-- `and` of values is true exactly when all of them are. -/
theorem isTrue_and (values : List (Option Int)) :
    isTrue (callFunction "and" values) = values.all isTrue := by
  show isTrue (if values.any (· == some 0) then some 0 else if values.all Option.isSome then some 1 else none) = _
  by_cases zero : values.any (· == some 0) = true
  · obtain ⟨value, mem, isZero⟩ := List.any_eq_true.mp zero
    rw [if_pos zero, eq_comm]
    exact List.all_eq_false.mpr ⟨value, mem, by rw [beq_iff_eq.mp isZero]; decide⟩
  · have nonzero : ∀ value ∈ values, value ≠ some 0 := fun value mem same =>
      zero (List.any_eq_true.mpr ⟨value, mem, beq_iff_eq.mpr same⟩)
    rw [if_neg zero, eq_comm]
    split_ifs with present
    · refine List.all_eq_true.mpr fun value mem => ?_
      obtain ⟨v, rfl⟩ := Option.isSome_iff_exists.mp (List.all_eq_true.mp present value mem)
      simpa [isTrue] using nonzero _ mem
    · obtain ⟨value, mem, absent⟩ := List.all_eq_false.mp (Bool.eq_false_iff.mpr present)
      exact List.all_eq_false.mpr ⟨value, mem, by cases value <;> simp_all [isTrue]⟩

/-- MySQL's three-valued logic has the properties the join code needs. -/
theorem holds_semantics : ConditionSemantics Expression.holds where
  and_all args row := by
    rw [Expression.holds, Expression.eval, isTrue_and, Expression.evalArgs_all]
  eq_comm arg0 arg1 row := by
    simp only [Expression.holds, eqCondition, Expression.eval, Expression.evalArgs]
    cases row arg0.uniqueID <;> cases row arg1.uniqueID
    case some.some a b => simp only [callFunction, eq_comm]
    all_goals rfl

end TinyKVRaft.Planner
