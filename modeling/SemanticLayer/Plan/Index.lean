import SemanticLayer.Plan.Basic

/-!
Indexes: one `SELECT` for each field, put together. A field of strings or booleans gives a row for each of
its values, other fields give one row with their range. Rows are weighted, and the heaviest come first.
-/
namespace SemanticLayer.Plan

def standardWeight : Expr := .aggregate .count [] none

def indexesValues : AtomicType → Bool
  | .string | .boolean => true
  | _ => false

def asText (d : Dialect) (e : Sql.Expr) : CompileM Sql.Expr := CompileM.ofDialect (d.cast e .string false)

def indexText (d : Dialect) (type : AtomicType) (column : Sql.Expr) : CompileM Sql.Expr := do
  if indexesValues type then asText d column
  else
    let least ← asText d (.fn "MIN" [column])
    let greatest ← asText d (.fn "MAX" [column])
    return .fn "CONCAT" [least, .string " to ", greatest]

def planIndexField (p : Planner) (input : Input) (weight : Expr) (filters : List Expr)
    (field : IndexField) : PlanM Sql.Query := do
  let value := Expr.field field.path
  let tree ← liftExcept (treeFor input (value :: weight :: filters))
  let target : Target := ⟨p.dialect, tree⟩
  let plan : RowsM (Sql.Query × Sql.Expr) := do
    let (column, items, conditions) ← RowsM.compiling do
      let column ← target.compileRoot value
      let weight ← target.compileRoot weight
      let conditions ← filters.mapM target.compileRoot
      let text ← indexText p.dialect field.type column
      let items : List Sql.SelectItem :=
        [.named (.string (dotted field.path)) "fieldPath", .named text "fieldValue",
          .named weight "weight"]
      return (column, items, conditions)
    let present := if indexesValues field.type then [column.isNotNull] else []
    let frame ← planFrame p target input (conditions ++ present)
    return (frame.query items, column)
  let ((query, column), _) ← plan.run .empty
  return if indexesValues field.type then { query with groupBy := [column] } else query

def planIndex (p : Planner) (input : Input) (fields : List IndexField) (weight : Option Expr)
    (r : Restriction) : PlanM Sql.Query := do
  if fields.isEmpty then throw (.stage .emptyIndex)
  let parts ← fields.mapM
    (planIndexField p input (weight.getD standardWeight) (r.filters.map Filter.expr))
  let name ← define "index" { Sql.Query.empty with unions := parts }
  return { Sql.Query.empty with
    items := ["fieldPath", "fieldValue", "weight"].map fun column => ⟨.ofColumn column, none⟩
    source := some ⟨.cte name, none⟩
    orderBy := orderTerms p.dialect .ofColumn [⟨"weight", .desc⟩]
    limit := r.limit }

end SemanticLayer.Plan
