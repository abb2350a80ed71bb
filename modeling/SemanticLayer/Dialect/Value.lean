import SemanticLayer.Sql.Tree
import SemanticLayer.Model.Expr

/-!
Literals and casts in SQL.
-/
namespace SemanticLayer.Dialect

def literal : Literal → Sql.Expr
  | .number text => .literal (.number text)
  | .string text => .string text
  | .boolean value => .literal (.bool value)
  | .null => .literal .null
  | .date text => .sequence [.raw "DATE ", .string text]
  | .timestamp text => .sequence [.raw "TIMESTAMP ", .string text]

/-- A cast to a model type. A safe cast gives null on bad input; a dialect without one refuses rather
than emit a cast that would fail. -/
def cast (d : Dialect) (e : Sql.Expr) (type : AtomicType) (safe : Bool) : Except Unsupported Sql.Expr :=
  if safe then
    match d.conventions.safeCast with
    | some kind => .ok (.cast e (d.typeName type) kind)
    | none => .error ⟨d, .safeCast⟩
  else .ok (.plainCast e (d.typeName type))

end SemanticLayer.Dialect
