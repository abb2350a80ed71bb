import SemanticLayer.Vocabulary

/-!
The columns of tables and SQL blocks, and the columns of query results, which may hold records.
-/
namespace SemanticLayer

structure Column where
  name : String
  type : AtomicType
  deriving DecidableEq, Repr

abbrev TableSchema := List Column

def schemaKey (connection : Option String) (name : String) : String :=
  match connection with
  | some connection => connection ++ ":" ++ name
  | none => name

mutual

inductive ResultType where
  | atomic (type : AtomicType)
  | repeated (fields : List ResultField)

structure ResultField where
  name : String
  type : ResultType

end

def ResultField.atomic (name : String) (type : AtomicType) : ResultField := ⟨name, .atomic type⟩

end SemanticLayer
