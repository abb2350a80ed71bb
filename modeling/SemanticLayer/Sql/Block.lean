import SemanticLayer.Sql.Script.Grammar

/-!
Checks on SQL text that is passed through to the database. What counts is that it is one query.
-/
namespace SemanticLayer.Sql.Block

inductive Fault where
  | unreadable (dialect : Dialect)
  | empty
  | notQuery
  | several (count : Nat)
  deriving DecidableEq, Repr

def Fault.message : Fault → String
  | unreadable dialect => s!"invalid SQL for {dialect.name}"
  | empty => "SQL block is empty"
  | notQuery => "SQL block must be a SELECT query"
  | several count => s!"SQL block must be a single query, found {count} statements"

def fault? (d : Dialect) (text : String) : Option Fault :=
  match Script.statements? d text with
  | none => some (.unreadable d)
  | some [] => some .empty
  | some [.query] => none
  | some [.other] => some .notQuery
  | some kinds => some (.several kinds.length)

end SemanticLayer.Sql.Block
