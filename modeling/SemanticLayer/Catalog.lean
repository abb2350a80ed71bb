import SemanticLayer.Fault
import SemanticLayer.Model.Schema
import SemanticLayer.Sorted

/-!
What is known about the schemas of tables and SQL blocks. A schema that was never supplied differs from
one that could not be had.
-/
namespace SemanticLayer

inductive SchemaEntry where
  | known (schema : TableSchema)
  | failed (message : String)
  deriving DecidableEq, Repr

abbrev SchemaTable := List (String × SchemaEntry)

structure Catalog where
  tables : SchemaTable
  sqlBlocks : SchemaTable
  deriving DecidableEq, Repr

namespace Catalog

def empty : Catalog := ⟨[], []⟩

def find (table : SchemaTable) (key : String) : Except Fault TableSchema :=
  match table.lookup key with
  | some (.known schema) => .ok schema
  | some (.failed message) => .error (.schemaFailed key message)
  | none => .error (.missingSchema key)

def table (c : Catalog) (key : String) : Except Fault TableSchema := find c.tables key

def sqlBlock (c : Catalog) (key : String) : Except Fault TableSchema := find c.sqlBlocks key

end Catalog

end SemanticLayer
