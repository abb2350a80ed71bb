import SemanticLayer.Dialect.Basic

/-!
Settings of the compiler, as a configuration file gives them.
-/
namespace SemanticLayer

structure Settings where
  dialect : Dialect
  rowLimit : Option Nat
  connections : List (String × Dialect)
  maxImportDepth : Nat
  deriving DecidableEq, Repr

namespace Settings

def standardImportDepth : Nat := 16

def standard : Settings := ⟨.duckdb, none, [], standardImportDepth⟩

def connection? (s : Settings) (name : String) : Option Dialect := s.connections.lookup name

def dialectOf (s : Settings) (connection : Option String) : Dialect :=
  (connection.bind s.connection?).getD s.dialect

end Settings

end SemanticLayer
