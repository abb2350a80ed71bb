import SemanticLayer.Model.Source

/-!
A model: what the statements of a document define.
-/
namespace SemanticLayer

inductive Entity where
  | source (source : Source)
  | query (query : Query)
  | sqlBlock (block : SqlBlock)

namespace Entity

def kind : Entity → EntityKind
  | source _ => .source
  | query _ => .query
  | sqlBlock _ => .sqlBlock

def location : Entity → Location
  | source s => s.location
  | query q => q.location
  | sqlBlock b => b.location

end Entity

structure Model where
  entities : List (String × Entity)
  queries : List (Except Diagnostic Query)
  exports : List String
  invalid : List (String × Diagnostic)
  diagnostics : List Diagnostic

namespace Model

def empty : Model := ⟨[], [], [], [], []⟩

def entity? (m : Model) (name : String) : Option Entity := m.entities.lookup name

def source? (m : Model) (name : String) : Option Source :=
  match m.entity? name with
  | some (.source s) => some s
  | _ => none

def query? (m : Model) (name : String) : Option Query :=
  match m.entity? name with
  | some (.query q) => some q
  | _ => none

def invalid? (m : Model) (name : String) : Option Diagnostic := m.invalid.lookup name

def defines (m : Model) (name : String) : Bool := (m.entity? name).isSome || (m.invalid? name).isSome

def hasErrors (m : Model) : Bool := Diagnostic.hasErrors m.diagnostics

end Model

end SemanticLayer
