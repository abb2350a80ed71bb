import SemanticLayer.Location
import SemanticLayer.Vocabulary

/-!
Messages about documents: what kind of fault, how severe, where.
-/
namespace SemanticLayer

namespace Diagnostic

inductive Kind where
  | malformed | nameResolution | typing | structural | dialectUnsupported | schemaDependency
  deriving DecidableEq, Repr

namespace Kind

def name : Kind → String
  | malformed => "syntax"
  | nameResolution => "name_resolution"
  | typing => "type"
  | structural => "structural"
  | dialectUnsupported => "dialect_unsupported"
  | schemaDependency => "schema_dependency"

instance : Named Kind :=
  ⟨[malformed, nameResolution, typing, structural, dialectUnsupported, schemaDependency], name⟩

def title : Kind → String
  | malformed => "syntax error"
  | nameResolution => "name resolution error"
  | typing => "type error"
  | structural => "structural error"
  | dialectUnsupported => "dialect unsupported"
  | schemaDependency => "schema dependency error"

end Kind

inductive Severity where
  | error | warning
  deriving DecidableEq, Repr

namespace Severity

def name : Severity → String
  | error => "error"
  | warning => "warning"

instance : Named Severity := ⟨[error, warning], name⟩

end Severity

end Diagnostic

structure Diagnostic where
  kind : Diagnostic.Kind
  severity : Diagnostic.Severity
  message : String
  location : Location
  deriving DecidableEq, Repr

namespace Diagnostic

def error (kind : Kind) (message : String) (location : Location) : Diagnostic :=
  ⟨kind, .error, message, location⟩

def isError (d : Diagnostic) : Bool := d.severity == .error

def text (d : Diagnostic) : String :=
  d.location.text ++ ": " ++ d.severity.name ++ " (" ++ d.kind.title ++ "): " ++ d.message

def hasErrors (ds : List Diagnostic) : Bool := ds.any isError

end Diagnostic

end SemanticLayer
