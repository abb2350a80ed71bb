import SemanticLayer.Compile
import SemanticLayer.Json.Writer

/-!
The JSON form of results and diagnostics. Members stand in ascending order of their names.
-/
namespace SemanticLayer

mutual

def ResultField.toJson : ResultField → Json
  | ⟨name, .atomic type⟩ =>
    .object [("kind", .string "atomic"), ("name", .string name), ("type", .string type.name)]
  | ⟨name, .repeated fields⟩ =>
    .object [("kind", .string "repeated"), ("name", .string name),
      ("type", .array (resultFieldsJson fields))]

def resultFieldsJson : List ResultField → List Json
  | [] => []
  | field :: rest => field.toJson :: resultFieldsJson rest

end

def schemaJson (fields : List ResultField) : Json :=
  .object [("fields", .array (resultFieldsJson fields))]

def Position.toJson (p : Position) : Json :=
  .object [("character", .nat p.character.toNat), ("line", .nat p.line.toNat)]

def Span.toJson (s : Span) : Json :=
  .object [("end", s.stop.toJson), ("start", s.start.toJson)]

def Diagnostic.toJson (d : Diagnostic) : Json :=
  .object [("kind", .string d.kind.name),
    ("location", .object [("span", d.location.span.toJson), ("url", .string d.location.url)]),
    ("message", .string d.message), ("severity", .string d.severity.name)]

def CompiledQuery.toJson (q : CompiledQuery) : Json :=
  .object [("diagnostics", .array (q.diagnostics.map Diagnostic.toJson)),
    ("dialect", .string q.dialect.name), ("schema", schemaJson q.schema), ("sql", .string q.sql)]

end SemanticLayer
