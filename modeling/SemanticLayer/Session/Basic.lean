import SemanticLayer.Catalog
import SemanticLayer.Document.Decode

/-!
A session builds the model of one root document. It holds what has been supplied so far: the documents,
read once, and the schemas.
-/
namespace SemanticLayer

namespace Session

inductive Entry where
  | document (document : Document)
  | rejected (diagnostics : List Diagnostic)
  | unreadable (message : String)

def Entry.ofText (url text : String) : Entry :=
  match Document.read? text with
  | some d => .document d
  | none => .rejected [Document.malformed url]

structure Supply where
  texts : List (String × String)
  unreadable : List (String × String)
  tables : List (String × SchemaEntry)
  sqlBlocks : List (String × SchemaEntry)
  isFinal : Bool

def Supply.empty : Supply := ⟨[], [], [], [], false⟩

end Session

structure Session where
  root : String
  documents : List (String × Session.Entry)
  catalog : Catalog
  isFinal : Bool

namespace Session

def start (root : String) : Session := ⟨root, [], .empty, false⟩

def entry? (s : Session) (url : String) : Option Entry := s.documents.lookup url

def holds (s : Session) (url : String) : Bool := (s.entry? url).isSome

def document? (s : Session) (url : String) : Option Document :=
  match s.entry? url with
  | some (.document d) => some d
  | _ => none

def addEntry (documents : List (String × Entry)) (url : String) (entry : Entry) :
    List (String × Entry) :=
  addSorted url entry documents

def addTexts (documents : List (String × Entry)) (texts : List (String × String)) :
    List (String × Entry) :=
  texts.foldl (fun documents (url, text) => addEntry documents url (Entry.ofText url text)) documents

def addUnreadable (documents : List (String × Entry)) (messages : List (String × String)) :
    List (String × Entry) :=
  messages.foldl (fun documents (url, message) => addEntry documents url (.unreadable message))
    documents

def addSchemas (table : SchemaTable) (schemas : List (String × SchemaEntry)) : SchemaTable :=
  schemas.foldl (fun table (key, schema) => putSorted key schema table) table

/-- Records supplied data. A document that is held already is not read again. -/
def update (s : Session) (data : Supply) : Session :=
  { s with
    documents := addUnreadable (addTexts s.documents data.texts) data.unreadable
    catalog := ⟨addSchemas s.catalog.tables data.tables, addSchemas s.catalog.sqlBlocks data.sqlBlocks⟩
    isFinal := s.isFinal || data.isFinal }

end Session

end SemanticLayer
