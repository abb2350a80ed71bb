import SemanticLayer.Elaborate.Expr

/-!
The names that expressions of a block see: the fields of a namespace, and the declarations of the block
itself. A declaration is elaborated when it is first needed, so it may refer to one that stands after
it; one that needs itself is circular. The outcome of each declaration is kept.
-/
namespace SemanticLayer.Elaborate

abbrev Memo := List (String × Except LocatedFault Typed)

structure Scope where
  url : String
  root : Namespace
  declarations : List Document.FieldDecl
  inlining : Bool

namespace Scope

def declaration? (s : Scope) (name : String) : Option Document.FieldDecl :=
  s.declarations.find? fun decl => decl.name.node == name

def location (s : Scope) (span : Span) : Location := ⟨s.url, span⟩

/-- Looks a path up. `busy` holds the declarations that are being elaborated, and `outcome` gives the
outcome of one that is not. -/
def lookup (s : Scope) (outcome : String → StateM Memo (Except LocatedFault Typed))
    (busy : List String) (path : List String) : StateM Memo (Except Fault Reference) := do
  match path with
  | [] => return .error (.undefinedField "")
  | first :: rest =>
    let memo ← get
    if (s.declaration? first).isNone && (memo.lookup first).isNone then
      return s.root.refer path
    if busy.contains first then
      return .error (.circularDefinition first)
    match ← outcome first with
    | .error _ => return .error (.invalidReference first)
    | .ok typed =>
      let shape : Shape := if typed.isAggregate then .measure else .dimension
      if rest.isEmpty then
        return .ok ⟨shape, typed.type, [], false, typed.reads,
          if s.inlining then some typed.expr else none⟩
      else
        return .error (.wrongFieldKind first shape.kind [.join])

def resolveWithin (s : Scope) : Nat → List String → String → StateM Memo (Except LocatedFault Typed)
  | 0, _, name => return .error ⟨.circularDefinition name, s.location default⟩
  | depth + 1, busy, name => do
    match (← get).lookup name, s.declaration? name with
    | some outcome, _ => return outcome
    | none, none => return .error ⟨.undefinedField name, s.location default⟩
    | none, some decl =>
      if busy.contains name then
        return .error ⟨.circularDefinition name, s.location decl.name.span⟩
      let busy := name :: busy
      let context : Context Memo := ⟨s.url, s.lookup (s.resolveWithin depth busy) busy⟩
      let outcome ← (expr context decl.expr).run
      modify ((name, outcome) :: ·)
      return outcome

/-- One declaration waits for another at most as often as there are declarations. -/
def depth (s : Scope) : Nat := s.declarations.length + 1

def resolve (s : Scope) (name : String) : M Memo Typed :=
  ExceptT.mk (s.resolveWithin s.depth [] name)

def context (s : Scope) : Context Memo := ⟨s.url, s.lookup (s.resolveWithin s.depth []) []⟩

def typed (s : Scope) (e : Document.Expr) : M Memo Typed := expr s.context e

end Scope

end SemanticLayer.Elaborate
