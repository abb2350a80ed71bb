import SemanticLayer.Document.References
import SemanticLayer.Session.Basic
import SemanticLayer.Url.Resolve

/-!
The import graph of a session. Documents are reached from the root level by level, so that each is seen
at its smallest depth. Imports that close a cycle, go too deep or lead to a document that cannot be read
are reported where they are written and dropped; what is left has no cycle and gives the order in which
the documents are built.
-/
namespace SemanticLayer.Session

structure Link where
  importer : String
  written : String
  target : String
  span : Span

namespace Link

def location (l : Link) : Location := ⟨l.importer, l.span⟩

def report (l : Link) (fault : Fault) : Diagnostic := (LocatedFault.mk fault l.location).diagnostic

end Link

def link (importer : String) (i : Document.Import) : Except Diagnostic Link :=
  match Url.resolve importer i.url with
  | .ok target => .ok ⟨importer, i.url, target, i.span⟩
  | .error fault =>
    let fault := LocatedFault.mk (.importFailed i.url fault.message) ⟨importer, i.span⟩
    .error fault.diagnostic

def links (s : Session) (url : String) : List (Except Diagnostic Link) :=
  match s.document? url with
  | some document => document.imports.map (link url)
  | none => []

def targets (s : Session) (url : String) : List String :=
  (links s url).filterMap fun l => l.toOption.map Link.target

def fresh (seen : List String) : List String → List String
  | [] => []
  | url :: rest =>
    if seen.contains url then fresh seen rest else url :: fresh (url :: seen) rest

structure Visit where
  url : String
  follows : Bool
  deriving DecidableEq, Repr

/-- The documents reached from one level on, level by level, where `depth` more levels may follow. -/
def visitsFrom (s : Session) : (depth : Nat) → (seen level : List String) → List Visit
  | 0, _, level => level.map (⟨·, false⟩)
  | depth + 1, seen, level =>
    let next := fresh seen (level.flatMap (targets s))
    level.map (⟨·, true⟩) ++ visitsFrom s depth (seen ++ next) next

def visits (s : Session) (maxDepth : Nat) : List Visit := visitsFrom s maxDepth [s.root] [s.root]

/-- What is reported about a document that is reached. Importers report imports that cannot be read. -/
def Visit.diagnostics (s : Session) (maxDepth : Nat) (v : Visit) : List Diagnostic :=
  match s.entry? v.url with
  | none => []
  | some (.unreadable message) =>
    if v.url = s.root then
      [(LocatedFault.mk (.importFailed v.url message) ⟨v.url, default⟩).diagnostic]
    else []
  | some (.rejected diagnostics) => diagnostics
  | some (.document _) => (links s v.url).filterMap fun
    | .error diagnostic => some diagnostic
    | .ok l => if v.follows then none else some (l.report (.importTooDeep l.target maxDepth))

def Visit.links (s : Session) (v : Visit) : List Link :=
  if v.follows then (Session.links s v.url).filterMap Except.toOption else []

def missing (s : Session) (vs : List Visit) : List String :=
  ordered ((vs.map Visit.url).filter fun url => !s.holds url)

def reached (s : Session) (vs : List Visit) : List String :=
  ordered ((vs.map Visit.url).filter fun url => (s.document? url).isSome)

def unreadable? (s : Session) (l : Link) : Option Diagnostic :=
  match s.entry? l.target with
  | some (.unreadable message) => some (l.report (.importFailed l.target message))
  | _ => none

def closure (ls : List Link) : (rounds : Nat) → List String → List String
  | 0, urls => urls
  | rounds + 1, urls =>
    closure ls rounds (urls ++ fresh urls ((ls.filter fun l => urls.contains l.importer).map Link.target))

def closesCycle (ls : List Link) (l : Link) : Bool :=
  (closure ls ls.length [l.target]).contains l.importer

/-- The documents in an order in which each comes after those that it imports: in each round all those
come whose imports are there already. -/
def orderFrom (ls : List Link) : (rounds : Nat) → (done pending : List String) → List String
  | 0, done, _ => done
  | rounds + 1, done, pending =>
    let isReady (url : String) : Bool :=
      (ls.filter (·.importer == url)).all fun l => done.contains l.target
    orderFrom ls rounds (done ++ pending.filter isReady) (pending.filter fun url => !isReady url)

structure Graph where
  links : List Link
  /-- The documents, each after those that it imports. -/
  order : List String
  diagnostics : List Diagnostic

def graph (s : Session) (vs : List Visit) : Graph :=
  let followed := vs.flatMap (Visit.links s)
  let usable := followed.filter fun l => (s.document? l.target).isSome
  let (cyclic, kept) := usable.partition (closesCycle usable)
  let urls := reached s vs
  let order := orderFrom kept urls.length [] urls
  ⟨kept, if order.length = urls.length then order else urls,
    followed.filterMap (unreadable? s) ++ cyclic.map fun l => l.report (.importCycle l.target)⟩

end SemanticLayer.Session
