import SemanticLayer.Model.Source

/-!
Which joins one `SELECT` reads. The set of read paths is closed under parents and under what join
conditions and joined sources' filters read in turn; it decides whether the rows of a relation can be
repeated by another one.
-/
namespace SemanticLayer.Plan

abbrev JoinPaths := List (List String)

namespace JoinPaths

def insert (path : List String) : JoinPaths → JoinPaths
  | [] => [path]
  | p :: rest =>
    if path < p then path :: p :: rest
    else if path = p then p :: rest
    else p :: insert path rest

def starts (path : List String) : List (List String) :=
  (List.range path.length).map fun n => path.take (n + 1)

def addPath (paths : JoinPaths) (path : List String) : JoinPaths :=
  (starts path).foldl (fun paths p => insert p paths) paths

end JoinPaths

def baseAlias : String := "base"

def aliasOf (path : List String) : String :=
  if path.isEmpty then baseAlias else String.intercalate "__" path

abbrev Follow := List String → Namespace → Expr → JoinPaths → Except Fault JoinPaths

/-- The definition that a path refers to; only dimensions and measures have one. -/
def definitionOf (ns : Namespace) (path : List String) : Except Fault (List String × Namespace × Expr) := do
  let found ← ns.resolveDefined path
  match found.field with
  | .dimension f | .measure f => return (found.joinPath, found.owner, f.expr)
  | other => .error (.wrongFieldKind (dotted path) other.kind [.dimension, .measure])

mutual

def collect (follow : Follow) (place : List String) (ns : Namespace) (e : Expr) (paths : JoinPaths) :
    Except Fault JoinPaths :=
  match e with
  | .literal _ | .now => .ok paths
  | .column _ => .ok (paths.addPath place)
  | .field path => do
    let (joinPath, owner, definition) ← definitionOf ns path
    follow (place ++ joinPath) owner definition (paths.addPath (place ++ joinPath))
  | .aggregate _ locality arg => collectOption follow place ns arg (paths.addPath (place ++ locality))
  | .unary _ a | .cast a _ _ | .truncate a _ _ | .extract a _ | .isNull a _ | .ungroup _ a _ =>
    collect follow place ns a paths
  | .binary _ a b | .filtered a b | .offset a b _ _ _ => do
    let paths ← collect follow place ns a paths
    collect follow place ns b paths
  | .choose arms otherwise => do
    let paths ← collectArms follow place ns arms paths
    collectOption follow place ns otherwise paths
  | .isIn a values _ => do
    let paths ← collect follow place ns a paths
    collectList follow place ns values paths
  | .call _ args => collectList follow place ns args paths

def collectOption (follow : Follow) (place : List String) (ns : Namespace) (e : Option Expr)
    (paths : JoinPaths) : Except Fault JoinPaths :=
  match e with
  | none => .ok paths
  | some e => collect follow place ns e paths

def collectList (follow : Follow) (place : List String) (ns : Namespace) (es : List Expr)
    (paths : JoinPaths) : Except Fault JoinPaths :=
  match es with
  | [] => .ok paths
  | e :: rest => do
    let paths ← collect follow place ns e paths
    collectList follow place ns rest paths

def collectArms (follow : Follow) (place : List String) (ns : Namespace) (arms : List (Expr × Expr))
    (paths : JoinPaths) : Except Fault JoinPaths :=
  match arms with
  | [] => .ok paths
  | (condition, value) :: rest => do
    let paths ← collect follow place ns condition paths
    let paths ← collect follow place ns value paths
    collectArms follow place ns rest paths

end

def collectWithin : Nat → Follow
  | 0, place, _, _, _ => .error (.circularDefinition (dotted place))
  | depth + 1, place, ns, e, paths => collect (collectWithin depth) place ns e paths

structure JoinTree where
  root : Namespace
  key : Option String
  used : JoinPaths

def joinFrom (walked : List String) (ns : Namespace) : List String → Except Fault Join
  | [] => .error (.undefinedField "")
  | name :: rest =>
    let here := walked ++ [name]
    match ns.lookup? name with
    | none => .error (.undefinedField (dotted here))
    | some (.join join) =>
      match rest with
      | [] => .ok join
      | _ :: _ => joinFrom here join.source.fields rest
    | some other => .error (.wrongFieldKind (dotted here) other.kind [.join])

mutual

def usedSlots (used : JoinPaths) (place : List String) : List (Slot FieldDef) → JoinPaths
  | [] => []
  | ⟨name, field, _⟩ :: rest => usedField used (place ++ [name]) field ++ usedSlots used place rest

def usedField (used : JoinPaths) (path : List String) : FieldDef → JoinPaths
  | .join join => if used.contains path then path :: usedJoin used path join else []
  | _ => []

def usedJoin (used : JoinPaths) (path : List String) : Join → JoinPaths
  | ⟨_, _, source, _, _⟩ => usedSource used path source

def usedSource (used : JoinPaths) (path : List String) : Source → JoinPaths
  | ⟨_, _, ⟨entries⟩, _, _, _⟩ => usedSlots used path entries

end

namespace JoinTree

def ofRoot (root : Namespace) (key : Option String) : JoinTree := ⟨root, key, []⟩

def join (t : JoinTree) (path : List String) : Except Fault Join := joinFrom [] t.root path

def fieldsAt (t : JoinTree) (path : List String) : Except Fault Namespace :=
  if path.isEmpty then .ok t.root else (t.join path).map fun join => join.source.fields

def keyAt (t : JoinTree) (path : List String) : Except Fault (Option String) :=
  if path.isEmpty then .ok t.key else (t.join path).map fun join => join.source.primaryKey

def depth (t : JoinTree) : Nat := t.root.size + 1

def readAt (t : JoinTree) (place : List String) (ns : Namespace) (e : Expr) : Except Fault JoinTree := do
  return { t with used := ← collectWithin t.depth place ns e t.used }

def read (t : JoinTree) (e : Expr) : Except Fault JoinTree := t.readAt [] t.root e

def closeAt (t : JoinTree) (path : List String) : Except Fault JoinTree := do
  let join ← t.join path
  let parent ← t.fieldsAt path.dropLast
  let t ← match join.correlation with
    | .key e | .on e => t.readAt path.dropLast parent e
    | .free => .ok t
  join.source.filters.foldlM (fun t filter => t.readAt path join.source.fields filter.expr) t

def closeOnce (t : JoinTree) : Except Fault JoinTree := t.used.foldlM closeAt t

def closeWithin : Nat → JoinTree → Except Fault JoinTree
  | 0, t => .ok t
  | rounds + 1, t => do
    let next ← t.closeOnce
    if next.used.length = t.used.length then .ok next else closeWithin rounds next

/-- Adds what the used joins need themselves. Every round but the last adds a join. -/
def close (t : JoinTree) : Except Fault JoinTree := closeWithin (t.root.size + 2) t

/-- Whether rows of the relation at a path can be repeated: by a join that is not on the way to it and
that has many rows for one. -/
def fansOut (t : JoinTree) (path : List String) : Bool :=
  t.used.any fun used => !used.isPrefixOf path &&
    match t.join used with
    | .ok join => join.relationship.isMany
    | .error _ => false

def ordered (t : JoinTree) : JoinPaths := usedSlots t.used [] t.root.entries

end JoinTree

end SemanticLayer.Plan
