import SemanticLayer.Model.Source

/-!
Which joined relations an expression reads, and whether reaching them can repeat rows.
-/
namespace SemanticLayer

/-- Join paths in ascending order, each with whether it crosses a join that can repeat rows. -/
abbrev Reads := List (List String × Bool)

namespace Reads

def add (path : List String) (crosses : Bool) : Reads → Reads
  | [] => [(path, crosses)]
  | (p, c) :: rest =>
    if path < p then (path, crosses) :: (p, c) :: rest
    else if path = p then (p, c || crosses) :: rest
    else (p, c) :: add path crosses rest

def union (a b : Reads) : Reads := b.foldl (fun reads (path, crosses) => reads.add path crosses) a

def crosses (reads : Reads) : Bool := reads.any Prod.snd

def deepest? : Reads → Option (List String)
  | [] => none
  | (path, _) :: rest =>
    some (rest.foldl (fun best (p, _) => if best.length ≤ p.length then p else best) path)

end Reads

/-- Where an expression stands: the namespace that owns it, the joins that lead there, and whether one
of them can repeat rows. -/
structure Place where
  owner : Namespace
  path : List String
  crosses : Bool

namespace Expr

mutual

def collectReads (follow : Place → Expr → Reads → Reads) (place : Place) (e : Expr) (reads : Reads) :
    Reads :=
  match e with
  | .column _ => reads.add place.path place.crosses
  | .field path =>
    match place.owner.resolveDefined path with
    | .ok ⟨joinPath, relationships, owner, .dimension f⟩ =>
      follow ⟨owner, place.path ++ joinPath, place.crosses || relationships.any JoinKind.isMany⟩
        f.expr reads
    | _ => reads
  | .literal _ | .now => reads
  | .unary _ a | .cast a _ _ | .truncate a _ _ | .extract a _ | .isNull a _ | .ungroup _ a _ =>
    collectReads follow place a reads
  | .binary _ a b | .filtered a b | .offset a b _ _ _ =>
    collectReads follow place b (collectReads follow place a reads)
  | .aggregate _ _ arg => collectReadsOption follow place arg reads
  | .choose arms otherwise =>
    collectReadsOption follow place otherwise (collectReadsArms follow place arms reads)
  | .isIn a values _ => collectReadsList follow place values (collectReads follow place a reads)
  | .call _ args => collectReadsList follow place args reads

def collectReadsOption (follow : Place → Expr → Reads → Reads) (place : Place) (e : Option Expr)
    (reads : Reads) : Reads :=
  match e with
  | none => reads
  | some e => collectReads follow place e reads

def collectReadsList (follow : Place → Expr → Reads → Reads) (place : Place) (es : List Expr)
    (reads : Reads) : Reads :=
  match es with
  | [] => reads
  | e :: rest => collectReadsList follow place rest (collectReads follow place e reads)

def collectReadsArms (follow : Place → Expr → Reads → Reads) (place : Place)
    (arms : List (Expr × Expr)) (reads : Reads) : Reads :=
  match arms with
  | [] => reads
  | (condition, value) :: rest =>
    collectReadsArms follow place rest
      (collectReads follow place value (collectReads follow place condition reads))

end

def readsWithin : Nat → Place → Expr → Reads → Reads
  | 0, _, _, reads => reads
  | depth + 1, place, e, reads => collectReads (readsWithin depth) place e reads

/-- The paths that an expression reads. A chain of definitions visits no field twice, so the number of
fields bounds its length. -/
def reads (place : Place) (e : Expr) : Reads := readsWithin (place.owner.size + 1) place e []

end Expr

end SemanticLayer
