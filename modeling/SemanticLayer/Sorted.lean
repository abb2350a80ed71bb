/-!
Lists in ascending order of their keys, each key once.
-/
namespace SemanticLayer

def putSorted (key : String) (value : α) : List (String × α) → List (String × α)
  | [] => [(key, value)]
  | (k, v) :: rest =>
    if key < k then (key, value) :: (k, v) :: rest
    else if key = k then (key, value) :: rest
    else (k, v) :: putSorted key value rest

def addSorted (key : String) (value : α) (entries : List (String × α)) : List (String × α) :=
  if (entries.lookup key).isSome then entries else putSorted key value entries

def insertOrdered [Ord α] [DecidableEq α] (a : α) : List α → List α
  | [] => [a]
  | b :: rest =>
    if a = b then b :: rest
    else if (compare a b).isLT then a :: b :: rest
    else b :: insertOrdered a rest

def ordered [Ord α] [DecidableEq α] (as : List α) : List α := as.foldr insertOrdered []

end SemanticLayer
