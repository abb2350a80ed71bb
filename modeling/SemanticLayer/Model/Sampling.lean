/-!
Which part of a table a query reads.
-/
namespace SemanticLayer

inductive Sampling where
  | standard
  | rows (count : Nat)
  | percent (share : Float)

end SemanticLayer
