/-!
Positions in documents. Lines and characters count from zero; texts for people count from one.
-/
namespace SemanticLayer

structure Position where
  line : UInt32
  character : UInt32
  deriving DecidableEq, Repr, Inhabited

namespace Position

def le (a b : Position) : Bool :=
  a.line < b.line || (a.line == b.line && a.character ≤ b.character)

def min (a b : Position) : Position := if a.le b then a else b

def max (a b : Position) : Position := if a.le b then b else a

end Position

structure Span where
  start : Position
  stop : Position
  deriving DecidableEq, Repr, Inhabited

namespace Span

def merge (a b : Span) : Span := ⟨a.start.min b.start, a.stop.max b.stop⟩

def contains (a b : Span) : Bool := a.start.le b.start && b.stop.le a.stop

def text (s : Span) : String :=
  s!"{(s.start.line + 1).toNat}:{(s.start.character + 1).toNat}"

end Span

structure Location where
  url : String
  span : Span
  deriving DecidableEq, Repr, Inhabited

namespace Location

def contains (a b : Location) : Bool := a.url == b.url && a.span.contains b.span

def text (l : Location) : String := l.url ++ ":" ++ l.span.text

end Location

structure Spanned (α : Type) where
  node : α
  span : Span
  deriving Repr

end SemanticLayer
