/-!
The closed vocabularies of the modelling language: value types, time units, operators, aggregate
functions, join kinds. Each has one name per member, by which it is written in documents.
-/
namespace SemanticLayer

class Named (α : Type) where
  all : List α
  name : α → String

def Named.ofName? [Named α] (text : String) : Option α :=
  (Named.all : List α).find? fun a => Named.name a == text

inductive AtomicType where
  | string | number | boolean | date | timestamp | null
  deriving DecidableEq, Repr

namespace AtomicType

def name : AtomicType → String
  | string => "string"
  | number => "number"
  | boolean => "boolean"
  | date => "date"
  | timestamp => "timestamp"
  | null => "null"

instance : Named AtomicType := ⟨[string, number, boolean, date, timestamp, null], name⟩

def isTemporal : AtomicType → Bool
  | date | timestamp => true
  | _ => false

/-- Whether values of the two types can meet in a comparison: `null` meets everything, and dates meet
timestamps. -/
def isCompatible (a b : AtomicType) : Bool :=
  a == b || a == null || b == null || (a.isTemporal && b.isTemporal)

def unify : AtomicType → AtomicType → AtomicType
  | null, b => b
  | a, null => a
  | date, timestamp => timestamp
  | a, _ => a

end AtomicType

inductive TimeUnit where
  | second | minute | hour | day | week | month | quarter | year
  deriving DecidableEq, Repr

namespace TimeUnit

def name : TimeUnit → String
  | second => "second"
  | minute => "minute"
  | hour => "hour"
  | day => "day"
  | week => "week"
  | month => "month"
  | quarter => "quarter"
  | year => "year"

instance : Named TimeUnit := ⟨[second, minute, hour, day, week, month, quarter, year], name⟩

def isSubDay : TimeUnit → Bool
  | second | minute | hour => true
  | _ => false

end TimeUnit

inductive ExtractUnit where
  | second | minute | hour | day | dayOfWeek | dayOfYear | week | month | quarter | year
  deriving DecidableEq, Repr

namespace ExtractUnit

def name : ExtractUnit → String
  | second => "second"
  | minute => "minute"
  | hour => "hour"
  | day => "day"
  | dayOfWeek => "day_of_week"
  | dayOfYear => "day_of_year"
  | week => "week"
  | month => "month"
  | quarter => "quarter"
  | year => "year"

instance : Named ExtractUnit :=
  ⟨[second, minute, hour, day, dayOfWeek, dayOfYear, week, month, quarter, year], name⟩

def isSubDay : ExtractUnit → Bool
  | second | minute | hour => true
  | _ => false

end ExtractUnit

inductive AggregateFunction where
  | count | countDistinct | sum | avg | min | max
  deriving DecidableEq, Repr

namespace AggregateFunction

def name : AggregateFunction → String
  | count => "count"
  | countDistinct => "count_distinct"
  | sum => "sum"
  | avg => "avg"
  | min => "min"
  | max => "max"

instance : Named AggregateFunction := ⟨[count, countDistinct, sum, avg, min, max], name⟩

def isFanoutSensitive : AggregateFunction → Bool
  | count | sum | avg => true
  | _ => false

end AggregateFunction

inductive UnaryOp where
  | not | neg
  deriving DecidableEq, Repr

namespace UnaryOp

def name : UnaryOp → String
  | not => "not"
  | neg => "neg"

instance : Named UnaryOp := ⟨[not, neg], name⟩

def symbol : UnaryOp → String
  | not => "not"
  | neg => "-"

end UnaryOp

inductive BinaryOp where
  | add | sub | mul | div | mod | eq | ne | lt | lte | gt | gte | and | or | like | notLike | coalesce
  deriving DecidableEq, Repr

namespace BinaryOp

def name : BinaryOp → String
  | add => "add"
  | sub => "sub"
  | mul => "mul"
  | div => "div"
  | mod => "mod"
  | eq => "eq"
  | ne => "ne"
  | lt => "lt"
  | lte => "lte"
  | gt => "gt"
  | gte => "gte"
  | and => "and"
  | or => "or"
  | like => "like"
  | notLike => "not_like"
  | coalesce => "coalesce"

instance : Named BinaryOp :=
  ⟨[add, sub, mul, div, mod, eq, ne, lt, lte, gt, gte, and, or, like, notLike, coalesce], name⟩

def symbol : BinaryOp → String
  | add => "+"
  | sub => "-"
  | mul => "*"
  | div => "/"
  | mod => "%"
  | eq => "="
  | ne => "!="
  | lt => "<"
  | lte => "<="
  | gt => ">"
  | gte => ">="
  | and => "and"
  | or => "or"
  | like => "~"
  | notLike => "!~"
  | coalesce => "??"

end BinaryOp

inductive UngroupKind where
  | all | exclude
  deriving DecidableEq, Repr

namespace UngroupKind

def name : UngroupKind → String
  | all => "all"
  | exclude => "exclude"

instance : Named UngroupKind := ⟨[all, exclude], name⟩

end UngroupKind

inductive JoinKind where
  | one | many | cross
  deriving DecidableEq, Repr

namespace JoinKind

def name : JoinKind → String
  | one => "one"
  | many => "many"
  | cross => "cross"

instance : Named JoinKind := ⟨[one, many, cross], name⟩

def isMany : JoinKind → Bool
  | one => false
  | many | cross => true

end JoinKind

inductive SortDirection where
  | asc | desc
  deriving DecidableEq, Repr

namespace SortDirection

def name : SortDirection → String
  | asc => "asc"
  | desc => "desc"

instance : Named SortDirection := ⟨[asc, desc], name⟩

end SortDirection

end SemanticLayer
