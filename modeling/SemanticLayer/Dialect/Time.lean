import SemanticLayer.Sql.Tree

/-!
Time in SQL: truncation to a unit, parts of a time, and offsets. Weeks start on Sunday, and the day
of the week is one on Sunday.
-/
namespace SemanticLayer.Dialect

def now : Dialect → Sql.Expr
  | bigquery => .fn "CURRENT_TIMESTAMP" []
  | _ => .raw "CURRENT_TIMESTAMP"

def shiftDay (d : Dialect) (e : Sql.Expr) (back : Bool) : Sql.Expr :=
  match d with
  | postgres => .sequence [e, .raw (if back then " - INTERVAL '1 day'" else " + INTERVAL '1 day'")]
  | snowflake => .fn "DATEADD" [.raw "DAY", .int (if back then -1 else 1), e]
  | _ => .sequence [e, .raw (if back then " - INTERVAL 1 DAY" else " + INTERVAL 1 DAY")]

/-- Truncation where the dialect's own weeks start on Monday: the following day is truncated, and the
result moved back. -/
def truncateMonday (d : Dialect) (e : Sql.Expr) (unit : TimeUnit) : Sql.Expr :=
  let truncate (e : Sql.Expr) := Sql.Expr.fn "DATE_TRUNC" [.string unit.name, e]
  if unit = .week then d.shiftDay (truncate (d.shiftDay e false)) true else truncate e

def formatted (e : Sql.Expr) (pattern type : String) : Sql.Expr :=
  .plainCast (.fn "DATE_FORMAT" [e, .string pattern]) type

def truncateCalendar (e : Sql.Expr) (unit : TimeUnit) (type : AtomicType) : Sql.Expr :=
  let onDay (day : Sql.Expr) : Sql.Expr := if type = .timestamp then .plainCast day "DATETIME" else day
  match unit with
  | .second => formatted e "%Y-%m-%d %H:%i:%s" "DATETIME"
  | .minute => formatted e "%Y-%m-%d %H:%i:00" "DATETIME"
  | .hour => formatted e "%Y-%m-%d %H:00:00" "DATETIME"
  | .day => onDay (.fn "DATE" [e])
  | .week =>
    onDay (.fn "DATE_SUB"
      [.fn "DATE" [e],
       .sequence [.raw "INTERVAL ", .binary .sub (.fn "DAYOFWEEK" [e]) (.int 1), .raw " DAY"]])
  | .month => onDay (formatted e "%Y-%m-01" "DATE")
  | .quarter =>
    onDay (.fn "DATE_ADD"
      [.fn "MAKEDATE" [.fn "YEAR" [e], .int 1],
       .sequence [.raw "INTERVAL ", .binary .sub (.fn "QUARTER" [e]) (.int 1), .raw " QUARTER"]])
  | .year => onDay (.fn "MAKEDATE" [.fn "YEAR" [e], .int 1])

def timeTruncate (d : Dialect) (e : Sql.Expr) (unit : TimeUnit) (type : AtomicType) : Sql.Expr :=
  match d with
  | duckdb | postgres =>
    let truncated := d.truncateMonday e unit
    if type = .date then .plainCast truncated "DATE" else truncated
  | bigquery =>
    .fn (if type = .date then "DATE_TRUNC" else "TIMESTAMP_TRUNC") [e, .raw unit.name.toUpper]
  | snowflake => d.truncateMonday e unit
  | mysql => truncateCalendar e unit type

def extractPart (part : String) (e : Sql.Expr) : Sql.Expr :=
  .sequence [.raw ("EXTRACT(" ++ part ++ " FROM "), e, .raw ")"]

def timeExtract (d : Dialect) (e : Sql.Expr) (unit : ExtractUnit) : Sql.Expr :=
  match unit, d with
  | .dayOfWeek, bigquery => extractPart "DAYOFWEEK" e
  | .dayOfWeek, snowflake => .binary .add (.fn "DAYOFWEEK" [e]) (.int 1)
  | .dayOfWeek, mysql => .fn "DAYOFWEEK" [e]
  | .dayOfWeek, _ => .sequence [extractPart "DOW" e, .raw " + 1"]
  | .dayOfYear, bigquery => extractPart "DAYOFYEAR" e
  | .dayOfYear, snowflake | .dayOfYear, mysql => .fn "DAYOFYEAR" [e]
  | .dayOfYear, _ => extractPart "DOY" e
  | unit, _ => extractPart unit.name.toUpper e

def intervalParts (amount : Sql.Expr) (unit : TimeUnit) : Sql.Expr × TimeUnit :=
  match unit with
  | .quarter => (.binary .mul amount.parenthesized (.int 3), .month)
  | unit => (amount, unit)

def intervalArgument : TimeUnit → String
  | .second => "secs"
  | .minute => "mins"
  | .hour => "hours"
  | .day => "days"
  | .week => "weeks"
  | .month => "months"
  | .quarter | .year => "years"

/-- A sum with an interval is a timestamp; a date moved by whole days stays a date. -/
def keepDate (shifted : Sql.Expr) (unit : TimeUnit) (type : AtomicType) : Sql.Expr :=
  if type = .date ∧ unit.isSubDay = false then .plainCast shifted "DATE" else shifted

def timeOffset (d : Dialect) (e : Sql.Expr) (subtract : Bool) (amount : Sql.Expr) (unit : TimeUnit)
    (type : AtomicType) : Sql.Expr :=
  match d with
  | duckdb =>
    let (count, counted) := intervalParts amount unit
    let interval := Sql.Expr.fn ("TO_" ++ counted.name.toUpper ++ "S") [.plainCast count "INTEGER"]
    keepDate (.binary (if subtract then .sub else .add) e.parenthesized interval) unit type
  | postgres =>
    let (count, counted) := intervalParts amount unit
    let interval := Sql.Expr.fn "MAKE_INTERVAL"
      [.sequence [.raw (intervalArgument counted ++ " => "), .plainCast count "INTEGER"]]
    keepDate (.sequence [e.parenthesized, .raw (if subtract then " - " else " + "), interval]) unit type
  | bigquery =>
    let verb := if subtract then "SUB" else "ADD"
    let interval :=
      Sql.Expr.sequence [.raw "INTERVAL ", .plainCast amount "INT64", .raw (" " ++ unit.name.toUpper)]
    if type = .date then .fn ("DATE_" ++ verb) [e, interval]
    else if unit.isSubDay || unit = .day then .fn ("TIMESTAMP_" ++ verb) [e, interval]
    else .fn "TIMESTAMP" [.fn ("DATETIME_" ++ verb) [.fn "DATETIME" [e], interval]]
  | snowflake =>
    let amount := if subtract then .unary .neg amount.parenthesized else amount
    .fn "DATEADD" [.raw unit.name.toUpper, amount, e]
  | mysql =>
    .fn (if subtract then "DATE_SUB" else "DATE_ADD")
      [e, .sequence [.raw "INTERVAL ", amount.parenthesized, .raw (" " ++ unit.name.toUpper)]]

end SemanticLayer.Dialect
