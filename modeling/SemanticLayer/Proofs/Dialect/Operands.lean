import SemanticLayer.Plan.Expr
import SemanticLayer.Proofs.Sql.Parts

/-!
Operands stay where they are put: every one of them stands in what is made of it, in all dialects.
-/
namespace SemanticLayer.Sql.Expr

open List

variable {a b x : Expr}

theorem occurs_parenthesized : a.Occurs a.parenthesized := by
  unfold parenthesized
  split
  all_goals first
    | exact .here
    | exact .part mem_cons_self .here

theorem Occurs.arg (mem : a ∈ args) (occurs : x.Occurs a) :
    x.Occurs (call function args distinct) := .part mem occurs

theorem Occurs.cast (occurs : x.Occurs a) :
    x.Occurs (Expr.cast a type kind) := .part mem_cons_self occurs

theorem Occurs.left (occurs : x.Occurs a) : x.Occurs (binary op a b) :=
  .part mem_cons_self occurs

theorem Occurs.right (occurs : x.Occurs b) : x.Occurs (binary op a b) :=
  .part (mem_cons_of_mem _ mem_cons_self) occurs

theorem Occurs.sequence {parts : List Expr} (mem : a ∈ parts) (occurs : x.Occurs a) :
    x.Occurs (Expr.sequence parts) := .part mem occurs

theorem occurs_compileUnary (op : SemanticLayer.UnaryOp) : a.Occurs (Plan.compileUnary op a) := by
  cases op <;> exact .part mem_cons_self occurs_parenthesized

theorem occurs_operation (op : BinaryOp) : a.Occurs (Plan.operation op a b) ∧ b.Occurs (Plan.operation op a b) :=
  ⟨.left occurs_parenthesized, .right occurs_parenthesized⟩

theorem occurs_compileBinary (op : SemanticLayer.BinaryOp) :
    a.Occurs (Plan.compileBinary op a b) ∧ b.Occurs (Plan.compileBinary op a b) := by
  cases op with
  | coalesce => exact ⟨.arg mem_cons_self .here, .arg (mem_cons_of_mem _ mem_cons_self) .here⟩
  | ne =>
    obtain ⟨left, right⟩ := occurs_operation .ne
    exact ⟨.arg mem_cons_self left, .arg mem_cons_self right⟩
  | _ => exact occurs_operation _

theorem occurs_dialectCast {d : Dialect} (ok : d.cast a type safe = .ok b) : a.Occurs b := by
  unfold Dialect.cast at ok
  split at ok
  · split at ok
    · cases ok; exact .cast .here
    · cases ok
  · cases ok; exact .cast .here

theorem occurs_shiftDay (d : Dialect) (back : Bool) : a.Occurs (d.shiftDay a back) := by
  unfold Dialect.shiftDay
  split
  · exact .sequence mem_cons_self .here
  · exact .arg (mem_of_getLast? rfl) .here
  · exact .sequence mem_cons_self .here

theorem occurs_truncateMonday (d : Dialect) (unit : TimeUnit) : a.Occurs (d.truncateMonday a unit) := by
  unfold Dialect.truncateMonday
  split
  · refine Occurs.trans ?_ (occurs_shiftDay d true)
    exact .arg (mem_of_getLast? rfl) (occurs_shiftDay d false)
  · exact .arg (mem_of_getLast? rfl) .here

theorem occurs_formatted : a.Occurs (Dialect.formatted a pattern type) :=
  .cast (.arg mem_cons_self .here)

theorem occurs_truncateCalendar (unit : TimeUnit) (type : AtomicType) :
    a.Occurs (Dialect.truncateCalendar a unit type) := by
  have onDay {x : Expr} (occurs : a.Occurs x) :
      a.Occurs (if type = .timestamp then plainCast x "DATETIME" else x) := by
    split
    · exact .cast occurs
    · exact occurs
  have part (function : String) : a.Occurs (fn function [a]) := .arg mem_cons_self .here
  cases unit with
  | second => exact occurs_formatted
  | minute => exact occurs_formatted
  | hour => exact occurs_formatted
  | day => exact onDay (part "DATE")
  | week => exact onDay (.arg mem_cons_self (part "DATE"))
  | month => exact onDay occurs_formatted
  | quarter => exact onDay (.arg mem_cons_self (.arg mem_cons_self (part "YEAR")))
  | year => exact onDay (.arg mem_cons_self (part "YEAR"))

theorem occurs_timeTruncate (d : Dialect) (unit : TimeUnit) (type : AtomicType) :
    a.Occurs (d.timeTruncate a unit type) := by
  have cast : a.Occurs (if type = .date then plainCast (d.truncateMonday a unit) "DATE"
      else d.truncateMonday a unit) := by
    split
    · exact .cast (occurs_truncateMonday d unit)
    · exact occurs_truncateMonday d unit
  cases d with
  | duckdb => exact cast
  | postgres => exact cast
  | bigquery => exact .arg mem_cons_self .here
  | snowflake => exact occurs_truncateMonday _ unit
  | mysql => exact occurs_truncateCalendar unit type

theorem occurs_timeExtract (d : Dialect) (unit : ExtractUnit) : a.Occurs (d.timeExtract a unit) := by
  have extracted (name : String) : a.Occurs (Dialect.extractPart name a) :=
    .sequence (mem_cons_of_mem _ mem_cons_self) .here
  have part (function : String) : a.Occurs (fn function [a]) := .arg mem_cons_self .here
  unfold Dialect.timeExtract
  split
  · exact extracted _
  · exact .left (part _)
  · exact part _
  · exact .sequence mem_cons_self (extracted _)
  · exact extracted _
  · exact part _
  · exact part _
  · exact extracted _
  · exact extracted _

theorem occurs_intervalParts (unit : TimeUnit) : a.Occurs (Dialect.intervalParts a unit).1 := by
  unfold Dialect.intervalParts
  split
  · exact .left occurs_parenthesized
  · exact .here

theorem occurs_keepDate (occurs : x.Occurs a) : x.Occurs (Dialect.keepDate a unit type) := by
  unfold Dialect.keepDate
  split
  · exact .cast occurs
  · exact occurs

theorem occurs_timeOffset (d : Dialect) (subtract : Bool) (unit : TimeUnit) (type : AtomicType) :
    a.Occurs (d.timeOffset a subtract b unit type) ∧ b.Occurs (d.timeOffset a subtract b unit type) := by
  have count : b.Occurs (plainCast (Dialect.intervalParts b unit).1 "INTEGER") := .cast (occurs_intervalParts unit)
  cases d with
  | duckdb =>
    exact ⟨occurs_keepDate (.left occurs_parenthesized), occurs_keepDate (.right (.arg mem_cons_self count))⟩
  | postgres =>
    have interval : b.Occurs (fn "MAKE_INTERVAL" [sequence [raw (Dialect.intervalArgument
        (Dialect.intervalParts b unit).2 ++ " => "), plainCast (Dialect.intervalParts b unit).1 "INTEGER"]]) :=
      .arg mem_cons_self (.sequence (mem_cons_of_mem _ mem_cons_self) count)
    exact ⟨occurs_keepDate (.sequence mem_cons_self occurs_parenthesized),
      occurs_keepDate (.sequence (mem_of_getLast? rfl) interval)⟩
  | bigquery =>
    have interval : b.Occurs (sequence [raw "INTERVAL ", plainCast b "INT64", raw (" " ++ unit.name.toUpper)]) :=
      .sequence (mem_cons_of_mem _ mem_cons_self) (.cast .here)
    unfold Dialect.timeOffset
    simp only
    split
    · exact ⟨.arg mem_cons_self .here, .arg (mem_of_getLast? rfl) interval⟩
    · split
      · exact ⟨.arg mem_cons_self .here, .arg (mem_of_getLast? rfl) interval⟩
      · exact ⟨.arg mem_cons_self (.arg mem_cons_self (.arg mem_cons_self .here)),
          .arg mem_cons_self (.arg (mem_of_getLast? rfl) interval)⟩
  | snowflake =>
    have signed : b.Occurs (if subtract then unary .neg b.parenthesized else b) := by
      split
      · exact .part mem_cons_self occurs_parenthesized
      · exact .here
    exact ⟨.arg (mem_of_getLast? rfl) .here, .arg (mem_cons_of_mem _ mem_cons_self) signed⟩
  | mysql =>
    exact ⟨.arg mem_cons_self .here, .arg (mem_of_getLast? rfl)
      (.sequence (mem_cons_of_mem _ mem_cons_self) occurs_parenthesized)⟩

end SemanticLayer.Sql.Expr
