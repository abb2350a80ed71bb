import SemanticLayer.Proofs.Plan.Accepted
import SemanticLayer.Proofs.Plan.Pieces

/-!
The text of a planned statement is read as what was planned, wherever operands that are taken bare hold together.
-/
namespace SemanticLayer

/-- The text of an expression in a planned statement is the row of its operands and operators. Operators hold
all their operands but those that they take bare: the tested one of `IS NOT NULL`, the first of a null-safe
equality, and what a span of time is added to. It is read back as the expression just if these hold together
as well. -/
theorem expression_reads_back_iff {m : Model} (built : Elaborate.Built m) {q : Query} (recorded : m.Records q)
    {d : Dialect} {limit : Option Nat} {statement : Sql.Query} (planned : q.plan d limit = .ok statement)
    {select : Sql.Query} (inside : select.Within statement) {e : Sql.Expr} (mem : e ∈ select.exprs) :
    e.tokens d = (e.items d).flatMap (Sql.Item.tokens d) ∧
      (e.ReadsBack d ↔ ∀ y : Sql.Expr, y.Occurs e → ∀ x ∈ y.bare?, y.strength d ≤ x.strength d) := by
  refine ⟨Sql.tokens_items d e, Sql.readsBack_of_sturdy ?_⟩
  have sound : Plan.soundQueries.query q := (Elaborate.built_sound built).recorded recorded
  obtain ⟨ctes, last, rfl, listed, emitted, _⟩ := Plan.plan_emitted sound planned
  rcases Plan.statement_pieces listed emitted inside with piece | rfl
  · exact (piece.inner.exprs e mem).sturdy
  · exact (emitted.pieces e mem).sturdy

namespace Elaborate

def flightFlags : Inputs :=
  ⟨"file:///flights.model", ⟨[("flights", .known [⟨"delayed", .boolean⟩, ⟨"cancelled", .boolean⟩])], []⟩,
    fun _ => .duckdb, []⟩

def disruptions : Document.Statement :=
  let column (name : String) : Document.Expr := ⟨.field ⟨[name], default⟩, default⟩
  .query none
    ⟨.source (.refine (.table none "flights" default)
        [.dimension [⟨⟨"disrupted", default⟩, ⟨.binary .or (column "delayed") (column "cancelled"), default⟩,
          default⟩]] default),
      [.stage ⟨[.index [.reference ⟨["disrupted"], default⟩ []] none], default⟩], default⟩ default

def disruptionsQuery : Query :=
  let location : Location := ⟨"file:///flights.model", default⟩
  ⟨none, ⟨"flights", .table "flights" none,
      (Namespace.ofColumns [⟨"delayed", .boolean⟩, ⟨"cancelled", .boolean⟩] location).insert "disrupted"
        (.dimension ⟨"disrupted", .binary .or (.field ["delayed"]) (.field ["cancelled"]), .boolean, location⟩),
      none, [], location⟩,
    [.index [⟨["disrupted"], .boolean⟩] none ⟨[], none, none⟩], location⟩

theorem disruptions_recorded : (document flightFlags ⟨[disruptions]⟩).Records disruptionsQuery := by
  have queries : (document flightFlags ⟨[disruptions]⟩).queries = [.ok disruptionsQuery] := by cbv
  exact .inr (queries ▸ List.mem_cons_self)

def disruptionsTest : Sql.Expr := (Plan.operation .or (.ofTable "base" "delayed") (.ofTable "base" "cancelled")).isNotNull

def disruptionsRows : Sql.Query :=
  let value := Plan.operation .or (.ofTable "base" "delayed") (.ofTable "base" "cancelled")
  { Sql.Query.empty with
    items := [.named (.string "disrupted") "fieldPath", .named (.plainCast value "VARCHAR") "fieldValue",
      .named (.fn "COUNT" [.int 1]) "weight"]
    source := some ⟨.table "flights", some "base"⟩, condition := some disruptionsTest, groupBy := [value] }

def disruptionsStatement : Sql.Query :=
  { Sql.Query.empty with
    ctes := [⟨"__index0", { Sql.Query.empty with unions := [disruptionsRows] }⟩]
    items := [⟨.ofColumn "fieldPath", none⟩, ⟨.ofColumn "fieldValue", none⟩, ⟨.ofColumn "weight", none⟩]
    source := some ⟨.cte "__index0", none⟩, orderBy := [⟨.ofColumn "weight", .desc, some .last⟩] }

theorem disruptions_planned : disruptionsQuery.plan .duckdb none = .ok disruptionsStatement := by cbv

theorem disruptionsRows_within : disruptionsRows.Within disruptionsStatement :=
  .cte List.mem_cons_self (.union List.mem_cons_self .self)

theorem disruptionsTest_mem : disruptionsTest ∈ disruptionsRows.exprs := by
  simp [Sql.Query.exprs, disruptionsRows]

theorem disruptions_read_back_iff : Built (document flightFlags ⟨[disruptions]⟩) ∧
    (document flightFlags ⟨[disruptions]⟩).Records disruptionsQuery ∧
    disruptionsQuery.plan .duckdb none = .ok disruptionsStatement ∧ disruptionsRows.Within disruptionsStatement ∧
    disruptionsTest ∈ disruptionsRows.exprs ∧
    (disruptionsTest.tokens .duckdb = (disruptionsTest.items .duckdb).flatMap (Sql.Item.tokens .duckdb) ∧
      (disruptionsTest.ReadsBack .duckdb ↔ ∀ y : Sql.Expr, y.Occurs disruptionsTest → ∀ x ∈ y.bare?,
        y.strength .duckdb ≤ x.strength .duckdb)) := by
  have built : Built (document flightFlags ⟨[disruptions]⟩) := .document _ _ nofun
  exact ⟨built, disruptions_recorded, disruptions_planned, disruptionsRows_within, disruptionsTest_mem,
    expression_reads_back_iff built disruptions_recorded disruptions_planned disruptionsRows_within
      disruptionsTest_mem⟩

/-- A disjunction is torn apart where its absence is tested: the test belongs to its second operand. -/
theorem disruptions_torn : Built (document flightFlags ⟨[disruptions]⟩) ∧
    (document flightFlags ⟨[disruptions]⟩).Records disruptionsQuery ∧
    disruptionsQuery.plan .duckdb none = .ok disruptionsStatement ∧ disruptionsRows.Within disruptionsStatement ∧
    disruptionsTest ∈ disruptionsRows.exprs ∧ ¬disruptionsTest.ReadsBack .duckdb ∧
    Sql.Groups .duckdb (disruptionsTest.items .duckdb) (.binary .or (.ofTable "base" "delayed")
      (Sql.Expr.isNotNull (.ofTable "base" "cancelled"))) := by
  refine ⟨.document _ _ nofun, disruptions_recorded, disruptions_planned, disruptionsRows_within,
    disruptionsTest_mem, ?_, ?_⟩
  · intro reads
    have fits := Sql.readsBack_iff.mp reads _ .here
    have held := (Sql.fits_trailing rfl).mp fits
    revert held
    decide
  · have row : disruptionsTest.items .duckdb = [.operand (.ofTable "base" "delayed"), .between (.binary .or),
        .operand (.ofTable "base" "cancelled"), .trailing (.isNull true)] := by
      rw [disruptionsTest, Sql.items_trailing rfl, Plan.operation, Sql.items_between rfl, Sql.items_operand rfl,
        Sql.items_operand rfl]
      rfl
    rw [row]
    have second : Sql.Groups .duckdb [.operand (.ofTable "base" "cancelled"), .trailing (.isNull true)]
        (Sql.Expr.isNotNull (.ofTable "base" "cancelled")) :=
      .trailing rfl (.operand rfl) (by decide)
    exact .between rfl (.operand rfl) second (by decide) (by decide)

end Elaborate

end SemanticLayer
