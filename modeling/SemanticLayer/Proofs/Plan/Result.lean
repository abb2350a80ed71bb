import SemanticLayer.Compile
import SemanticLayer.Proofs.Plan.Accepted
import SemanticLayer.Proofs.Plan.Statement

/-!
The output schema of a query is what its statement puts out, whatever the dialect.
-/
namespace SemanticLayer

theorem Plan.Provides.of_columns :
    Provides ctes stages query → other.items = query.items → other.outputs = query.outputs →
      Provides ctes stages other
  | .last named inside each, items, outputs => .last (outputs ▸ named) (items ▸ inside) each
  | .later mem head tail, items, outputs => .later mem head (tail.of_columns items outputs)

/-- The columns of a planned statement are the fields of the output schema, in order. At any depth, the column of a
nest makes the fields of its own schema of each row that it collects. The schema is the same for every dialect and
row limit that the query is compiled for. -/
theorem statement_shows_schema {m : Model} (built : Elaborate.Built m) {q : Query} (recorded : m.Records q)
    {d : Dialect} {limit : Option Nat} {statement : Sql.Query} (planned : q.plan d limit = .ok statement) :
    statement.outputs = q.outputSchema.map ResultField.name ∧ Plan.Provides statement.ctes q.stages statement ∧
      ∀ ref options, m.find ref = .ok q → ∀ compiled, m.compileQuery options ref = .ok compiled →
        compiled.schema = q.outputSchema := by
  have sound : Plan.soundQueries.query q := (Elaborate.built_sound built).recorded recorded
  obtain ⟨ctes, last, rfl, _, stages⟩ := Plan.plan_emitted sound planned
  refine ⟨stages.outputs, stages.provides.of_columns rfl rfl, fun ref options found compiled run => ?_⟩
  rw [Model.compileQuery, found] at run
  obtain ⟨_, is, run⟩ := bind_eq_ok run
  cases is
  split at run <;> cases run
  rfl

namespace Elaborate

theorem topOrigins_shown : Built (document flights ⟨[topOrigins]⟩) ∧
    (document flights ⟨[topOrigins]⟩).Records topOriginsQuery ∧
    (document flights ⟨[topOrigins]⟩).find (.unnamed 0) = .ok topOriginsQuery ∧
    ∃ statement, topOriginsQuery.plan .duckdb none = .ok statement ∧ statement.outputs = ["carrier", "origins"] ∧
      Plan.Provides statement.ctes topOriginsQuery.stages statement ∧
      ∀ options compiled, (document flights ⟨[topOrigins]⟩).compileQuery options (.unnamed 0) = .ok compiled →
        compiled.schema = topOriginsQuery.outputSchema := by
  have built : Built (document flights ⟨[topOrigins]⟩) := .document _ _ nofun
  have found : (document flights ⟨[topOrigins]⟩).find (.unnamed 0) = .ok topOriginsQuery := by cbv
  have plans : (topOriginsQuery.plan .duckdb none).isOk = true := by cbv
  cases planned : topOriginsQuery.plan .duckdb none with
  | error fault => rw [planned] at plans; cases plans
  | ok statement =>
    obtain ⟨outputs, provides, schema⟩ := statement_shows_schema built topOrigins_recorded planned
    exact ⟨built, topOrigins_recorded, found, statement, rfl, outputs, provides, fun options => schema _ options found⟩

end Elaborate

end SemanticLayer
