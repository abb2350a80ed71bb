import Mathlib
import SemanticLayer.Proofs.Elaborate.Contents
import SemanticLayer.Proofs.Plan.Query

/-!
Whatever elaboration accepts can be planned.
-/
namespace SemanticLayer

open List

/-- Every query that a model records has a statement, if no expression that it comes to is widened and its
nests leave room for the columns that planning adds. -/
theorem recorded_query_plans {m : Model} (built : Elaborate.Built m) {q : Query} (recorded : m.Records q)
    (plain : ∀ r, q.Draws r → ∀ ns e, r.Reaches ns e → e.containsUngroup = false)
    (nests : ∀ r, q.Draws r → ∀ n, StagesHold r.stages n → n.Fits) (limit : Option Nat) :
    ∃ statement, q.plan .duckdb limit = .ok statement := by
  have sound := (Elaborate.built_sound built).recorded recorded
  obtain ⟨select, progress, planned, _⟩ := Plan.planWithin_ok q.depth (Nat.le_refl _) sound
    (fun r draws => ⟨plain r draws _ _, nests r draws _⟩) ⟨[], 0⟩ trivial
  exact ⟨_, by rw [Query.plan, planned]; rfl⟩

mutual

/-- What a query comes to is the least that is closed and holds what it reads itself. -/
theorem Query.Reaches.least {q : Query} (closed : Closed R J)
    (filters : ∀ f ∈ q.source.filters, R q.source.fields f.expr)
    (stages : ∀ {ns e}, StagesRead q.source.fields q.stages ns e → R ns e) :
    q.Reaches ns e → R ns e
  | .filter mem => filters _ mem
  | .stage reads => stages reads
  | .definition reached refers defined => closed.definition (reached.least closed filters stages) refers defined
  | .condition joined is => closed.condition (joined.least closed filters stages) is
  | .restriction joined mem => closed.restriction (joined.least closed filters stages) mem

theorem Query.ReachesJoin.least {q : Query} (closed : Closed R J)
    (filters : ∀ f ∈ q.source.filters, R q.source.fields f.expr)
    (stages : ∀ {ns e}, StagesRead q.source.fields q.stages ns e → R ns e) :
    q.ReachesJoin ns j → J ns j
  | .read reached reads within found =>
    closed.read (reached.least closed filters stages) reads within found

end

namespace Elaborate

def flights : Inputs :=
  ⟨"file:///flights.model", ⟨[("flights", .known [⟨"carrier", .string⟩, ⟨"origin", .string⟩])], []⟩,
    fun _ => .duckdb, []⟩

def topOrigins : Document.Statement :=
  .query none
    ⟨.source (.table none "flights" default),
      [.stage ⟨[.groupBy [.reference ⟨["carrier"], default⟩ []],
        .nest [.define ⟨"origins", default⟩
          [.stage ⟨[.groupBy [.reference ⟨["origin"], default⟩ []],
              .aggregate [.define ⟨⟨"landings", default⟩, ⟨.aggregate .count none none, default⟩, default⟩],
              .limit 5 default], default⟩,
            .stage ⟨[.project [.reference ⟨["origin"], default⟩ []], .limit 3 default], default⟩] default]],
        default⟩], default⟩ default

def topOriginsQuery : Query :=
  let location : Location := ⟨"file:///flights.model", default⟩
  let column (name : String) : ExprField := ⟨name, .field [name], .string, location⟩
  let origins : List Stage :=
    [.reduce [.dimension (column "origin"), .measure ⟨"landings", .aggregate .count [] none, .number, location⟩]
        [] [⟨"landings", .desc⟩] ⟨[], some 5, none⟩,
      .project [.dimension (column "origin")] [] ⟨[], some 3, none⟩]
  ⟨none, ⟨"flights", .table "flights" none,
      Namespace.ofColumns [⟨"carrier", .string⟩, ⟨"origin", .string⟩] location, none, [], location⟩,
    [.reduce [.dimension (column "carrier"), .nest ⟨"origins", origins, location⟩]
      [] [⟨"carrier", .asc⟩] ⟨[], none, none⟩], location⟩

theorem topOrigins_recorded : (document flights ⟨[topOrigins]⟩).Records topOriginsQuery := by
  have queries : (document flights ⟨[topOrigins]⟩).queries = [.ok topOriginsQuery] := by cbv
  exact .inr (queries ▸ mem_cons_self)

theorem topOrigins_flat (reached : topOriginsQuery.Reaches ns e) : FlatExpr ns e := by
  refine reached.least flat_closed (fun _ mem => by cases mem) fun {ns e} reads => ?_
  have plain {e : Expr} {es : List Expr} (mem : e ∈ es) (all : es.all (fun e => !e.containsUngroup) = true) :
      e.containsUngroup = false := by
    simpa using all_eq_true.mp all e mem
  cases reads with
  | later reads => cases reads
  | first reads =>
    cases reads with
    | own mem => exact ⟨flat_ofColumns _ _, plain mem rfl⟩
    | nest mem reads =>
      cases mem_singleton.mp mem
      cases reads with
      | first reads =>
        cases reads with
        | own mem => exact ⟨flat_ofColumns _ _, plain mem rfl⟩
        | nest mem => cases mem
      | later reads =>
        cases reads with
        | later reads => cases reads
        | first reads =>
          cases reads with
          | own mem => exact ⟨flat_ofResult _ _, plain mem rfl⟩
          | nest mem => cases mem

theorem topOrigins_draws (draws : topOriginsQuery.Draws r) : r = topOriginsQuery := by
  cases draws with
  | self => rfl
  | source origin => cases origin
  | join joined =>
    cases joined with
    | read reached reads within found => exact (flat_closed.read (topOrigins_flat reached) reads within found).elim

theorem topOrigins_fits (holds : StagesHold topOriginsQuery.stages n) : n.Fits := by
  cases holds with
  | here mem nest =>
    cases mem_singleton.mp mem
    cases mem_singleton.mp nest
    refine ⟨fun stage mem f given => ?_, fun limit is => ?_⟩
    · rcases mem_cons.mp mem with rfl | mem
      · rcases mem_cons.mp given with rfl | given
        · decide +kernel
        · cases mem_singleton.mp given
          decide +kernel
      · cases mem_singleton.mp mem
        cases mem_singleton.mp given
        decide +kernel
    · cases is
      decide
  | inside mem nest inner =>
    cases mem_singleton.mp mem
    cases mem_singleton.mp nest
    -- the stages of the nest have none themselves
    cases inner with
    | here mem nest | inside mem nest =>
      rcases mem_cons.mp mem with rfl | mem
      · cases nest
      · cases mem_singleton.mp mem
        cases nest

theorem topOrigins_plans : Built (document flights ⟨[topOrigins]⟩) ∧
    (document flights ⟨[topOrigins]⟩).Records topOriginsQuery ∧
    ∃ statement, topOriginsQuery.plan .duckdb (some 100) = .ok statement := by
  have built : Built (document flights ⟨[topOrigins]⟩) := .document _ _ nofun
  refine ⟨built, topOrigins_recorded, recorded_query_plans built topOrigins_recorded ?_ ?_ _⟩
  · intro r draws ns e reached
    cases topOrigins_draws draws
    exact (topOrigins_flat reached).2
  · intro r draws n holds
    cases topOrigins_draws draws
    exact topOrigins_fits holds

end Elaborate

end SemanticLayer
