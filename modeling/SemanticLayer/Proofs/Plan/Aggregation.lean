import SemanticLayer.Proofs.Elaborate.Locality
import SemanticLayer.Proofs.Elaborate.WellFormed
import SemanticLayer.Proofs.Plan.Acyclic
import SemanticLayer.Proofs.Plan.Rendered

/-!
Aggregates do not nest. The level of an expression tells whether there is an aggregate in it, and what is aggregated
or filtered on is scalar: there is none in it, nor in a definition that it comes to.
-/
namespace SemanticLayer

open List

namespace Expr

/-- The argument of an aggregate, or the condition of a filter. -/
def guarded? : Expr → Option Expr
  | aggregate _ _ arg => arg
  | filtered _ condition => some condition
  | _ => none

theorem guarded_scalar {x : Expr} (level : x.level? n = some l) (is : x.guarded? = some a) :
    a.level? n = some .scalar := by
  cases x with
  | aggregate function locality arg =>
    cases is
    exact (aggregate_level level).2.2.2
  | filtered inner condition =>
    cases is
    exact (filtered_level level).2.2
  | _ => cases is

end Expr

namespace Elaborate

open Memo

/-- What expressions over a block may refer to by name: fields that are there, and declarations that are done unless
these are inlined. -/
def Scope.names (s : Scope) (memo : Memo) : Names :=
  if s.inlining then Names.of s.root else bodyNames s.root memo

/-- An expression over a block with an aggregate in it, or in a definition that it comes to. -/
inductive Scope.Aggregates (s : Scope) (memo : Memo) : Expr → Prop where
  | own : Aggregates s memo (.aggregate function locality arg)
  | part {p e : Expr} (mem : p ∈ e.parts) (inner : Aggregates s memo p) : Aggregates s memo e
  | field (defined : Plan.definitionOf s.root path = .ok (joins, owner, d)) (inner : d.Aggregates owner) :
      Aggregates s memo (.field path)
  | declared (named : s.inlining = false) (recorded : memo.lookup name = some (.ok t))
      (inner : Aggregates s memo t.expr) : Aggregates s memo (.field [name])

/-- The outcomes after some expressions of a block were elaborated. -/
def Scope.after (s : Scope) (known : Memo) (earlier : List Document.Expr) : Memo :=
  earlier.foldl (fun memo e => ((s.typed e).run.run memo).2) known

theorem after_holds {s : Scope} {J : Judgement Keeps} (judges : s.Judges J known) (earlier : List Document.Expr) :
    (s.discipline J.Good known []).Holds (s.after known earlier) :=
  foldlRecOn earlier _ ⟨.known, forall_mem_nil _⟩ fun _ holds e _ => (typed_ensures judges e holds).1

/-- The blocks of stages and the bodies of sources, before anything was elaborated in them. -/
def Scope.Starts (s : Scope) (known : Memo) : Prop := s.Staged known ∨ s.Bodied ∧ known = []

variable {s : Scope}

theorem root_le_names (s : Scope) (memo : Memo) : Names.of s.root ≤ s.names memo := by
  unfold Scope.names
  split
  · exact ⟨fun _ _ => id, fun _ => id, fun _ => id⟩
  · exact draft_le_body s.root memo

/-- Outcomes that are referred to by name are leveled, and hide no field. -/
def Scope.Told (s : Scope) (memo : Memo) : Prop :=
  s.inlining = false → ∀ {name t}, memo.lookup name = some (.ok t) →
    s.root.lookup? name = none ∧ t.expr.level? (s.names memo) = some t.level

theorem starts_told (starts : s.Starts known) {e : Document.Expr}
    (accepted : (s.typed e).run.run (s.after known earlier) = (.ok t, memo)) :
    t.expr.level? (s.names memo) = some t.level ∧ s.Told memo := by
  rcases starts with staged | ⟨body, rfl⟩
  · have ensures := typed_ensures (staged_judges staged) e (after_holds (staged_judges staged) earlier)
    rw [accepted] at ensures
    rw [Scope.names, if_pos staged.inlining]
    refine ⟨ensures.2.2.level, fun named => ?_⟩
    cases named.symm.trans staged.inlining
  · have ensures := typed_ensures (body_judges body) e (after_holds (body_judges body) earlier)
    rw [accepted] at ensures
    have names : s.names memo = bodyNames s.root memo := by rw [Scope.names, body.named, if_neg (by simp)]
    rw [Scope.Told, names]
    refine ⟨ensures.2.2.level, fun _ {name t} found => ⟨body.fresh ?_, ?_⟩⟩
    · exact (grounded_present ensures.1.1 found).resolve_right (by simp)
    · exact (grounded_yields (body_judges body) ensures.1.1 found).level

theorem scalar_unaggregated (sound : FieldsSound s.root) (told : s.Told memo) {e : Expr}
    (level : e.level? (s.names memo) = some .scalar) : ¬s.Aggregates memo e := by
  intro aggregates
  induction aggregates with
  | own => cases (Expr.aggregate_level level).1
  | part mem _ ih =>
    obtain ⟨l, inner, scalar⟩ := Expr.level_parts level _ mem
    exact ih (scalar rfl ▸ inner)
  | field defined inner =>
    obtain ⟨l, named⟩ := Namespace.level_of_definition defined
    cases level.symm.trans ((root_le_names s memo).1 _ _ named)
    obtain ⟨_, _, _, _, _, _, owned, defined', level⟩ := sound.definition named
    cases defined.symm.trans defined'
    exact owned.scalar_plain level inner
  | @declared name t named recorded _ ih =>
    obtain ⟨fresh, leveled⟩ := told named recorded
    have here : (s.names memo).level [name] = some t.level := by
      rw [Scope.names, named]
      show bodyLevel s.root memo [name] = some t.level
      rw [bodyLevel, Namespace.level_single, fresh]
      simp [recordedLevel, recorded]
    rw [Expr.level?, here] at level
    exact ih (leveled.trans level)

end Elaborate

/-- No aggregate function stands in an argument of another. -/
def Sql.Expr.Unnested (e : Sql.Expr) : Prop :=
  ∀ function args distinct, (Sql.Expr.call function args distinct).Occurs e → function ∈ Sql.Expr.aggregateNames →
    ∀ a ∈ args, a.Plain

theorem Plan.PieceExpr.unnested (piece : Plan.PieceExpr F d ctes e) : e.Unnested := by
  intro function args distinct occurs
  rcases piece with neat | ⟨query, _, rfl⟩
  · exact neat _ occurs
  · cases occurs.leaf rfl

open Elaborate in
/-- Over a block of a stage or a body, wherever elaboration has got to, an expression that is accepted is an aggregate
just if there is an aggregate or a measure in it; what is aggregated or filtered on comes to none. So it is in the model:
measures come to aggregates, dimensions do not, nor do arguments and conditions in whatever a definition, a filter, a
join or a stage comes to. Hence no aggregate function of a planned statement stands in another, nor in what collects
the rows of a nest. -/
theorem aggregates_never_nest {m : Model} (built : Built m) :
    (∀ (s : Scope) known earlier e t memo, FieldsSound s.root → s.Starts known →
      (s.typed e).run.run (s.after known earlier) = (.ok t, memo) →
      (t.level = .aggregate ↔ t.expr.HasAggregate (s.names memo)) ∧
      ∀ x : Expr, x.Occurs t.expr → ∀ a ∈ x.guarded?, ¬s.Aggregates memo a) ∧
    (∀ ns key, m.Inputs ns key → FieldsSound ns ∧
      (∀ name f, ns.lookup? name = some (.dimension f) → ¬f.expr.Aggregates ns) ∧
      ∀ name f, ns.lookup? name = some (.measure f) → f.expr.Aggregates ns) ∧
    (∀ root key place ns e owner x, m.Inputs root key → root.within? place = some ns → m.Expresses ns e →
      Expr.ComesTo ns e owner x → ∀ a ∈ x.guarded?, ¬a.Aggregates owner) ∧
    ∀ q (d : Dialect) limit statement, m.Records q → q.plan d limit = .ok statement →
      (∀ select : Sql.Query, select.Within statement → ∀ e ∈ select.exprs, e.Unnested) ∧
      ∀ (n : Dialect.NestSource) collected, d.nest n = .ok (n.select collected) → collected.Plain := by
  have sound := built_sound built
  refine ⟨?_, ?_, ?_, ?_⟩
  · intro s known earlier e t memo fields starts accepted
    obtain ⟨level, told⟩ := starts_told starts accepted
    refine ⟨Expr.level_hasAggregate level, fun x occurs a is => ?_⟩
    obtain ⟨_, inner, _⟩ := Expr.occurs_level occurs level
    exact scalar_unaggregated fields told (Expr.guarded_scalar inner is)
  · intro ns key input
    obtain ⟨fields, _⟩ := sound.input input
    refine ⟨fields, fun name f found => ?_, fun name f found => ?_⟩
    · cases fields.fits found with
      | defined defined => cases defined with | dimension level => exact fields.scalar_plain level
    · cases fields.fits found with
      | defined defined => cases defined with | measure level => exact fields.aggregates level
  · intro root key place ns e owner x input within given comes a is
    obtain ⟨l, level⟩ := sound.level given
    obtain ⟨fields, _, inner⟩ := comes.leveled ((sound.input input).1.within within) level
    exact fields.scalar_plain (Expr.guarded_scalar inner is)
  · intro q d limit statement recorded planned
    refine ⟨fun select inside e mem => ?_, fun n collected built => ?_⟩
    · have sound : Plan.soundQueries.query q := sound.recorded recorded
      obtain ⟨ctes, last, rfl, listed, emitted, _⟩ := Plan.plan_emitted sound planned
      rcases Plan.statement_pieces listed emitted inside with piece | rfl
      · exact (piece.inner.exprs e mem).unnested
      · exact (emitted.pieces e mem).unnested
    · refine (Sql.nest_made (P := fun e => e.Neat d (fun _ => True) (fun _ _ => True) ∧ e.Plain) ?_ built).2
      exact fun _ => ⟨Sql.Expr.each_column.mpr trivial, Sql.Expr.each_column.mpr nofun⟩

namespace Elaborate

def orderBody : Scope :=
  ⟨"file:///shop.model", orderSource.fields,
    [⟨⟨"revenue", default⟩, summed none (withTotal ["items", "price"]), default⟩], false⟩

/-- A measure that is declared below is an aggregate, and what it sums is not. -/
theorem revenue_never_nests : Built (document shopTables shop) ∧ FieldsSound orderBody.root ∧ orderBody.Starts [] ∧
    ∃ t memo, (orderBody.typed (fieldAt ["revenue"])).run.run (orderBody.after [] []) = (.ok t, memo) ∧
      t.expr = .field ["revenue"] ∧ t.level = .aggregate ∧ t.expr.HasAggregate (orderBody.names memo) := by
  have built : Built (document shopTables shop) := .document _ _ fun _ _ found => by cases found
  have sound : FieldsSound orderBody.root := source_fields_sound built orders_named
  have starts : orderBody.Starts [] := .inr ⟨⟨rfl, fun {name} declared => by
    by_cases is : name = "revenue"
    · subst is
      rfl
    · simp [orderBody, Scope.declaration?, Ne.symm is] at declared⟩, rfl⟩
  obtain ⟨t, memo, accepted⟩ : ∃ t memo, (orderBody.typed (fieldAt ["revenue"])).run.run (orderBody.after [] []) =
    (.ok t, memo) := ⟨_, _, rfl⟩
  have level : t.level = .aggregate := by
    cases accepted
    rfl
  obtain ⟨iff, _⟩ := (aggregates_never_nest built).1 _ _ _ _ _ _ sound starts accepted
  exact ⟨built, sound, starts, t, memo, accepted, by cases accepted; rfl, level, iff.mp level⟩

end Elaborate

end SemanticLayer
