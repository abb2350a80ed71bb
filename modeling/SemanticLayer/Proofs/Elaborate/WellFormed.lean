import SemanticLayer.Proofs.Plan.Accepted

/-!
The stages that elaboration builds. Whatever they come from, whether blocks, views, refinements of either, other
queries or nests, they fit the fields that they read and the place where they stand.
-/
namespace SemanticLayer

open List

/-- An expression with an aggregate in it, or in a definition that it comes to. -/
inductive Expr.Aggregates : Namespace → Expr → Prop where
  | own {ns : Namespace} {function : AggregateFunction} {locality : List String} {arg : Option Expr} :
      Aggregates ns (.aggregate function locality arg)
  | part {ns : Namespace} {p e : Expr} (mem : p ∈ e.parts) (inner : Aggregates ns p) : Aggregates ns e
  | field {ns owner : Namespace} {path joins : List String} {d : Expr}
      (defined : Plan.definitionOf ns path = .ok (joins, owner, d)) (inner : Aggregates owner d) :
      Aggregates ns (.field path)

theorem FieldsSound.scalar_plain {e : Expr} (sound : FieldsSound ns)
    (level : e.level? (Names.of ns) = some .scalar) : ¬ e.Aggregates ns := by
  intro aggregates
  induction aggregates with
  | own => cases (Expr.aggregate_level level).1
  | part mem _ ih =>
    obtain ⟨l, inner, scalar⟩ := Expr.level_parts level _ mem
    exact ih sound (scalar rfl ▸ inner)
  | field defined _ ih =>
    obtain ⟨_, _, _, _, _, _, sound, defined', level⟩ := sound.definition level
    cases defined.symm.trans defined'
    exact ih sound level

theorem Expr.levelList_aggregate (level : levelList n es = some .aggregate) :
    ∃ e ∈ es, e.level? n = some .aggregate := by
  induction es with
  | nil => cases level
  | cons e rest ih =>
    obtain ⟨x, y, first, second, most⟩ := Level.both_eq_some level
    cases x with
    | aggregate => exact ⟨e, mem_cons_self, first⟩
    | scalar =>
      cases y with
      | scalar => cases most
      | aggregate =>
        obtain ⟨e, mem, level⟩ := ih second
        exact ⟨e, mem_cons_of_mem _ mem, level⟩

/-- An aggregate, or a reference to a measure. -/
def Expr.IsAggregate (n : Names) : Expr → Prop
  | aggregate _ _ _ => True
  | field path => n.level path = some .aggregate
  | _ => False

def Expr.HasAggregate (n : Names) (e : Expr) : Prop := ∃ x : Expr, x.Occurs e ∧ x.IsAggregate n

theorem Expr.occurs_level {x : Expr} (occurs : x.Occurs e) (level : e.level? n = some l) :
    ∃ l', x.level? n = some l' ∧ (l = .scalar → l' = .scalar) := by
  induction occurs generalizing l with
  | here => exact ⟨l, level, id⟩
  | part mem _ ih =>
    obtain ⟨_, part, scalar⟩ := level_parts level _ mem
    obtain ⟨l', inner, scalar'⟩ := ih part
    exact ⟨l', inner, fun is => scalar' (scalar is)⟩

theorem Expr.level_hasAggregate {e : Expr} (level : e.level? n = some l) : l = .aggregate ↔ e.HasAggregate n := by
  constructor
  · rintro rfl
    induction e using parts_induction with
    | step e ih =>
      have deeper {p : Expr} (mem : p ∈ e.parts) (level : p.level? n = some .aggregate) : e.HasAggregate n := by
        obtain ⟨x, occurs, is⟩ := ih p mem level
        exact ⟨x, .part mem occurs, is⟩
      cases e with
      | column => cases (column_level level).1
      | aggregate => exact ⟨_, .here, trivial⟩
      | field path =>
        exact ⟨_, .here, level⟩
      | filtered => exact deeper mem_cons_self (filtered_level level).2.1
      | ungroup => exact deeper mem_cons_self (ungroup_level level).2
      | _ =>
        rw [level?_operation rfl] at level
        obtain ⟨p, mem, level⟩ := levelList_aggregate level
        exact deeper mem level
  · rintro ⟨x, occurs, is⟩
    obtain ⟨l', inner, scalar⟩ := occurs_level occurs level
    cases l with
    | aggregate => rfl
    | scalar =>
      cases scalar rfl
      cases x with
      | aggregate => cases (aggregate_level inner).1
      | field path =>
        cases inner.symm.trans is
      | _ => cases is

theorem Expr.any_occurs {x : Expr} {test : Expr → Bool} (occurs : x.Occurs e) (holds : x.any test = true) :
    e.any test = true := by
  induction occurs with
  | here => exact holds
  | part mem _ ih => exact any_part mem ih

theorem Expr.Aggregates.occurs {x : Expr} (occurs : x.Occurs e) (inner : x.Aggregates ns) : e.Aggregates ns := by
  induction occurs with
  | here => exact inner
  | part mem _ ih => exact .part mem ih

theorem FieldsSound.aggregates {e : Expr} (sound : FieldsSound ns)
    (level : e.level? (Names.of ns) = some .aggregate) : e.Aggregates ns := by
  refine follow_bound (K := 0) (S := fun _ _ ns e => e.level? (Names.of ns) = some .aggregate → e.Aggregates ns)
    ?_ ns.size rfl sound level [] (le_refl _) level
  intro _ _ ns e _ sound _ _ follows level
  obtain ⟨x, occurs, is⟩ := (Expr.level_hasAggregate level).mp rfl
  refine .occurs occurs ?_
  cases x with
  | aggregate => exact .own
  | field path =>
    obtain ⟨_, _, _, _, _, _, _, defined, leveled⟩ := sound.definition is
    exact .field defined (follows (Expr.any_occurs occurs (Expr.field_refersTo path)) defined leveled)
  | _ => cases is

/-- A column of a stage: dimensions are free of aggregates, and measures are not. -/
def OutputField.WellFormed (input : Namespace) : OutputField → Prop
  | .dimension f => ¬ f.expr.Aggregates input
  | .measure f => f.expr.Aggregates input
  | .nest _ => True

/-- A stage over some input as planning may count on it. -/
def Stage.WellFormed (input : Namespace) (stage : Stage) : Prop :=
  (∀ f ∈ stage.filters, ¬ f.expr.Aggregates input) ∧
    match stage with
    | .reduce fields having orderBy _ =>
      fields ≠ [] ∧ (fields.map OutputField.name).Nodup ∧ (∀ f ∈ fields, f.WellFormed input) ∧
        (∀ f ∈ having, f.expr.Aggregates input) ∧ Sorted fields orderBy
    | .project fields orderBy _ =>
      fields ≠ [] ∧ (fields.map OutputField.name).Nodup ∧
        (∀ f ∈ fields, ∃ x, f = .dimension x ∧ ¬ x.expr.Aggregates input) ∧ Sorted fields orderBy
    | .index fields weight _ => fields ≠ [] ∧ ∀ e ∈ weight, e.Aggregates input

theorem OutputSound.wellFormed (sound : OutputSound (Names.of input) f) (fields : FieldsSound input) :
    f.WellFormed input := by
  cases sound with
  | dimension level => exact fields.scalar_plain level
  | measure level => exact fields.aggregates level
  | nest => trivial

theorem StageSound.wellFormed (sound : StageSound (Names.of input) stage) (fields : FieldsSound input) :
    stage.WellFormed input := by
  cases sound with
  | reduce nonempty distinct outputs groups rows sorted =>
    exact ⟨fun f mem => fields.scalar_plain (rows f mem), nonempty, distinct,
      fun f mem => (outputs f mem).wellFormed fields, fun f mem => fields.aggregates (groups f mem), sorted⟩
  | project nonempty distinct outputs dimensions rows sorted =>
    refine ⟨fun f mem => fields.scalar_plain (rows f mem), nonempty, distinct, fun f mem => ?_, sorted⟩
    obtain ⟨x, rfl⟩ := dimensions f mem
    exact ⟨x, rfl, (outputs _ mem).wellFormed fields⟩
  | index nonempty _ weights rows =>
    exact ⟨fun f mem => fields.scalar_plain (rows f mem), nonempty, fun e mem => fields.aggregates (weights e mem)⟩

namespace Elaborate

theorem Calm.unsampled (calm : Calm False stages) : ∀ stage ∈ stages, stage.sample = none := by
  induction stages with
  | nil => exact forall_mem_nil _
  | cons stage rest ih =>
    cases calm with
    | cons sample _ later => exact forall_mem_cons.mpr ⟨by simpa using sample, ih later⟩

theorem plain_holds (plain : ∀ stage ∈ stages, ∀ x ∈ stage.nests, Plain x) (holds : StagesHold stages n) : Plain n := by
  induction holds with
  | here mem nest => exact plain _ mem _ nest
  | inside mem nest _ ih => cases plain _ mem _ nest with | mk _ inner => exact ih inner

end Elaborate

/-- The stages in a model that elaboration gives are well formed, those of nests included. Only the first one of a
query or view may read a sample, and only if its source is a table; stages of nests are neither sampled nor an
index. -/
theorem built_stages_wellFormed {m : Model} (built : Elaborate.Built m) {s : Source} {stages : List Stage}
    (runs : m.Runs s stages) :
    (∀ input stage, StagesOver s.fields stages input stage → stage.WellFormed input) ∧
      (∀ stage ∈ stages.tail, stage.sample = none) ∧
      (∀ stage ∈ stages.head?, stage.sample.isSome = true → s.origin.isTable = true) ∧
      ∀ n, StagesHold stages n → ∀ stage ∈ n.stages, stage.kind ≠ .index ∧ stage.sample = none := by
  obtain ⟨source, sound, calm⟩ := (Elaborate.built_sound built).staged runs
  refine ⟨fun input stage reads => ?_, ?_, ?_, fun n holds => ?_⟩
  · obtain ⟨fields, stageSound⟩ := reads.sound source.sound.fields sound
    exact stageSound.wellFormed fields
  · cases calm with
    | nil => exact List.forall_mem_nil _
    | cons _ _ later => exact later.unsampled
  · cases calm with
    | nil => simp
    | cons sample => simpa using sample
  · cases Elaborate.plain_holds (fun _ => calm.nests) holds with | mk plain => exact plain

open Elaborate in
theorem topOrigins_wellFormed : Built (document flights ⟨[topOrigins]⟩) ∧
    (document flights ⟨[topOrigins]⟩).Runs topOriginsQuery.source topOriginsQuery.stages ∧
    ∀ n, StagesHold topOriginsQuery.stages n → ∀ stage ∈ n.stages, stage.kind ≠ .index ∧ stage.sample = none := by
  have built : Built (document flights ⟨[topOrigins]⟩) := .document _ _ nofun
  have runs : (document flights ⟨[topOrigins]⟩).Runs topOriginsQuery.source topOriginsQuery.stages :=
    .query topOrigins_recorded
  exact ⟨built, runs, (built_stages_wellFormed built runs).2.2.2⟩

end SemanticLayer
