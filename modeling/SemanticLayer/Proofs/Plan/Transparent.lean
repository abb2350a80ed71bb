import SemanticLayer.Proofs.Elaborate.Refinement
import SemanticLayer.Proofs.Plan.Accepted
import SemanticLayer.Proofs.Plan.Renaming
import SemanticLayer.Proofs.Plan.Statement

/-!
Renaming is transparent: a query over a source with a renamed field is planned as the same query over the source as
it was, where the field is called by its old name. For a join that holds if the query reads it under one of its names
only. Under both names it is joined twice; and under the old name it is joined behind all others.
-/
namespace SemanticLayer

open List

/-- A source of which one field got another name. -/
structure Source.Renamed (old new : String) (before after : Source) : Prop where
  fields : Renaming old new before.fields after.fields
  sound : SourceSound before
  name : after.name = before.name
  origin : after.origin = before.origin
  key : after.primaryKey = before.primaryKey
  filters : after.filters = before.filters

/-- What a query reads in its source: the filters of the source and what its first stage reads. -/
inductive Query.ReadsSource (q : Query) : Expr → Prop where
  | filter {f : Filter} (mem : f ∈ q.source.filters) : ReadsSource q f.expr
  | stage (starts : q.stages = first :: rest) (reads : first.ReadsInput e) :
      ReadsSource q e

/-- A query that reads a renamed join under one of its names only. Under the old name it reads no join that was declared
behind it. -/
def Query.ReadsOneName (q : Query) (old new : String) (before : Namespace) : Prop :=
  ∃ side, ∀ e, q.ReadsSource e → ∀ path, Plan.Needs q.source.fields [e] path → Shown (Plan.unread old new before side) path

section Levels

variable {ns : Namespace} {stage : Stage} {e : Expr}

theorem Stage.ReadsInput.level (reads : stage.ReadsInput e) (sound : StageSound (Names.of ns) stage) :
    ∃ l, e.level? (Names.of ns) = some l := by
  induction reads with
  | own mem => exact sound.level mem
  | nest mem starts _ ih =>
    obtain ⟨output, given, is⟩ := mem_filterMap.mp mem
    cases Plan.outputs_sound sound output given with
    | dimension | measure => cases is
    | nest _ _ stages =>
      cases is
      rw [starts] at stages
      cases stages with
      | cons first _ => exact ih first

theorem Query.ReadsSource.level (reads : q.ReadsSource e) (sound : QuerySound q) :
    ∃ l, e.level? (Names.of q.source.fields) = some l := by
  cases sound with
  | mk source _ stages _ =>
    cases reads with
    | filter mem =>
      cases source with
      | mk _ _ _ _ rows _ => exact ⟨_, rows _ mem⟩
    | stage starts reads =>
      rw [starts] at stages
      cases stages with
      | cons first _ => exact reads.level first

end Levels

namespace Plan

variable {old new : String} {before after : Source}

theorem slotsDepth_append (first second : List (Slot FieldDef)) :
    slotsDepth (first ++ second) = max (slotsDepth first) (slotsDepth second) := by
  induction first with
  | nil => rw [nil_append, slotsDepth, Nat.zero_max]
  | cons slot rest ih =>
    rw [cons_append, slotsDepth, slotsDepth, ih, Nat.max_assoc]

theorem renamed_depth (renamed : Source.Renamed old new before after) : after.depth = before.depth := by
  obtain ⟨field, first, last, entries, entries', _⟩ := renamed.fields.entries
  rw [source_depth, source_depth, renamed.origin, entries, entries']
  simp only [slotsDepth_append, slotsDepth]
  omega

def inputOf (relation : Sql.Relation) (source : Source) : Input :=
  ⟨relation, source.fields, source.primaryKey, source.filters.map Filter.expr⟩

theorem inputOf_renamed (renamed : Source.Renamed old new before after) (d : Dialect) (relation : Sql.Relation)
    (clear : ∀ f ∈ after.filters, Clear (unread old new before.fields side) after.fields f.expr) :
    (renamedWording old new (unread old new before.fields side) after.fields).Inputs d (inputOf relation after)
      (inputOf relation before) := by
  have sound : InputSound (inputOf relation before) := by
    cases renamed.sound with
    | mk sound _ _ key rows _ =>
      refine ⟨sound, key, fun e mem => ?_⟩
      obtain ⟨f, given, rfl⟩ := mem_map.mp mem
      exact rows f given
  have clears : ∀ e ∈ after.filters.map Filter.expr, Clear (unread old new before.fields side) after.fields e := by
    intro e mem
    obtain ⟨f, given, rfl⟩ := mem_map.mp mem
    exact clear f given
  exact inputs_renamed d (inputOf relation after) (inputOf relation before) renamed.fields sound rfl renamed.key.symm
    (congrArg (List.map Filter.expr) renamed.filters.symm) clears

variable {q : Query}

theorem planWithin_renamed (renamed : Source.Renamed old new before after) (d : Dialect) (source : q.source = after)
    (clear : ∀ e, q.ReadsSource e → Clear (unread old new before.fields side) after.fields e) :
    ∀ depth, Lockstep (Progress.Alike (renamedSpelling old new after.fields))
      (Sql.Query.Alike (renamedSpelling old new after.fields)) (planWithin d depth q)
      (planWithin d depth (q.respelled before (respell old new)))
  | 0 => by
    exact .fault
  | depth + 1 => by
    have inner : Planner.PlansAlike (renamedSpelling old new after.fields) ⟨d, planWithin d depth⟩ :=
      planWithin_lockstep _ d depth
    rw [planWithin, planWithin, planPipeline, planPipeline, Query.respelled]
    cases stages : q.stages with
    | nil => exact .fault
    | cons first rest =>
      rw [mapFirst]
      dsimp only
      rw [Stage.sample_mapPaths]
      unfold sourceInput
      have relations (p : Planner) : sourceRelation p after first.sample = sourceRelation p before first.sample := by
        rw [sourceRelation.eq_def, sourceRelation.eq_def, renamed.origin, renamed.name]
      rw [bind_assoc, bind_assoc, source, relations]
      refine .bind (sourceRelation_lockstep inner before first.sample) fun relation relation' same => ?_
      rw [same, pure_bind]
      have inputs := inputOf_renamed renamed d relation' fun f mem => clear _ (.filter (source ▸ mem))
      refine planStages_lockstep inner q.location _ (.inl rfl) inputs fun stage isFirst e reads => ?_
      cases isFirst
      exact clear _ (.stage stages reads)

theorem statement_alike {select : Sql.Query} (alike : select.Alike ρ select')
    (queries : List.Forall₂ (Sql.Cte.Alike ρ) ctes ctes') (limit : Option Nat) :
    Sql.Query.Alike ρ { select with ctes, limit := select.limit.or limit }
      { select' with ctes := ctes', limit := select'.limit.or limit } := by
  cases alike with
  | mk same _ unions =>
    have limited {ρ : Sql.Spelling} (same : select.AlikeSelect ρ select') : Sql.Query.AlikeSelect ρ
        { select with ctes, limit := select.limit.or limit } { select' with ctes := ctes', limit := select'.limit.or limit } :=
      { same with limit := congrArg (·.or limit) same.limit }
    exact .mk (same.imp limited limited) queries unions

/-- A query over a source with a renamed field has a statement if it has one over the source as it was, and they are alike. -/
theorem plan_renamed (renamed : Source.Renamed old new before after) (d : Dialect) (limit : Option Nat)
    (source : q.source = after)
    (clear : ∀ e, q.ReadsSource e → Clear (unread old new before.fields side) after.fields e) :
    Agree (Sql.Query.Alike (renamedSpelling old new after.fields)) (q.plan d limit)
      ((q.respelled before (respell old new)).plan d limit) := by
  have depth : (q.respelled before (respell old new)).depth = q.depth := by
    rw [query_depth, query_depth, source, renamed_depth renamed]
    rfl
  have both := planWithin_renamed renamed d source clear q.depth (t := ⟨[], 0⟩) ⟨.nil, rfl⟩
  have planned (q : Query) : q.plan d limit = ((planWithin d q.depth q).run ⟨[], 0⟩).map fun result =>
      { result.1 with ctes := result.2.ctes, limit := result.1.limit.or limit } := by
    unfold Query.plan
    cases (planWithin d q.depth q).run ⟨[], 0⟩ <;> rfl
  rw [planned, planned, depth]
  exact both.map fun result result' alike => statement_alike alike.1 alike.2.ctes limit

theorem shown_plain (renames : Renaming old new s r) (plain : ∀ j, s.lookup? old ≠ some (.join j))
    (level : ∃ l, e.level? (Names.of r) = some l) (needs : Needs r [e] path) :
    Shown (unread old new s true) path := by
  obtain ⟨nonempty, inner, within⟩ := needs_within renames.sound (by simpa using level) needs
  cases path with
  | nil => exact (nonempty rfl).elim
  | cons name rest =>
    rw [shown_cons, unread, mem_singleton]
    rintro rfl
    rw [Namespace.within?, renames.lookup, ite_self] at within
    obtain ⟨joined, found, _⟩ := Option.bind_eq_some_iff.mp within
    obtain ⟨field, found, is⟩ := Option.bind_eq_some_iff.mp found
    cases field with
    | join j => exact plain j found
    | dimension | measure | view | nested => cases is

theorem respelled_sound (renamed : Source.Renamed old new before after) (source : q.source = after)
    (sound : QuerySound q) : QuerySound (q.respelled before (respell old new)) := by
  cases sound with
  | mk _ nonempty stages sampled =>
    rw [source] at stages sampled
    refine .mk renamed.sound (fun empty => nonempty (mapFirst_eq_nil.mp empty)) (stages.mapFirst renamed.fields.names)
      fun starts => ?_
    exact renamed.origin ▸ sampled ((startsSampled_mapFirst q.stages).symm.trans starts)

end Plan

namespace Elaborate

theorem refine_rename (visible : base.fields.contains old.node = true) (unused : base.fields.defines new.node = false)
    (span : Span) (reports : List Diagnostic) :
    (refine base [.rename [⟨new, old⟩]] [] span S).run.run reports =
      (.ok { base with fields := base.fields.rename old.node new.node, location := ⟨S.url, span⟩ }, reports) := by
  have reshaped : reshape S.url base.fields [.rename [⟨new, old⟩]] = (base.fields.rename old.node new.node, []) := by
    simp [reshape, reshapeBy, renameOne, visible, unused]
  rw [refine_eq, reshaped]
  show (Except.ok (⟨base.name, base.origin, base.fields.rename old.node new.node, base.primaryKey, base.filters ++ [],
    ⟨S.url, span⟩⟩ : Source), reports) = _
  rw [append_nil]

theorem source_rename (sound : S.Sound) (built : ((source e S).run.run reports).1 = .ok base)
    (visible : base.fields.contains old.node = true) (unused : base.fields.defines new.node = false) (span : Span) :
    ∃ renamed, ((source (.refine e [.rename [⟨new, old⟩]] span) S).run.run reports).1 = .ok renamed ∧
      Source.Renamed old.node new.node base renamed := by
  have good := source_sound sound e built
  have run := run_bind (source e S) (fun base => refine base [.rename [⟨new, old⟩]] [] span S) reports
  obtain ⟨field, shown⟩ := Option.isSome_iff_exists.mp visible
  have free : base.fields.lookup? new.node = none := by simpa [Slots.defines_eq] using unused
  have renames : Renaming old.node new.node base.fields (base.fields.rename old.node new.node) :=
    ⟨good.fields, (rename_reshapes good.fields shown free).sound, ⟨field, shown⟩, free, rfl⟩
  rcases h : (source e S).run.run reports with ⟨f | base', later⟩ <;> rw [h] at run built
  · cases built
  · cases built
    dsimp only at run
    rw [refine_rename visible unused] at run
    exact ⟨_, congrArg Prod.fst run, renames, good, rfl, rfl, rfl, rfl⟩

/-- Renaming a visible field to an unused name is transparent: the new name has the definition of the old one, joins are
needed as before under their other names, and a query is planned as the same query in the old words. If the field is a
join, the query has to read it under one of its names only. -/
theorem renaming_transparent (i : Inputs) (before : List Document.Statement)
    (imports : ∀ url imported, i.imports.lookup url = some imported → Built imported) (building : Option String)
    (e : Document.SourceExpr) {base : Source}
    (built : (running i (document i ⟨before⟩) building (source e)).1 = .ok base) (old new : Document.Name)
    (visible : base.fields.contains old.node = true) (unused : base.fields.defines new.node = false) (span : Span) :
    ∃ renamed, (running i (document i ⟨before⟩) building (source (.refine e [.rename [⟨new, old⟩]] span))).1 = .ok renamed ∧
      renamed.fields.lookup? new.node = base.fields.lookup? old.node ∧
      (∀ exprs, (∀ e ∈ exprs, ∃ l, e.level? (Names.of renamed.fields) = some l) → ∀ path,
        Plan.Needs base.fields (exprs.map (Expr.mapPaths (respell old.node new.node))) path ↔
          ∃ q, Plan.Needs renamed.fields exprs q ∧ respell old.node new.node q = path) ∧
      ∀ q : Query, q.source = renamed → QuerySound q →
        (∀ j, base.fields.lookup? old.node ≠ some (.join j)) ∨ q.ReadsOneName old.node new.node base.fields →
        QuerySound (q.respelled base (respell old.node new.node)) ∧ ∀ d limit,
          Plan.Agree (Sql.Query.Alike (Plan.renamedSpelling old.node new.node renamed.fields)) (q.plan d limit)
            ((q.respelled base (respell old.node new.node)).plan d limit) := by
  have sound : (surroundings i (document i ⟨before⟩) building).Sound :=
    (built_sound (.document i ⟨before⟩ imports)).surroundings building
  obtain ⟨renamed, done, isRenamed⟩ := source_rename sound built visible unused span
  refine ⟨renamed, done, ?_, fun exprs levels path => Plan.needs_respelled isRenamed.fields levels, ?_⟩
  · rw [isRenamed.fields.lookup, if_pos rfl]
  · intro q source querySound oneName
    refine ⟨Plan.respelled_sound isRenamed source querySound, fun d limit => ?_⟩
    have levels (e : Expr) (reads : q.ReadsSource e) : ∃ l, e.level? (Names.of renamed.fields) = some l :=
      source ▸ reads.level querySound
    rcases oneName with plain | ⟨side, shown⟩
    · exact Plan.plan_renamed isRenamed d limit source fun e reads =>
        ⟨levels e reads, Plan.shown_plain isRenamed.fields plain (levels e reads)⟩
    · exact Plan.plan_renamed isRenamed d limit source fun e reads =>
        ⟨levels e reads, fun {path} needs => shown e reads path (source ▸ needs)⟩

def boughtTables : Inputs :=
  ⟨"file:///bought.model", ⟨[("orders", .known [⟨"customer_id", .number⟩]),
    ("customers", .known [⟨"id", .number⟩, ⟨"name", .string⟩])], []⟩, fun _ => .duckdb, []⟩

def customersKeyed : List Document.Statement :=
  [.source ⟨"customers", default⟩ (.refine (.table none "customers" default) [.primaryKey ⟨"id", default⟩] default) default]

def ordersJoined : Document.SourceExpr :=
  .refine (.table none "orders" default)
    [.join [⟨⟨"customers", default⟩, .one, some (.named ⟨"customers", default⟩),
        some (.key ⟨.field ⟨["customer_id"], default⟩, default⟩), default⟩],
      .measure [⟨⟨"last", default⟩, ⟨.aggregate .max none (some ⟨.field ⟨["customers", "name"], default⟩, default⟩), default⟩,
        default⟩]] default

def buyersRenamed : Document.SourceExpr :=
  .refine ordersJoined [.rename [⟨⟨"buyers", default⟩, ⟨"customers", default⟩⟩]] default

def buyersGrouped (measures : List String) : Document.Statement :=
  .query (some ⟨"grouped", default⟩) ⟨.source buyersRenamed,
    [.stage ⟨[.groupBy [.reference ⟨["buyers", "name"], default⟩ []],
      .aggregate (measures.map fun name => .reference ⟨[name], default⟩ [])], default⟩], default⟩ default

def boughtSource : Source :=
  let location : Location := ⟨"file:///bought.model", default⟩
  let customers : Source := ⟨"customers", .table "customers" none,
    Namespace.ofColumns [⟨"id", .number⟩, ⟨"name", .string⟩] location, some "id", [], location⟩
  ⟨"orders", .table "orders" none, ((Namespace.ofColumns [⟨"customer_id", .number⟩] location).insert "customers"
      (.join ⟨"customers", .one, customers, .key (.field ["customer_id"]), location⟩)).insert "last"
      (.measure ⟨"last", .aggregate .max ["customers"] (some (.field ["customers", "name"])), .string, location⟩), none, [], location⟩

def buyersSource : Source := { boughtSource with fields := boughtSource.fields.rename "customers" "buyers" }

def groupedQuery (measures : List OutputField) (order : OrderBy) : Query :=
  let location : Location := ⟨"file:///bought.model", default⟩
  ⟨some "grouped", buyersSource, [.reduce (.dimension ⟨"name", .field ["buyers", "name"], .string, location⟩ :: measures) []
    [order] ⟨[], none, none⟩], location⟩

def namesQuery : Query := groupedQuery [] ⟨"name", .asc⟩

def lastQuery : Query :=
  groupedQuery [.measure ⟨"last", .field ["last"], .string, ⟨"file:///bought.model", default⟩⟩] ⟨"last", .desc⟩

theorem bought_built :
    (running boughtTables (document boughtTables ⟨customersKeyed⟩) none (source ordersJoined)).1 = .ok boughtSource := rfl

theorem buyers_built :
    (running boughtTables (document boughtTables ⟨customersKeyed⟩) none (source buyersRenamed)).1 = .ok buyersSource := rfl

theorem namesQuery_sound : QuerySound namesQuery :=
  (built_sound (.document boughtTables ⟨customersKeyed ++ [buyersGrouped []]⟩ nofun)).recorded (.inl ⟨"grouped", by cbv⟩)

theorem lastQuery_sound : QuerySound lastQuery :=
  (built_sound (.document boughtTables ⟨customersKeyed ++ [buyersGrouped ["last"]]⟩ nofun)).recorded (.inl ⟨"grouped", by cbv⟩)

theorem namesQuery_readsOneName : namesQuery.ReadsOneName "customers" "buyers" boughtSource.fields := by
  refine ⟨true, fun e reads path needs => ?_⟩
  have sound : Plan.InputSound ⟨.table "orders", buyersSource.fields, none, []⟩ := by
    cases namesQuery_sound with
    | mk source =>
      cases source with
      | mk fields => exact ⟨fields, by simp, forall_mem_nil _⟩
  have only : e = .field ["buyers", "name"] := by
    cases reads with
    | filter mem => cases mem
    | stage starts reads =>
      cases starts
      cases reads with
      | own mem => exact mem_singleton.mp mem
      | nest mem => cases mem
  subst only
  have tree : Plan.treeFor ⟨.table "orders", buyersSource.fields, none, []⟩ [.field ["buyers", "name"]] =
      .ok ⟨buyersSource.fields, none, [["buyers"]]⟩ := rfl
  have used := (Plan.treeFor_mem sound.fields tree path).mpr needs
  cases mem_singleton.mp used
  simp [Shown, Plan.unread]

theorem buyers_transparent : ∃ renamed,
    (running boughtTables (document boughtTables ⟨customersKeyed⟩) none (source buyersRenamed)).1 = .ok renamed ∧
    renamed.fields.lookup? "buyers" = boughtSource.fields.lookup? "customers" ∧ namesQuery.source = renamed ∧
    ∀ d limit, Plan.Agree (Sql.Query.Alike (Plan.renamedSpelling "customers" "buyers" renamed.fields)) (namesQuery.plan d limit)
      ((namesQuery.respelled boughtSource (respell "customers" "buyers")).plan d limit) := by
  obtain ⟨renamed, done, found, _, planned⟩ := renaming_transparent boughtTables customersKeyed nofun none ordersJoined
    bought_built ⟨"customers", default⟩ ⟨"buyers", default⟩ rfl rfl default
  cases buyers_built.symm.trans done
  exact ⟨_, rfl, found, rfl, (planned namesQuery rfl namesQuery_sound (.inr namesQuery_readsOneName)).2⟩

/-- A renamed join that a measure reads under its old name and the query under its new one is joined twice. -/
theorem buyers_joined_twice :
    (running boughtTables (document boughtTables ⟨customersKeyed⟩) none (source ordersJoined)).1 = .ok boughtSource ∧
    (running boughtTables (document boughtTables ⟨customersKeyed⟩) none (source buyersRenamed)).1 = .ok buyersSource ∧
    lastQuery.source = buyersSource ∧ QuerySound lastQuery ∧
    ¬Plan.Agree (Sql.Query.Alike (Plan.renamedSpelling "customers" "buyers" buyersSource.fields)) (lastQuery.plan .duckdb none)
      ((lastQuery.respelled boughtSource (respell "customers" "buyers")).plan .duckdb none) := by
  refine ⟨bought_built, buyers_built, rfl, lastQuery_sound, fun agree => ?_⟩
  have twice {x : Sql.Query} (is : lastQuery.plan .duckdb none = .ok x) : x.joins.length = 2 := by
    cases is
    rfl
  have once {x : Sql.Query} (is : (lastQuery.respelled boughtSource (respell "customers" "buyers")).plan .duckdb none = .ok x) :
      x.joins.length = 1 := by
    cases is
    rfl
  obtain ⟨_, planned, alike⟩ := agree.found rfl
  cases alike with
  | mk select =>
    have same := select.elim (fun same => same.joins.length_eq) fun same => same.joins.length_eq
    rw [twice rfl, once planned] at same
    cases same

end Elaborate

end SemanticLayer
