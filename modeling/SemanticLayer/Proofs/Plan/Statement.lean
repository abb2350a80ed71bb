import SemanticLayer.Proofs.Plan.Emission
import SemanticLayer.Proofs.Plan.Query

/-!
A planned statement is made of queries of the known kinds: the levels of its stages, the nests inside them, and
the stages of the queries that sources read.
-/
namespace SemanticLayer

open List

theorem Flat.names_le (flat : Flat ns)
    (found : ∀ name x, ns.lookup? name = some (.dimension x) → (Names.of wider).level [name] = some .scalar)
    (stored : ∀ column, ns.stores column = true → wider.stores column = true) : Names.of ns ≤ Names.of wider := by
  refine ⟨?_, ?_, stored⟩
  · intro path l level
    obtain ⟨f, isField, isLevel⟩ := Option.bind_eq_some_iff.mp level
    obtain ⟨last, isLast, within⟩ := Option.bind_eq_some_iff.mp isField
    obtain ⟨owner, within, here⟩ := Option.bind_eq_some_iff.mp within
    obtain ⟨start, rfl⟩ := flat.joinless.within within
    have single : path = [last] := by
      rw [← dropLast_append_getLast? last isLast, start]
      rfl
    rcases flat last f here with ⟨_, _, rfl⟩ | ⟨x, _, rfl, _⟩
    · cases isLevel
    · cases isLevel
      rw [single]
      exact found last x here
  · intro path joined
    obtain ⟨inner, within⟩ := Option.isSome_iff_exists.mp joined
    obtain ⟨rfl, _⟩ := flat.joinless.within within
    rfl

theorem Flat.scalar (flat : Flat ns) (defined : Plan.definitionOf ns [name] = .ok r) :
    (Names.of ns).level [name] = some .scalar := by
  rw [Namespace.level_single]
  cases found : ns.lookup? name with
  | none =>
    unfold Plan.definitionOf at defined
    simp [Namespace.resolveDefined, Namespace.resolveWith, found, bind, Except.bind] at defined
  | some f =>
    rcases flat name f found with ⟨_, _, rfl⟩ | ⟨x, _, rfl, _⟩
    · unfold Plan.definitionOf at defined
      simp [Namespace.resolveDefined, Namespace.resolveWith, found, bind, Except.bind] at defined
    · rfl

theorem schema_names (fields : List OutputField) :
    (outputFieldSchemas fields).map ResultField.name = fields.map OutputField.name := by
  induction fields with
  | nil => rfl
  | cons f rest ih =>
    rw [outputFieldSchemas, map_cons, ih]
    cases f with
    | dimension | measure => rfl
    | nest n => obtain ⟨_, _, _⟩ := n; rfl

theorem pipelineSchema_cons (stage next : Stage) (rest : List Stage) :
    pipelineSchema (stage :: next :: rest) = pipelineSchema (next :: rest) := by
  rw [pipelineSchema]
  intro only
  cases only

namespace Plan

section Levels

variable {ns : Namespace} {stage : Stage} {level : Level}

theorem levelOf_fields (is : levelOf? stage = some level) : level.fields = stage.outputs ∧
    stage.outputSchema.map ResultField.name = level.fields.map OutputField.name := by
  cases stage with
  | reduce fields having orderBy r => cases is; exact ⟨rfl, schema_names fields⟩
  | project fields orderBy r => cases is; exact ⟨rfl, schema_names fields⟩
  | index fields weight r => cases is

theorem outputs_sound (sound : StageSound (Names.of ns) stage) :
    ∀ f ∈ stage.outputs, OutputSound (Names.of ns) f := by
  cases sound with
  | reduce _ _ outputs _ _ _ => exact outputs
  | project _ _ outputs _ _ _ => exact outputs
  | index => nofun

theorem level_sound (is : levelOf? stage = some level) (sound : StageSound (Names.of ns) stage)
    (keys : ∀ e ∈ parents, e.level? (Names.of ns) = some .scalar)
    (outer : ∀ e ∈ inherited, e.level? (Names.of ns) = some .scalar) :
    LevelSound (Names.of ns) parents inherited level := by
  have outputs : ∀ f ∈ level.fields, OutputSound (Names.of ns) f :=
    (levelOf_fields is).1 ▸ outputs_sound sound
  have dimensions : ∀ f ∈ level.dimensions, f.expr.level? (Names.of ns) = some .scalar := by
    intro f mem
    obtain ⟨output, given, isDimension⟩ := mem_filterMap.mp mem
    have here := outputs output given
    cases here with
    | dimension level => cases isDimension; exact level
    | measure => cases isDimension
    | nest => cases isDimension
  have columns : ∀ c ∈ level.columns, ∃ l, c.1.expr.level? (Names.of ns) = some l :=
    (Level.All.of_stage is fun _ => sound.level).columns
  cases sound with
  | reduce _ _ _ groups rows _ =>
    cases is
    refine ⟨keys, outer, fun e mem => ?_, dimensions, columns, fun e mem => ?_⟩
    · obtain ⟨f, given, rfl⟩ := mem_map.mp mem
      exact rows f given
    · obtain ⟨f, given, rfl⟩ := mem_map.mp mem
      exact groups f given
  | project _ _ _ _ rows _ =>
    cases is
    refine ⟨keys, outer, fun e mem => ?_, dimensions, columns, nofun⟩
    obtain ⟨f, given, rfl⟩ := mem_map.mp mem
    exact rows f given
  | index => cases is

theorem level_sorted (is : levelOf? stage = some level) (sound : StageSound (Names.of ns) stage) :
    Sorted level.fields level.orderBy := by
  cases sound with
  | reduce _ _ _ _ _ sorted => cases is; exact sorted
  | project _ _ _ _ _ sorted => cases is; exact sorted
  | index => cases is

theorem columns_outputs (columns : ColumnsFrom d ctes keyColumns position fields items) :
    items.filterMap Sql.SelectItem.output? = fields.map OutputField.name := by
  induction columns with
  | nil => rfl
  | cons first _ ih => cases first <;> simpa [Sql.SelectItem.named, Sql.SelectItem.output?, OutputField.name] using ih

theorem columns_deliver (columns : ColumnsFrom d ctes keyColumns position fields items) :
    DeliversAll ctes fields items := by
  induction columns with
  | nil => exact .nil
  | cons first _ ih =>
    refine .cons ?_ ih
    cases first with
    | dimension | measure => exact .value rfl rfl
    | nest mem _ stages built => exact .nest mem (Sql.nest_collected built) stages

theorem plain_deliver : ∀ {fields : List OutputField} {items : List Sql.SelectItem},
    fields.any OutputField.isNest = false →
    items.map Sql.SelectItem.output? = fields.map (fun f => some f.name) → DeliversAll ctes fields items
  | [], _, _, named => map_eq_nil_iff.mp named ▸ .nil
  | f :: fields, items, plain, named => by
    obtain ⟨item, rest, rfl, first, later⟩ := map_eq_cons_iff.mp named
    rw [any_cons, Bool.or_eq_false_iff] at plain
    exact .cons (.value plain.1 first) (plain_deliver plain.2 later)

theorem collect_outputs (collect : CollectOf F d ctes parents level name items) (more : List Sql.SelectItem) :
    (collectQuery parents name (items ++ more)).outputs =
      parentKeys parents ++ level.fields.map OutputField.name ++ more.filterMap Sql.SelectItem.output? := by
  show (((List.range parents).map fun i => Sql.SelectItem.named (.ofTable rowsAlias (parentKey i)) (parentKey i)) ++
    (items ++ more)).filterMap Sql.SelectItem.output? = _
  rw [filterMap_append, filterMap_append, named_outputs, columns_outputs collect.columns,
    List.append_assoc]
  rfl

theorem columns_of_plain (plain : level.hasNests = false) :
    (level.columns.map fun c => c.1.name) = level.fields.map OutputField.name := by
  unfold Level.hasNests at plain
  unfold Level.columns
  generalize level.fields = fields at plain
  induction fields with
  | nil => rfl
  | cons f rest ih =>
    rw [any_cons, Bool.or_eq_false_iff] at plain
    have rest := ih plain.2
    cases f with
    | dimension | measure => simpa [OutputField.name] using rest
    | nest n => cases plain.1

end Levels

section Nests

variable {F : Family} {p : Planner} {ctes : List Sql.Cte}

theorem serves_flat (flat : Flat fields) : Serves F p fields := by
  intro place parent name j inner ctes within found
  obtain ⟨rfl, rfl⟩ := flat.joinless.within within
  exact (flat.joinless name j found).elim

/-- What a nest is planned against. Keys of enclosing rows are scalars where they can be read. -/
structure EnclosureSound (F : Family) (p : Planner) (ctes : List Sql.Cte) (e : Enclosure) : Prop where
  known : Known F ctes e.input
  serves : Serves F p e.input.fields
  parents : ∀ exprs tree, e.parents ⊆ exprs → treeFor e.input exprs = .ok tree →
    ∀ x ∈ e.parents, x.level? (Names.of e.input.fields) = some .scalar
  inherited : ∀ x ∈ e.inherited, x.level? (Names.of e.input.fields) = some .scalar
  numbers : e.All (Expr.Numbers F.number)

theorem Family.levelNumbers {stage : Stage} (given : F.stage stage) (is : levelOf? stage = some level) :
    level.All (Expr.Numbers F.number) := .of_stage is (F.exprs given)

theorem EnclosureSound.mono (sound : EnclosureSound F p ctes e) (le : ctes ⊆ ctes') : EnclosureSound F p ctes' e where
  known := sound.known.mono le
  serves := sound.serves
  parents := sound.parents
  inherited := sound.inherited
  numbers := sound.numbers

theorem EnclosureSound.level (sound : EnclosureSound F p ctes e) {level : Level} (is : levelOf? stage = some level)
    (stageSound : StageSound (Names.of e.input.fields) stage) (exprs : List Expr) (tree : JoinTree)
    (le : e.parents ⊆ exprs) (isTree : treeFor e.input exprs = .ok tree) :
    LevelSound (Names.of e.input.fields) e.parents e.inherited level :=
  level_sound is stageSound (sound.parents exprs tree le isTree) sound.inherited

theorem EnclosureSound.within (sound : EnclosureSound F p ctes e) {level : Level} (given : F.stage stage)
    (is : levelOf? stage = some level) (stageSound : StageSound (Names.of e.input.fields) stage) :
    EnclosureSound F p ctes (e.within level) where
  known := sound.known
  serves := sound.serves
  parents exprs tree le isTree x mem := by
    have levels := sound.level is stageSound exprs tree (fun x mem => le (mem_append_left _ mem)) isTree
    rcases mem_append.mp mem with mem | mem
    · exact levels.parents x mem
    · obtain ⟨f, given, rfl⟩ := mem_map.mp mem
      exact levels.dimensions f given
  inherited x mem := by
    -- the filters of a level do not depend on its keys
    have levels := level_sound is stageSound (forall_mem_nil _) (forall_mem_nil _)
    exact (mem_append.mp mem).elim (sound.inherited x) (levels.filters x)
  numbers := sound.numbers.within (F.levelNumbers given is)

theorem chained_le (cte : String) (parents : Nat) (previous : Stage) (location : Location) :
    Names.ofSchema previous.outputSchema ≤ Names.of (chainedInput cte parents previous location).fields := by
  refine Flat.names_le (flat_ofResult _ _) (fun name x found => ?_) fun column stored => ?_
  · rw [lookup?_ofResult] at found
    obtain ⟨field, here, isDimension⟩ := Option.map_eq_some_iff.mp found
    rw [Namespace.level_single, chainedInput_lookup, here]
    split
    · rfl
    · unfold FieldDef.ofResult at isDimension
      show (FieldDef.ofResult location field).level? = _
      unfold FieldDef.ofResult
      cases type : field.type with
      | atomic => rfl
      | repeated => rw [type] at isDimension; cases isDimension
  · -- a column is stored under its own name, where the number of a row may have taken its place
    obtain ⟨field, here, same, type, atomic⟩ := stored_field stored
    refine Namespace.stores_iff.mpr ⟨column, ?_⟩
    rw [chainedInput_lookup]
    split
    · next isNumber => exact ⟨_, rfl, congrArg some isNumber⟩
    · refine ⟨FieldDef.ofResult location field, by rw [here]; rfl, ?_⟩
      simp [FieldDef.ofResult, atomic, FieldDef.ofColumn, FieldDef.column?, Expr.column?, same]

theorem chained_numbers (cte : String) (parents : Nat) (location : Location)
    (mem : e ∈ (chainedInput cte parents previous location).filters) : e.Numbers F.number := by
  have row : (Expr.field [rowNumberColumn]).Numbers F.number := Expr.numbers_leaf rfl nofun
  unfold chainedInput at mem
  split at mem
  · next limit _ =>
    cases mem_singleton.mp mem
    intro text occurs
    cases occurs with
    | part mem inner =>
      rcases mem_pair.mp mem with rfl | rfl
      · exact row text inner
      · cases inner with
        | here => exact F.decimal limit
        | part mem _ => cases mem
  · cases mem

/-- A later stage of a nest is planned against the numbered rows of the stage before it. -/
theorem chained_sound (mem : ⟨cte, query⟩ ∈ ctes)
    (outputs : query.outputs = nestColumns parents previous.outputSchema) :
    EnclosureSound F p ctes ⟨chainedInput cte parents previous location, chainedKeys parents, []⟩ where
  known := by
    refine .columns mem ?_ fun e given =>
      ⟨chainedFilters_level cte parents location given, chained_numbers cte parents location given⟩
    rw [outputs]
    simp [nestColumns, parentKeys, ResultField.atomic]
  serves := serves_flat (flat_ofResult _ _)
  parents exprs tree le isTree x mem := by
    obtain ⟨i, _, rfl⟩ := mem_map.mp mem
    obtain ⟨fuel, used, after, collected, _⟩ := treeFor_reads isTree (mem_append_right _ (le mem))
    cases fuel with
    | zero => cases collected
    | succ fuel =>
      obtain ⟨r, defined, _⟩ := bind_eq_ok collected
      exact Flat.scalar (flat_ofResult _ _) defined
  inherited := forall_mem_nil _
  numbers.parents x mem := by
    obtain ⟨i, _, rfl⟩ := mem_map.mp mem
    exact Expr.numbers_leaf rfl fun _ is => by cases is
  numbers.inherited := forall_mem_nil _

def IsCollected (F : Family) (d : Dialect) (ctes : List Sql.Cte) (parents : Nat) (level : Level)
    (query : Sql.Query) : Prop :=
  ∃ name items, CollectOf F d ctes parents level name items ∧ query = collectQuery parents name items

theorem planCollect_yields (sound : EnclosureSound F p ctes e) (given : F.stage stage)
    (is : levelOf? stage = some level) (stageSound : StageSound (Names.of e.input.fields) stage)
    (planned : ∀ ctes', ctes ⊆ ctes' → Yields F p.dialect ctes' columns fun ctes' items =>
      ColumnsFrom p.dialect ctes' (e.keyColumns level) 0 level.fields items) :
    Yields F p.dialect ctes (planCollect p e level columns) fun ctes' query =>
      IsCollected F p.dialect ctes' e.parents.length level query := by
  have rows : Yields F p.dialect ctes (planRows p e.input e.parents e.inherited level) fun ctes' query =>
      IsRows F p.dialect ctes' e.input e.parents e.inherited level query :=
    planRows_yields sound.known sound.serves (sound.level is stageSound) ⟨stage, given, is⟩
      ((F.levelNumbers given is).exprs sound.numbers.parents sound.numbers.inherited)
  refine .bind rows fun query ctes₁ le₁ isRows => ?_
  have emitted : Emitted F p.dialect ctes₁ query := by
    obtain ⟨tree, parts, c, frame, ungroups, rows, widened, rfl⟩ := isRows
    exact .rows rows widened [] none
  refine .bind (.define (fun _ le => emitted.mono le) (by decide)) fun name ctes₂ le₂ mem => ?_
  refine .bind (planned ctes₂ (List.Subset.trans le₁ le₂)) fun items ctes₃ le₃ columns => ?_
  exact .pure fun ctes' le => ⟨name, items, ⟨⟨stage, given, is⟩, level_sorted is stageSound,
    ⟨query, le (le₃ mem), isRows.outputs⟩,
    columns.mono le⟩, rfl⟩

theorem nestItem_yields (mem : ⟨rows.cte, query⟩ ∈ ctes)
    (outputs : query.outputs = nestColumns keyColumns.length (pipelineSchema n.stages))
    (stages : Provides ctes n.stages query) :
    Yields F p.dialect ctes (nestItem p keyColumns position n rows) fun ctes' item =>
      ColumnAt p.dialect ctes' keyColumns position (.nest n) item := by
  rw [nestItem_eq, nestColumn]
  split
  · cases isNest : p.dialect.nest (nestSource keyColumns position n rows.cte rows.limit) with
    | error => exact .fault
    | ok e => exact .pure fun ctes' le => .nest (le mem) outputs (stages.mono le) isNest
  · exact .fault

def IsNest (ctes : List Sql.Cte) (parents : Nat) (stages : List Stage) (rows : NestRows) : Prop :=
  ∃ query, ⟨rows.cte, query⟩ ∈ ctes ∧ query.outputs = nestColumns parents (pipelineSchema stages) ∧
    Provides ctes stages query

theorem defineNumbered_collect (e : Enclosure) (level : Level) (name : String) (items : List Sql.SelectItem) :
    defineNumbered p e level (collectQuery e.parents.length name items) = define "nest"
      (collectQuery e.parents.length name (items ++ [numberItem p.dialect e.parents.length level.orderBy])) := by
  unfold defineNumbered
  simp [collectQuery, numberItem]

theorem numbered_yields (is : levelOf? stage = some level)
    (collected : IsCollected F p.dialect ctes e.parents.length level rows) (limit : Option Nat) :
    Yields F p.dialect ctes (do return ⟨← defineNumbered p e level rows, limit⟩) fun ctes' rows =>
      IsNest ctes' e.parents.length [stage] rows := by
  obtain ⟨name, items, collect, rfl⟩ := collected
  have numbered : Yields F p.dialect ctes
      (defineNumbered p e level (collectQuery e.parents.length name items)) fun ctes' name' =>
      ⟨name', collectQuery e.parents.length name
        (items ++ [numberItem p.dialect e.parents.length level.orderBy])⟩ ∈ ctes' := by
    rw [defineNumbered_collect]
    exact .define (fun ctes' le => .numbered (collect.mono le)) (by decide)
  obtain ⟨fields, names⟩ := levelOf_fields is
  refine .bind numbered fun name' ctes' le₁ mem => .pure fun ctes'' le₂ => ?_
  have outputs := collect_outputs collect [numberItem p.dialect e.parents.length level.orderBy]
  rw [← names] at outputs
  refine ⟨_, le₂ mem, outputs, .last ⟨_, _, outputs.symm⟩ ⟨_, _, List.append_assoc ..⟩ ?_⟩
  exact fields ▸ columns_deliver (collect.columns.mono (List.Subset.trans le₁ le₂))

mutual

theorem planColumns_yields (given : F.stage stage) (is : levelOf? stage = some level) :
    ∀ (position : Nat) (fields : List OutputField) {ctes : List Sql.Cte}, fields ⊆ level.fields →
      EnclosureSound F p ctes e → StageSound (Names.of e.input.fields) stage →
      Yields F p.dialect ctes (planColumns p e level position fields) fun ctes' items =>
        ColumnsFrom p.dialect ctes' (e.keyColumns level) position fields items
  | _, [], _, _, _, _ => by
    exact .pure fun _ _ => .nil
  | position, field :: rest, ctes, subset, sound, stageSound => by
    refine .bind (planColumn_yields given is position field (subset mem_cons_self) sound stageSound)
      fun item ctes₁ le₁ first => ?_
    refine .bind (planColumns_yields given is (position + 1) rest (fun f mem => subset (mem_cons_of_mem _ mem))
      (sound.mono le₁) stageSound) fun items ctes₂ le₂ later => ?_
    exact .pure fun ctes' le => ColumnsFrom.mono le (.cons (first.mono le₂) later)

theorem planColumn_yields {level : Level} (given : F.stage stage) (is : levelOf? stage = some level) :
    ∀ (position : Nat) (field : OutputField) {ctes : List Sql.Cte}, field ∈ level.fields →
      EnclosureSound F p ctes e → StageSound (Names.of e.input.fields) stage →
      Yields F p.dialect ctes (planColumn p e level position field) fun ctes' item =>
        ColumnAt p.dialect ctes' (e.keyColumns level) position field item
  | _, .dimension f, _, _, _, _ => by
    exact .pure fun _ _ => .dimension f
  | _, .measure f, _, _, _, _ => by
    exact .pure fun _ _ => .measure f
  | position, .nest n, ctes, mem, sound, stageSound => by
    rw [(levelOf_fields is).1] at mem
    have inner : ∀ stage ∈ n.stages, F.stage stage := fun _ inner =>
      F.nested given (mem_filterMap.mpr ⟨_, mem, rfl⟩) inner
    have nest : Yields F p.dialect ctes (planNest p (e.within level) n) fun ctes' rows =>
        IsNest ctes' (e.within level).parents.length n.stages rows := by
      cases outputs_sound stageSound _ mem with
      | nest _ _ stages => exact planNest_yields n inner (sound.within given is stageSound) stages
    refine .bind nest fun rows ctes' _ ⟨query, mem, outputs, stages⟩ => nestItem_yields mem ?_ stages
    rw [outputs]
    simp [Enclosure.within, Enclosure.keyColumns]

theorem planNest_yields : ∀ (n : Nest) {ctes : List Sql.Cte}, (∀ stage ∈ n.stages, F.stage stage) →
    EnclosureSound F p ctes e → StagesSound (Names.of e.input.fields) n.stages →
    Yields F p.dialect ctes (planNest p e n) fun ctes' rows =>
      IsNest ctes' e.parents.length n.stages rows
  | ⟨_, [], _⟩, _, _, _, _ => by
    exact .fault
  | ⟨name, first :: rest, location⟩, ctes, given, sound, stages => by
    cases stages with
    | cons firstSound later =>
      refine .bind (planNestStage_yields name first (given first mem_cons_self) sound firstSound)
        fun rows ctes' _ nest => ?_
      exact planNestStages_yields e.parents.length name location first rows rest
        (fun stage mem => given stage (mem_cons_of_mem _ mem)) nest later

theorem planNestStages_yields (parents : Nat) (name : String) (location : Location) :
    ∀ (previous : Stage) (rows : NestRows) (rest : List Stage) {ctes : List Sql.Cte},
      (∀ stage ∈ rest, F.stage stage) → IsNest ctes parents [previous] rows →
      StagesSound (.ofSchema previous.outputSchema) rest →
      Yields F p.dialect ctes (planNestStages p parents name location previous rows rest) fun ctes' rows =>
        IsNest ctes' parents (previous :: rest) rows
  | _, rows, [], ctes, _, ⟨query, mem, outputs, here⟩, _ => by
    exact .pure fun ctes' le => ⟨query, le mem, outputs, here.mono le⟩
  | previous, rows, stage :: rest, ctes, given, ⟨query, mem, outputs, here⟩, stages => by
    have sound : EnclosureSound F p ctes
        ⟨chainedInput rows.cte parents previous location, chainedKeys parents, []⟩ := chained_sound mem outputs
    have count : (chainedKeys parents).length = parents := by simp [chainedKeys]
    cases stages with
    | cons first later =>
      refine .bind (planNestStage_yields name stage (given stage mem_cons_self) sound
        (first.mono (chained_le rows.cte parents previous location))) fun rows ctes₁ le₁ nest => ?_
      rw [count] at nest
      refine .weaken (planNestStages_yields parents name location stage rows rest
        (fun stage mem => given stage (mem_cons_of_mem _ mem)) nest later) fun rows ctes₂ le₂ nest => ?_
      obtain ⟨last, isLast, outputs, tail⟩ := nest
      have le := List.Subset.trans le₁ le₂
      exact ⟨last, isLast, (pipelineSchema_cons previous stage rest).symm ▸ outputs, .later (le mem) (here.mono le) tail⟩

theorem planNestStage_yields (name : String) : ∀ (stage : Stage) {ctes : List Sql.Cte},
    F.stage stage → EnclosureSound F p ctes e → StageSound (Names.of e.input.fields) stage →
    Yields F p.dialect ctes (planNestStage p e name stage) fun ctes' rows =>
      IsNest ctes' e.parents.length [stage] rows
  | .reduce fields having orderBy r, ctes, given, sound, stageSound => by
    refine .bind (planCollect_yields sound given rfl stageSound fun ctes' le => planColumns_yields given rfl 0 fields
      (List.Subset.refl _) (sound.mono le) stageSound) fun rows ctes' _ collected => ?_
    exact numbered_yields rfl collected r.limit
  | .project fields orderBy r, ctes, given, sound, stageSound => by
    refine .bind (planCollect_yields sound given rfl stageSound fun ctes' le => planColumns_yields given rfl 0 fields
      (List.Subset.refl _) (sound.mono le) stageSound) fun rows ctes' _ collected => ?_
    exact numbered_yields rfl collected r.limit
  | .index _ _ _, _, _, _, _ => by
    exact .fault

end

end Nests

section Stages

variable {F : Family} {p : Planner}

structure IsStages (F : Family) (d : Dialect) (ctes : List Sql.Cte) (stages : List Stage) (query : Sql.Query) :
    Prop where
  emitted : Emitted F d ctes query
  outputs : query.outputs = (pipelineSchema stages).map ResultField.name
  provides : Provides ctes stages query

theorem planLevel_yields (known : Known F ctes input) (serves : Serves F p input.fields) (given : F.stage stage)
    (is : levelOf? stage = some level) (sound : StageSound (Names.of input.fields) stage) :
    Yields F p.dialect ctes (planLevel p input level) fun ctes' query =>
      IsStages F p.dialect ctes' [stage] query := by
  have enclosed : EnclosureSound F p ctes (.ofInput input) :=
    ⟨known, serves, fun _ _ _ _ => forall_mem_nil _, forall_mem_nil _, nofun, nofun⟩
  obtain ⟨fields, names⟩ := levelOf_fields is
  unfold planLevel
  split
  · refine .bind (planCollect_yields enclosed given is sound fun ctes' le => planColumns_yields given is 0
      level.fields (List.Subset.refl _) (enclosed.mono le) sound) fun query ctes' _ collected => ?_
    obtain ⟨name, items, collect, rfl⟩ := collected
    have outputs := collect_outputs collect []
    rw [append_nil, ← names] at outputs
    refine .pure fun ctes'' le => ⟨.collected (collect.mono le) level.orderBy level.limit,
      outputs.trans (append_nil _), .last ⟨_, _, outputs.symm⟩ (suffix_append _ _).isInfix ?_⟩
    exact fields ▸ columns_deliver (collect.columns.mono le)
  · next plain =>
    have levels := enclosed.level is sound
    have numbers := (F.levelNumbers given is).exprs enclosed.numbers.parents enclosed.numbers.inherited
    refine .bind (planRows_yields known serves levels ⟨stage, given, is⟩ numbers) fun query ctes' _ isRows => ?_
    have outputs := isRows.outputs
    have plain : level.hasNests = false := by simpa using plain
    have columns := columns_of_plain plain
    rw [columns, ← names] at outputs
    obtain ⟨tree, parts, c, frame, ungroups, rows, widened, rfl⟩ := isRows
    obtain ⟨_, items, _⟩ := rows.compiled.columns
    have named := (levelItems_named items).trans (by simpa [Function.comp_def] using congrArg (List.map some) columns)
    refine .pure fun ctes'' le => ⟨.rows (rows.mono le) ?_ level.orderBy level.limit, outputs,
      .last ⟨[], [], (append_nil _).trans outputs.symm⟩ (suffix_append _ _).isInfix
        (fields ▸ plain_deliver plain named)⟩
    refine widened.imp fun u join joined => ?_
    obtain ⟨name, mem, is⟩ := joined
    exact ⟨name, le mem, is⟩

theorem planStage_yields (known : Known F ctes input) (serves : Serves F p input.fields) (given : F.stage stage)
    (sound : StageSound (Names.of input.fields) stage) :
    Yields F p.dialect ctes (planStage p input stage) fun ctes' query =>
      IsStages F p.dialect ctes' [stage] query := by
  cases stage with
  | reduce fields having orderBy r => exact planLevel_yields known serves given rfl sound
  | project fields orderBy r => exact planLevel_yields known serves given rfl sound
  | index fields weight r =>
    refine (planIndex_yields known serves given sound).weaken fun query ctes' _ ⟨emitted, outputs⟩ => ?_
    exact ⟨emitted, outputs, .last (outputs ▸ infix_rfl) nil_infix .nil⟩

theorem planStages_yields (location : Location) : ∀ {stages : List Stage} {ctes : List Sql.Cte} {input : Input},
    Known F ctes input → Serves F p input.fields → (∀ stage ∈ stages, F.stage stage) →
    StagesSound (Names.of input.fields) stages →
    Yields F p.dialect ctes (planStages p location input stages) fun ctes' query =>
      IsStages F p.dialect ctes' stages query
  | [], _, _, _, _, _, _ => .fault
  | [last], _, _, known, serves, given, .cons first _ =>
    planStage_yields known serves (given last mem_cons_self) first
  | stage :: next :: rest, ctes, input, known, serves, given, .cons first later => by
    rw [planStages]
    · refine .bind (planStage_yields known serves (given stage mem_cons_self) first)
        fun query ctes₁ _ planned => ?_
      obtain ⟨emitted, outputs, head⟩ := planned
      refine .bind (.define (fun _ le => emitted.mono le) (by decide)) fun name ctes₂ le₂ mem => ?_
      refine (planStages_yields location (.columns mem outputs (forall_mem_nil _))
        (serves_flat (flat_ofResult _ _)) (fun stage mem => given stage (mem_cons_of_mem _ mem))
        (later.mono (ofResult_le _ _ _))).weaken fun query ctes₃ le₃ planned => ?_
      obtain ⟨emitted, outputs, tail⟩ := planned
      exact ⟨emitted, (pipelineSchema_cons stage next rest).symm ▸ outputs,
        .later (le₃ mem) (head.mono (List.Subset.trans le₂ le₃)) tail⟩
    · exact fun single => cons_ne_nil next rest single

theorem planWithin_yields (d : Dialect) : ∀ (depth : Nat) {q : Query} {ctes : List Sql.Cte}, F.query q →
    Yields F d ctes (planWithin d depth q) fun ctes' query => IsStages F d ctes' q.stages query
  | 0, _, _, _ => .fault
  | depth + 1, q, ctes, given => by
    have inner {inner : Query} {ctes : List Sql.Cte} (given : F.query inner) : Yields F d ctes (planWithin d depth inner)
        fun ctes' query => Emitted F d ctes' query ∧ query.outputs = inner.outputSchema.map ResultField.name :=
      (planWithin_yields d depth given).weaken fun _ _ _ is => ⟨is.emitted, is.outputs⟩
    have serves : Serves F ⟨d, planWithin d depth⟩ q.source.fields :=
      fun within found origin => inner (F.joined given within found origin)
    rw [planWithin]
    unfold planPipeline
    cases F.sound given with
    | mk source nonempty stages sampled =>
      cases h : q.stages with
      | nil => exact (nonempty h).elim
      | cons first rest =>
        unfold sourceInput
        dsimp only
        rw [bind_assoc]
        have relation : Yields F (Planner.mk d (planWithin d depth)).dialect ctes
            (sourceRelation ⟨d, planWithin d depth⟩ q.source first.sample) fun ctes' relation =>
              Served ctes' q.source relation :=
          sourceRelation_yields fun _ origin _ => inner (F.source given origin)
        refine .bind relation fun relation ctes' _ served => ?_
        exact planStages_yields q.location (.source given served) serves
          (fun stage mem => F.stages given (h ▸ mem)) (h ▸ stages)

/-- A planned statement is a last query of a known kind and those in its `WITH` list. -/
theorem plan_emitted (given : F.query q) (planned : q.plan d limit = .ok statement) :
    ∃ ctes select, statement = { select with ctes, limit := select.limit.or limit } ∧ Listed F d ctes ∧
      IsStages F d ctes q.stages select := by
  obtain ⟨⟨select, progress⟩, run, is⟩ := bind_eq_ok planned
  cases is
  have yields : Yields F d [] (planWithin d q.depth q) fun ctes' query => IsStages F d ctes' q.stages query :=
    planWithin_yields d q.depth given
  obtain ⟨good, _, stages⟩ := yields ⟨[], 0⟩ select progress (nil_subset _) ⟨.nil, rfl⟩ run
  exact ⟨progress.ctes, select, rfl, good.listed, stages⟩

end Stages

def soundQueries : Family where
  query := QuerySound
  stage _ := True
  sound := id
  stages _ _ := trivial
  nested _ _ _ := trivial
  source
    | .mk (.mk _ origin _ _ _ _) _ _ _, is => origin _ is
  joined := by
    rintro q inner place parent name j ⟨⟨fields, _, _, _, _, _⟩, _, _, _⟩ within found is
    cases ((fields.within within).joined found).1 with
    | mk _ origin _ _ _ _ => exact origin inner is
  number _ := True
  decimal _ := trivial
  fields _ := .any
  rows _ _ _ _ _ := trivial
  exprs _ _ _ _ _ := trivial

end Plan

end SemanticLayer
