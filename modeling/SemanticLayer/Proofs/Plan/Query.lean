import SemanticLayer.Plan.Query
import SemanticLayer.Proofs.Plan.Rows

/-!
Planning queries. A sound query can be planned, if nothing that it comes to is widened and the names and
limits of its nests leave room for the columns that planning adds.
-/
namespace SemanticLayer

open List

def isReserved (name : String) : Bool := ['_', '_'].isPrefixOf name.toList

def lastLimit (stages : List Stage) : Option Nat :=
  stages.getLast?.bind fun stage => stage.restriction.limit

structure Nest.Fits (n : Nest) : Prop where
  names : ∀ stage ∈ n.stages, ∀ f ∈ stage.outputSchema, isReserved f.name = false
  limit : ∀ limit ∈ lastLimit n.stages, limit ≤ Plan.maxNestLimit

section Levels

variable {ns : Namespace} {stage : Stage} {e : Expr}

theorem OutputSound.level (sound : OutputSound (Names.of ns) field) (is : field.expr? = some e) :
    ∃ l, e.level? (Names.of ns) = some l := by
  cases sound with
  | dimension level | measure level =>
    cases is
    exact ⟨_, level⟩
  | nest => cases is

theorem StageSound.level (sound : StageSound (Names.of ns) stage) (mem : e ∈ stage.exprs) :
    ∃ l, e.level? (Names.of ns) = some l := by
  have filtered {filters : List Filter} {l : Level} (levels : ∀ f ∈ filters, f.expr.level? (Names.of ns) = some l)
      (mem : e ∈ filters.map Filter.expr) : ∃ l, e.level? (Names.of ns) = some l := by
    obtain ⟨f, given, rfl⟩ := mem_map.mp mem
    exact ⟨l, levels f given⟩
  have output {fields : List OutputField} (outputs : ∀ f ∈ fields, OutputSound (Names.of ns) f)
      (mem : e ∈ fields.filterMap OutputField.expr?) : ∃ l, e.level? (Names.of ns) = some l := by
    obtain ⟨field, given, is⟩ := mem_filterMap.mp mem
    exact (outputs field given).level is
  cases sound with
  | reduce _ _ outputs groups rows _ =>
    rcases mem_append.mp mem with mem | mem
    · exact (mem_append.mp mem).elim (output outputs) (filtered groups)
    · exact filtered rows mem
  | project _ _ outputs _ rows _ => exact (mem_append.mp mem).elim (output outputs) (filtered rows)
  | @index _ _ weight _ _ dimensions weights rows =>
    rcases mem_append.mp mem with mem | mem
    · rcases mem_append.mp mem with mem | mem
      · obtain ⟨f, given, rfl⟩ := mem_map.mp mem
        exact ⟨.scalar, by rw [Expr.level?]; exact dimensions f given⟩
      · cases mem_singleton.mp mem
        cases weight with
        | none => exact ⟨.aggregate, rfl⟩
        | some weight => exact ⟨_, weights weight rfl⟩
    · exact filtered rows mem

end Levels

namespace Plan

/-- Stages over a namespace whose expressions are among those that planning may meet. -/
structure StagesReady (R : Namespace → Expr → Prop) (ns : Namespace) (stages : List Stage) : Prop where
  own : ∀ {e}, StagesRead ns stages ns e → R ns e
  plain : ∀ {owner e}, StagesRead ns stages owner e → e.containsUngroup = false
  nests : ∀ {n}, StagesHold stages n → n.Fits

namespace StagesReady

variable {R : Namespace → Expr → Prop} {ns : Namespace} {stage : Stage} {stages rest : List Stage}

theorem head (ready : StagesReady R ns (stage :: rest)) : StagesReady R ns [stage] where
  own
    | .first reads => ready.own (.first reads)
  plain
    | .first reads => ready.plain (.first reads)
  nests
    | .here mem nest => ready.nests (.here (mem_singleton.mp mem ▸ mem_cons_self) nest)
    | .inside mem nest inner =>
      ready.nests (.inside (mem_singleton.mp mem ▸ mem_cons_self) nest inner)

theorem tail (ready : StagesReady R ns (stage :: rest)) (flat : Flat other) :
    StagesReady FlatExpr other rest where
  own reads :=
    let ⟨_, reads⟩ := reads.elsewhere (.ofResult stage.outputSchema default)
    ⟨flat, ready.plain (.later reads)⟩
  plain reads :=
    let ⟨_, reads⟩ := reads.elsewhere (.ofResult stage.outputSchema default)
    ready.plain (.later reads)
  nests
    | .here mem nest => ready.nests (.here (mem_cons_of_mem _ mem) nest)
    | .inside mem nest inner => ready.nests (.inside (mem_cons_of_mem _ mem) nest inner)

theorem expr (ready : StagesReady R ns [stage]) (mem : e ∈ stage.exprs) : R ns e :=
  ready.own (.first (.own mem))

theorem nest (ready : StagesReady R ns [stage]) (mem : n ∈ stage.nests) : n.Fits ∧ StagesReady R ns n.stages :=
  ⟨ready.nests (.here mem_cons_self mem), fun reads => ready.own (.first (.nest mem reads)),
    fun reads => ready.plain (.first (.nest mem reads)),
    fun holds => ready.nests (.inside mem_cons_self mem holds)⟩

end StagesReady

theorem level_ready (stage : Stage) (is : levelOf? stage = some level) (sound : StageSound (Names.of ns) stage)
    (ready : StagesReady R ns [stage]) : level.All (Planned R ns) :=
  .of_stage is fun _ mem => ⟨sound.level mem, ready.expr mem⟩

theorem parentKey_toList (i : Nat) : ∃ rest, (parentKey i).toList = '_' :: '_' :: 'p' :: rest := by
  refine ⟨(toString i).toList, ?_⟩
  show ("__p" ++ toString i).toList = _
  rw [String.toList_append]
  rfl

theorem parentKey_reserved (i : Nat) : isReserved (parentKey i) = true := by
  obtain ⟨rest, chars⟩ := parentKey_toList i
  rw [isReserved, chars]
  rfl

theorem rowNumber_reserved : isReserved rowNumberColumn = true := by decide

theorem parentKey_ne_rowNumber (i : Nat) : parentKey i ≠ rowNumberColumn := by
  intro same
  obtain ⟨rest, chars⟩ := parentKey_toList i
  rw [same] at chars
  cases chars

section Chained

variable {previous : Stage} (cte : String) (parents : Nat) (location : Location)
  (free : ∀ f ∈ previous.outputSchema, isReserved f.name = false)

/-- What the next stage of a nest finds: the number of a row first, then the columns of the stage before it,
then the keys of enclosing rows. -/
theorem chainedInput_lookup (name : String) :
    (chainedInput cte parents previous location).fields.lookup? name =
      if rowNumberColumn = name then some (.ofColumn rowNumberColumn .number location)
      else ((previous.outputSchema.reverse.find? fun f => f.name == name).or
        (((List.range parents).map fun i => ResultField.atomic (parentKey i) .null).reverse.find?
          fun f => f.name == name)).map (FieldDef.ofResult location) := by
  show (Namespace.ofResult _ location).lookup? name = _
  rw [lookup?_ofResult, reverse_append, reverse_append, reverse_singleton,
    singleton_append, List.find?_cons]
  split
  · next same =>
    rw [if_pos (show rowNumberColumn = name from beq_iff_eq.mp same)]
    rfl
  · next other =>
    rw [if_neg (show rowNumberColumn ≠ name from beq_eq_false_iff_ne.mp other), List.find?_append]

include free in
theorem chainedInput_le :
    Names.ofSchema previous.outputSchema ≤ Names.of (chainedInput cte parents previous location).fields := by
  refine Namespace.names_le fun name f found => ?_
  rw [lookup?_ofResult] at found
  obtain ⟨field, here, rfl⟩ := Option.map_eq_some_iff.mp found
  have unreserved : rowNumberColumn ≠ name := by
    rintro rfl
    have same : field.name = rowNumberColumn := by simpa using List.find?_some here
    have other := free field (mem_reverse.mp (List.mem_of_find?_eq_some here))
    rw [same] at other
    cases other
  refine ⟨FieldDef.ofResult location field, ?_, ?_⟩
  · rw [chainedInput_lookup, if_neg unreserved, here]
    rfl
  · unfold FieldDef.ofResult
    cases field.type <;> exact ⟨rfl, rfl, rfl⟩

include free in
theorem chainedKeys_level (mem : e ∈ chainedKeys parents) :
    e.level? (Names.of (chainedInput cte parents previous location).fields) = some .scalar := by
  obtain ⟨i, small, rfl⟩ := mem_map.mp mem
  have hidden : previous.outputSchema.reverse.find? (fun f => f.name == parentKey i) = none := by
    rw [List.find?_eq_none]
    intro f given same
    have other := free f (mem_reverse.mp given)
    rw [beq_iff_eq.mp same, parentKey_reserved] at other
    cases other
  rw [Expr.level?, Namespace.level_single, chainedInput_lookup, hidden]
  have isKey : (((List.range parents).map fun i => ResultField.atomic (parentKey i) .null).reverse.find?
      fun f => f.name == parentKey i).isSome = true := by
    rw [List.find?_isSome]
    exact ⟨_, mem_reverse.mpr (mem_map_of_mem small), beq_self_eq_true (parentKey i)⟩
  obtain ⟨key, found⟩ := Option.isSome_iff_exists.mp isKey
  obtain ⟨j, _, rfl⟩ := mem_map.mp (mem_reverse.mp (List.mem_of_find?_eq_some found))
  rw [found]
  rfl

theorem chainedFilters_level (mem : e ∈ (chainedInput cte parents previous location).filters) :
    e.level? (Names.of (chainedInput cte parents previous location).fields) = some .scalar := by
  have number : (Names.of (chainedInput cte parents previous location).fields).level [rowNumberColumn] =
      some .scalar := by
    rw [Namespace.level_single, chainedInput_lookup]
    rfl
  unfold chainedInput at mem
  split at mem
  · cases mem_singleton.mp mem
    simp only [Expr.level?, number]
    rfl
  · cases mem

end Chained

theorem ofCte_ready (duck : p.dialect = .duckdb) (name : String) (fields : List ResultField) (location : Location)
    (rows : ∀ e ∈ filters, e.level? (Names.of (.ofResult fields location)) = some .scalar) :
    Input.Ready p FlatExpr (fun _ _ => False) { Input.ofCte name fields location with filters } where
  dialect := duck
  base := ⟨flat_closed, And.right, .ofResult fields location, nofun⟩
  filters e mem := ⟨⟨_, rows e mem⟩, flat_ofResult fields location, Expr.scalar_plain (rows e mem)⟩
  drawn _ _ holds := holds.elim

structure Enclosure.Ready (p : Planner) (R : Namespace → Expr → Prop) (J : Namespace → Join → Prop)
    (e : Enclosure) : Prop where
  input : e.input.Ready p R J
  exprs : e.All (Planned R e.input.fields)

section Nests

variable {p : Planner}

theorem Enclosure.Ready.within {e : Enclosure} (ready : e.Ready p R J)
    (levelReady : level.All (Planned R e.input.fields)) :
    (e.within level).Ready p R J := ⟨ready.input, ready.exprs.within levelReady⟩

theorem chained_ready (duck : p.dialect = .duckdb) (cte : String) (parents : Nat) (location : Location)
    (free : ∀ f ∈ previous.outputSchema, isReserved f.name = false) :
    Enclosure.Ready p FlatExpr (fun _ _ => False)
      ⟨chainedInput cte parents previous location, chainedKeys parents, []⟩ where
  input := ofCte_ready duck cte _ location fun _ mem => chainedFilters_level cte parents location mem
  exprs.parents _ mem :=
    have level := chainedKeys_level cte parents location free mem
    ⟨⟨_, level⟩, flat_ofResult _ _, Expr.scalar_plain level⟩
  exprs.inherited := nofun

theorem nestItem_ok (duck : p.dialect = .duckdb) (limit : ∀ limit ∈ rows.limit, limit ≤ maxNestLimit)
    (keys : List String) (position : Nat) : Succeeds (nestItem p keys position n rows) := by
  have small : rows.limit.all (· ≤ maxNestLimit) = true := by
    cases given : rows.limit with
    | none => rfl
    | some n => exact decide_eq_true (limit n given)
  rw [nestItem_eq, nestColumn, if_pos small, duck]
  exact .pure _

theorem planCollect_ok (ready : e.Ready p R J) (levelReady : level.All (Planned R e.input.fields))
    (planned : Succeeds columns) : Succeeds (planCollect p e level columns) := by
  refine .bind (planRows_ok ready.input ready.exprs.parents ready.exprs.inherited levelReady) fun _ => .bind (.define _ _) fun _ => .bind planned fun _ => .pure _

theorem lastLimit_cons (stage next : Stage) (rest : List Stage) :
    lastLimit (stage :: next :: rest) = lastLimit (next :: rest) := by
  rfl

mutual

theorem planColumns_ok (ready : e.Ready p R J) (levelReady : level.All (Planned R e.input.fields)) :
    ∀ (position : Nat) (fields : List OutputField), (∀ f ∈ fields, OutputSound (Names.of e.input.fields) f) →
      (∀ n, .nest n ∈ fields → n.Fits ∧ StagesReady R e.input.fields n.stages) →
      Succeeds (planColumns p e level position fields)
  | _, [], _, _ => by
    exact .pure _
  | position, field :: rest, sound, nests => by
    refine .bind (planColumn_ok ready levelReady position field (sound field mem_cons_self)
      fun n is => nests n (is ▸ mem_cons_self)) fun _ => ?_
    exact .bind (planColumns_ok ready levelReady (position + 1) rest
      (fun f mem => sound f (mem_cons_of_mem _ mem))
      fun n mem => nests n (mem_cons_of_mem _ mem)) fun _ => .pure _

theorem planColumn_ok {e : Enclosure} (ready : e.Ready p R J) (levelReady : level.All (Planned R e.input.fields)) :
    ∀ (position : Nat) (field : OutputField), OutputSound (Names.of e.input.fields) field →
      (∀ n, field = .nest n → n.Fits ∧ StagesReady R e.input.fields n.stages) →
      Succeeds (planColumn p e level position field)
  | _, .dimension _, _, _ | _, .measure _, _, _ => by
    exact .pure _
  | position, .nest n, sound, nests => by
    obtain ⟨fits, stages⟩ := nests n rfl
    cases sound with
    | nest nonempty kinds stagesSound =>
      exact Reaches.bind (planNest_ok (ready.within levelReady) n nonempty kinds stagesSound fits stages)
        fun rows limit => nestItem_ok ready.input.dialect (fun l mem => fits.limit l (limit ▸ mem)) _ _

theorem planNest_ok (ready : e.Ready p R J) :
    ∀ (n : Nest), n.stages ≠ [] → (∀ stage ∈ n.stages, stage.kind ≠ .index) →
      StagesSound (Names.of e.input.fields) n.stages → n.Fits → StagesReady R e.input.fields n.stages →
      Reaches (fun _ => True) (planNest p e n) fun rows => rows.limit = lastLimit n.stages
  | ⟨_, [], _⟩, nonempty, _, _, _, _ => (nonempty rfl).elim
  | ⟨name, first :: rest, location⟩, _, kinds, sound, fits, stages => by
    cases sound with
    | cons firstSound later =>
      refine Reaches.bind (planNestStage_ok ready name first firstSound (kinds first mem_cons_self)
        stages.head) fun rows limit => ?_
      exact planNestStages_ok ready.input.dialect e.parents.length name location first rows rest limit later
        (fun stage mem => kinds stage (mem_cons_of_mem _ mem)) fits.names stages

theorem planNestStages_ok (duck : p.dialect = .duckdb) (parents : Nat) (name : String) (location : Location) :
    ∀ (previous : Stage) (rows : NestRows)
    (rest : List Stage), rows.limit = previous.restriction.limit →
      StagesSound (.ofSchema previous.outputSchema) rest → (∀ stage ∈ rest, stage.kind ≠ .index) →
      (∀ stage ∈ previous :: rest, ∀ f ∈ stage.outputSchema, isReserved f.name = false) →
      StagesReady R ns (previous :: rest) →
      Reaches (fun _ => True) (planNestStages p parents name location previous rows rest) fun rows =>
        rows.limit = lastLimit (previous :: rest)
  | _, _, [], limit, _, _, _, _ => by
    exact .pure limit
  | previous, rows, stage :: rest, _, sound, kinds, free, stages => by
    have unreserved := free previous mem_cons_self
    have ready := chained_ready duck rows.cte parents location unreserved
    have later : StagesReady FlatExpr (chainedInput rows.cte parents previous location).fields
        (stage :: rest) := stages.tail (flat_ofResult _ _)
    cases sound with
    | cons first sound =>
      refine Reaches.bind (planNestStage_ok ready name stage
        (first.mono (chainedInput_le rows.cte parents location unreserved)) (kinds stage mem_cons_self)
        later.head) fun rows limit => ?_
      exact planNestStages_ok duck parents name location stage rows rest limit sound
        (fun stage mem => kinds stage (mem_cons_of_mem _ mem))
        (fun stage mem => free stage (mem_cons_of_mem _ mem)) later

theorem planNestStage_ok (ready : e.Ready p R J) (name : String) :
    ∀ (stage : Stage), StageSound (Names.of e.input.fields) stage →
      stage.kind ≠ .index → StagesReady R e.input.fields [stage] →
      Reaches (fun _ => True) (planNestStage p e name stage) fun rows => rows.limit = stage.restriction.limit
  | .reduce fields having orderBy r, sound, _, stages => by
    have levelReady := level_ready (.reduce fields having orderBy r) rfl sound stages
    cases sound with
    | reduce _ _ outputs _ _ =>
      have columns := planColumns_ok ready levelReady 0 fields outputs fun n mem =>
        stages.nest (mem_filterMap.mpr ⟨_, mem, rfl⟩)
      exact Reaches.bind (planCollect_ok ready levelReady columns) fun _ _ =>
        Reaches.bind (Succeeds.define _ _) fun _ _ => .pure rfl
  | .project fields orderBy r, sound, _, stages => by
    have levelReady := level_ready (.project fields orderBy r) rfl sound stages
    cases sound with
    | project _ _ outputs _ _ =>
      have columns := planColumns_ok ready levelReady 0 fields outputs fun n mem =>
        stages.nest (mem_filterMap.mpr ⟨_, mem, rfl⟩)
      exact Reaches.bind (planCollect_ok ready levelReady columns) fun _ _ =>
        Reaches.bind (Succeeds.define _ _) fun _ _ => .pure rfl
  | .index _ _ _, _, notIndex, _ => (notIndex rfl).elim

end

end Nests

section Stages

variable {p : Planner} {R : Namespace → Expr → Prop} {J : Namespace → Join → Prop} {input : Input}

theorem planLevel_ok (ready : input.Ready p R J) (levelReady : level.All (Planned R input.fields))
    (outputs : ∀ f ∈ level.fields, OutputSound (Names.of input.fields) f)
    (nests : ∀ n, .nest n ∈ level.fields → n.Fits ∧ StagesReady R input.fields n.stages) :
    Succeeds (planLevel p input level) := by
  have enclosed : (Enclosure.ofInput input).Ready p R J := ⟨ready, nofun, nofun⟩
  unfold planLevel
  split
  · exact .bind (planCollect_ok enclosed levelReady (planColumns_ok enclosed levelReady 0 _ outputs nests))
      fun _ => .pure _
  · exact .bind (planRows_ok ready nofun nofun levelReady)
      fun _ => .pure _

theorem planStage_ok (ready : input.Ready p R J) (sound : StageSound (Names.of input.fields) stage)
    (stages : StagesReady R input.fields [stage]) : Succeeds (planStage p input stage) := by
  cases stage with
  | reduce fields having orderBy r =>
    have levelReady := level_ready (.reduce fields having orderBy r) rfl sound stages
    cases sound with
    | reduce _ _ outputs _ _ =>
      exact planLevel_ok ready levelReady outputs fun n mem =>
        stages.nest (mem_filterMap.mpr ⟨_, mem, rfl⟩)
  | project fields orderBy r =>
    have levelReady := level_ready (.project fields orderBy r) rfl sound stages
    cases sound with
    | project _ _ outputs _ _ =>
      exact planLevel_ok ready levelReady outputs fun n mem =>
        stages.nest (mem_filterMap.mpr ⟨_, mem, rfl⟩)
  | index fields weight r =>
    have planned {e : Expr} (mem : e ∈ (Stage.index fields weight r).exprs) : Planned R input.fields e :=
      ⟨sound.level mem, stages.expr mem⟩
    cases sound with
    | index nonempty _ _ _ =>
      refine planIndex_ok ready nonempty (fun f mem => planned ?_) (planned ?_) fun f mem => planned ?_
      · exact mem_append_left _ (mem_append_left _ (mem_map_of_mem mem))
      · exact mem_append_left _ (mem_append_right _ mem_cons_self)
      · exact mem_append_right _ (mem_map_of_mem mem)

end Stages

theorem planStages_ok (location : Location) : ∀ {stages : List Stage} {input : Input}
    {R : Namespace → Expr → Prop} {J : Namespace → Join → Prop}, stages ≠ [] → input.Ready p R J →
    StagesSound (Names.of input.fields) stages → StagesReady R input.fields stages →
    Succeeds (planStages p location input stages)
  | [], _, _, _, nonempty, _, _, _ => (nonempty rfl).elim
  | [last], input, _, _, _, ready, .cons first _, stages => planStage_ok ready first stages
  | stage :: next :: rest, input, R, J, _, ready, .cons first later, stages => by
    rw [planStages]
    · refine .bind (planStage_ok ready first stages.head) fun _ => .bind (.define _ _) fun name => ?_
      refine planStages_ok location nofun (ofCte_ready ready.dialect name _ location nofun)
        (later.mono (ofResult_le _ _ _)) (stages.tail (flat_ofResult _ _))
    · nofun

theorem slot_depth (mem : slot ∈ entries) : slot.field.depth ≤ slotsDepth entries := by
  induction entries with
  | nil => cases mem
  | cons first rest ih =>
    rcases mem_cons.mp mem with rfl | mem
    · exact Nat.le_max_left _ _
    · exact Nat.le_trans (ih mem) (Nat.le_max_right _ _)

theorem source_depth (s : Source) : s.depth = max s.origin.depth (slotsDepth s.fields.entries) := by
  obtain ⟨_, _, ⟨_⟩, _, _, _⟩ := s
  rw [Source.depth]

theorem query_depth (q : Query) : q.depth = q.source.depth + 1 := by
  obtain ⟨_, _, _, _⟩ := q
  rw [Query.depth]

theorem joined_depth {ns : Namespace} (found : ns.lookup? name = some (.join j)) :
    j.source.depth ≤ slotsDepth ns.entries := by
  obtain ⟨slot, mem, _, same⟩ := Slots.slot_of_lookup? found
  have depth := slot_depth mem
  obtain ⟨_, _, _, _, _⟩ := j
  rwa [same, FieldDef.depth] at depth

theorem Placed.depth {inner : Namespace} (placed : Placed J ns path inner) :
    slotsDepth inner.entries ≤ slotsDepth ns.entries := by
  induction placed with
  | here ns => exact Nat.le_refl _
  | join found _ _ ih =>
    have deeper := joined_depth found
    rw [source_depth] at deeper
    omega

/-- What makes a sound query one that can be planned. -/
structure Plannable (q : Query) : Prop where
  plain : ∀ {ns e}, q.Reaches ns e → e.containsUngroup = false
  nests : ∀ {n}, StagesHold q.stages n → n.Fits

theorem planWithin_ok : ∀ (depth : Nat) {q : Query}, q.depth ≤ depth → QuerySound q →
    (∀ r, q.Draws r → Plannable r) → Succeeds (planWithin .duckdb depth q)
  | 0, q, small, _, _ => by
    rw [query_depth] at small
    omega
  | depth + 1, q, small, .mk source nonempty stages sampled, plannable => by
    have own := plannable q (.self q)
    rw [query_depth, source_depth] at small
    cases source with
    | mk fields origin _ key rows _ =>
      have base : Base q.Reaches q.ReachesJoin q.source.fields q.source.primaryKey :=
        ⟨q.reaches_closed, own.plain, fields, key⟩
      have relation : ∀ sample : Option Sampling, (sample.isSome = true → q.source.origin.isTable = true) →
          Succeeds (sourceRelation ⟨.duckdb, planWithin .duckdb depth⟩ q.source sample) := by
        intro sample isTable
        refine sourceRelation_ok rfl (fun inner is => ?_) isTable
        refine planWithin_ok depth ?_ (origin inner is) fun r draws => plannable r (.source is draws)
        rw [is, Origin.depth] at small
        omega
      have ready (relation : Sql.Relation) : Input.Ready ⟨.duckdb, planWithin .duckdb depth⟩ q.Reaches
          q.ReachesJoin ⟨relation, q.source.fields, q.source.primaryKey, q.source.filters.map Filter.expr⟩ := by
        refine ⟨rfl, base, fun e mem => ?_, ?_⟩
        · obtain ⟨f, given, rfl⟩ := mem_map.mp mem
          exact ⟨⟨_, rows f given⟩, .filter given⟩
        · intro path parent name j inner placed found holds is
          cases ((fields.within placed.within).joined found).1 with
          | mk _ origin _ _ _ =>
            refine planWithin_ok depth ?_ (origin inner is) fun r draws => plannable r (.join holds is draws)
            have outer : slotsDepth parent.entries ≤ slotsDepth q.source.fields.entries := placed.depth
            have deeper := joined_depth found
            rw [source_depth, is, Origin.depth] at deeper
            omega
      rw [planWithin]
      unfold planPipeline
      cases h : q.stages with
      | nil => exact (nonempty h).elim
      | cons first rest =>
        rw [h] at stages sampled
        unfold sourceInput
        dsimp only
        rw [bind_assoc]
        refine .bind (relation first.sample sampled) fun relation => ?_
        refine planStages_ok q.location (cons_ne_nil _ _) (ready relation) stages ⟨fun reads => .stage ?_, ?_, ?_⟩
        · rw [h]
          exact reads
        · exact fun reads => own.plain (.stage (by rw [h]; exact reads))
        · exact fun holds => own.nests (by rw [h]; exact holds)

end Plan

end SemanticLayer
