import SemanticLayer.Proofs.Model.Reach

/-!
Expressions and stages in other words: every path that names a field is put differently, and everything else
stays. What stands behind a stage of a query reads its output columns, so only first stages are respelled.
-/
namespace SemanticLayer

open List

/-- A path as it reads where `new` is called `old`. -/
def respell (old new : String) : List String → List String
  | [] => []
  | name :: rest => (if name = new then old else name) :: rest

section Paths

variable {old new : String}

@[simp] theorem respell_nil : respell old new [] = [] := rfl

theorem respell_other (other : name ≠ new) (rest : List String) : respell old new (name :: rest) = name :: rest := by
  rw [respell, if_neg other]

@[simp] theorem respell_new (rest : List String) : respell old new (new :: rest) = old :: rest := by
  rw [respell, if_pos rfl]

theorem respell_append (nonempty : path ≠ []) (rest : List String) :
    respell old new (path ++ rest) = respell old new path ++ rest := by
  cases path with
  | nil => exact (nonempty rfl).elim
  | cons name path => rfl

@[simp] theorem respell_eq_nil : respell old new path = [] ↔ path = [] := by
  cases path <;> simp [respell]

theorem respell_dropLast (path : List String) : (respell old new path).dropLast = respell old new path.dropLast := by
  cases path with
  | nil => rfl
  | cons name rest => cases rest <;> simp [respell]

theorem respell_take (path : List String) (n : Nat) : (respell old new path).take n = respell old new (path.take n) := by
  cases path with
  | nil => simp
  | cons name rest => cases n <;> simp [respell]

@[simp] theorem respell_length (path : List String) : (respell old new path).length = path.length := by
  cases path <;> simp [respell]

end Paths

/-- Names of which those that are put differently mean what they meant. -/
structure Names.Respelled (f : List String → List String) (n m : Names) : Prop where
  level : ∀ path, m.level (f path) = n.level path
  joins : ∀ path, m.joins (f path) = n.joins path
  columns : ∀ name, m.columns name = n.columns name

namespace Expr

mutual

def mapPaths (f : List String → List String) : Expr → Expr
  | .literal value => .literal value
  | .column name => .column name
  | .field path => .field (f path)
  | .now => .now
  | .unary op a => .unary op (mapPaths f a)
  | .binary op a b => .binary op (mapPaths f a) (mapPaths f b)
  | .aggregate function locality arg => .aggregate function (f locality) (mapPathsOption f arg)
  | .filtered a filter => .filtered (mapPaths f a) (mapPaths f filter)
  | .choose arms otherwise => .choose (mapPathsArms f arms) (mapPathsOption f otherwise)
  | .cast a type safe => .cast (mapPaths f a) type safe
  | .truncate a unit type => .truncate (mapPaths f a) unit type
  | .extract a unit => .extract (mapPaths f a) unit
  | .offset a amount unit type subtract => .offset (mapPaths f a) (mapPaths f amount) unit type subtract
  | .isNull a negated => .isNull (mapPaths f a) negated
  | .isIn a values negated => .isIn (mapPaths f a) (mapPathsList f values) negated
  | .ungroup kind a fields => .ungroup kind (mapPaths f a) fields
  | .call function args => .call function (mapPathsList f args)

def mapPathsOption (f : List String → List String) : Option Expr → Option Expr
  | none => none
  | some e => some (mapPaths f e)

def mapPathsList (f : List String → List String) : List Expr → List Expr
  | [] => []
  | e :: rest => mapPaths f e :: mapPathsList f rest

def mapPathsArms (f : List String → List String) : List (Expr × Expr) → List (Expr × Expr)
  | [] => []
  | (condition, value) :: rest => (mapPaths f condition, mapPaths f value) :: mapPathsArms f rest

end

variable {f : List String → List String}

theorem mapPathsOption_eq (e : Option Expr) : mapPathsOption f e = e.map (mapPaths f) := by
  cases e <;> rfl

theorem mapPathsList_eq (es : List Expr) : mapPathsList f es = es.map (mapPaths f) := by
  induction es with
  | nil => rfl
  | cons e rest ih => rw [mapPathsList, ih, map_cons]

theorem mapPathsArms_eq (arms : List (Expr × Expr)) :
    mapPathsArms f arms = arms.map fun arm => (arm.1.mapPaths f, arm.2.mapPaths f) := by
  induction arms with
  | nil => rfl
  | cons arm rest ih => rw [mapPathsArms, ih, map_cons]

theorem parts_mapPaths (e : Expr) : (e.mapPaths f).parts = e.parts.map (mapPaths f) := by
  cases e with
  | aggregate function locality arg => cases arg <;> rfl
  | choose arms otherwise =>
    rw [mapPaths, parts, parts, map_append, mapPathsArms_eq]
    congr 1
    · rw [flatMap_map, map_flatMap]
      rfl
    · cases otherwise <;> rfl
  | isIn a values negated => rw [mapPaths, parts, parts, mapPathsList_eq, map_cons]
  | call function args => rw [mapPaths, parts, parts, mapPathsList_eq]
  | _ => rfl

theorem mapPaths_of_parts {e : Expr} (fields : ∀ path, e = .field path → f path = path)
    (aggregates : ∀ function locality arg, e = .aggregate function locality arg → f locality = locality)
    (parts : ∀ p ∈ e.parts, p.mapPaths f = p) : e.mapPaths f = e := by
  have same {es : List Expr} (each : ∀ p ∈ es, p.mapPaths f = p) : es.map (mapPaths f) = es :=
    (map_congr_left each).trans (map_id es)
  cases e with
  | literal | column | now => rfl
  | field path => rw [mapPaths, fields path rfl]
  | aggregate function locality arg =>
    rw [mapPaths, aggregates function locality arg rfl]
    cases arg with
    | none => rfl
    | some a => rw [mapPathsOption, parts a mem_cons_self]
  | unary op a | cast a _ _ | truncate a _ _ | extract a _ | isNull a _ | ungroup _ a _ =>
    rw [mapPaths, parts a mem_cons_self]
  | binary _ a b | filtered a b | offset a b _ _ _ =>
    rw [mapPaths, parts a mem_cons_self, parts b (mem_cons_of_mem _ mem_cons_self)]
  | choose arms otherwise =>
    have first : mapPathsArms f arms = arms := by
      rw [mapPathsArms_eq]
      refine (map_congr_left fun arm mem => ?_).trans (map_id arms)
      have inside {p : Expr} (mem' : p ∈ [arm.1, arm.2]) : p ∈ (Expr.choose arms otherwise).parts :=
        mem_append_left _ (mem_flatMap.mpr ⟨arm, mem, mem'⟩)
      rw [parts _ (inside mem_cons_self), parts _ (inside (mem_cons_of_mem _ mem_cons_self))]
      rfl
    have second : mapPathsOption f otherwise = otherwise := by
      cases otherwise with
      | none => rfl
      | some a => rw [mapPathsOption, parts a (mem_append_right _ mem_cons_self)]
    rw [mapPaths, first, second]
  | isIn a values negated =>
    rw [mapPaths, parts a mem_cons_self, mapPathsList_eq,
      same fun p mem => parts p (mem_cons_of_mem _ mem)]
  | call function args => rw [mapPaths, mapPathsList_eq, @same args parts]

theorem mapPaths_id (e : Expr) : e.mapPaths id = e := by
  induction e using parts_induction with
  | step e ih => exact mapPaths_of_parts (fun _ _ => rfl) (fun _ _ _ _ => rfl) ih

theorem mapPaths_leveled {n : Names} (fields : ∀ path l, n.level path = some l → f path = path)
    (joins : ∀ path, n.joins path = true → f path = path) {e : Expr} (level : e.level? n = some l) :
    e.mapPaths f = e := by
  induction e using parts_induction generalizing l with
  | step e ih =>
    refine mapPaths_of_parts (fun path is => ?_) (fun function locality arg is => ?_) fun p mem => ?_
    · rw [is] at level
      exact fields path l level
    · rw [is] at level
      exact joins locality (aggregate_level level).2.1
    · obtain ⟨l', level, _⟩ := level_parts level p mem
      exact ih p mem level

theorem levelList_map (same : ∀ e ∈ es, (e.mapPaths f).level? m = e.level? n) :
    levelList m (es.map (mapPaths f)) = levelList n es := by
  induction es with
  | nil => rfl
  | cons e rest ih =>
    rw [forall_mem_cons] at same
    rw [map_cons, levelList, levelList, same.1, ih same.2]

theorem level?_mapPaths (same : n.Respelled f m) (e : Expr) : (e.mapPaths f).level? m = e.level? n := by
  induction e using parts_induction with
  | step e ih =>
    have list : levelList m (e.mapPaths f).parts = levelList n e.parts := parts_mapPaths e ▸ levelList_map ih
    cases e with
    | column name => rw [mapPaths, level?, level?, same.columns]
    | field path => rw [mapPaths, level?, level?, same.level]
    | aggregate function locality arg =>
      have given : (mapPathsOption f arg).isSome = arg.isSome := by cases arg <;> rfl
      rw [mapPaths, level?, level?, same.joins, given, levelOption_eq, levelOption_eq]
      rw [mapPaths, parts, parts] at list
      rw [list]
    | filtered a condition => rw [mapPaths, level?, level?, ih a (by simp [parts]), ih condition (by simp [parts])]
    | ungroup kind a fields => rw [mapPaths, level?, level?, ih a (by simp [parts])]
    | _ => exact (level?_operation rfl).trans (list.trans (level?_operation rfl).symm)

end Expr

def Filter.mapPaths (f : List String → List String) (filter : Filter) : Filter :=
  { filter with expr := filter.expr.mapPaths f }

def ExprField.mapPaths (f : List String → List String) (field : ExprField) : ExprField :=
  { field with expr := field.expr.mapPaths f }

def IndexField.mapPath (f : List String → List String) (field : IndexField) : IndexField :=
  { field with path := f field.path }

def Restriction.mapPaths (f : List String → List String) (r : Restriction) : Restriction :=
  { r with filters := r.filters.map (Filter.mapPaths f) }

theorem Filter.map_mapPaths_id (filters : List Filter) : filters.map (Filter.mapPaths id) = filters := by
  refine (map_congr_left fun filter _ => ?_).trans (map_id filters)
  rw [Filter.mapPaths, Expr.mapPaths_id]
  rfl

theorem Restriction.mapPaths_id (r : Restriction) : r.mapPaths id = r := by
  rw [Restriction.mapPaths, Filter.map_mapPaths_id]

mutual

def Stage.mapPaths (f : List String → List String) : Stage → Stage
  | .reduce fields having orderBy r =>
    .reduce (mapOutputs f fields) (having.map (Filter.mapPaths f)) orderBy (r.mapPaths f)
  | .project fields orderBy r => .project (mapOutputs f fields) orderBy (r.mapPaths f)
  | .index fields weight r => .index (fields.map (IndexField.mapPath f)) (weight.map (Expr.mapPaths f)) (r.mapPaths f)

def OutputField.mapPaths (f : List String → List String) : OutputField → OutputField
  | .dimension field => .dimension (field.mapPaths f)
  | .measure field => .measure (field.mapPaths f)
  | .nest nest => .nest (Nest.mapPaths f nest)

def Nest.mapPaths (f : List String → List String) : Nest → Nest
  | ⟨name, stages, location⟩ => ⟨name, mapFirst f stages, location⟩

def mapFirst (f : List String → List String) : List Stage → List Stage
  | [] => []
  | first :: rest => Stage.mapPaths f first :: rest

def mapOutputs (f : List String → List String) : List OutputField → List OutputField
  | [] => []
  | field :: rest => OutputField.mapPaths f field :: mapOutputs f rest

end

def Query.respelled (q : Query) (s : Source) (f : List String → List String) : Query :=
  { q with source := s, stages := mapFirst f q.stages }

section Stages

variable {f : List String → List String}

theorem mapOutputs_eq (fields : List OutputField) : mapOutputs f fields = fields.map (OutputField.mapPaths f) := by
  induction fields with
  | nil => rfl
  | cons field rest ih => rw [mapOutputs, ih, map_cons]

mutual

theorem Stage.mapPaths_id : ∀ stage : Stage, stage.mapPaths id = stage
  | .reduce fields having orderBy r => by
    rw [Stage.mapPaths, mapOutputs_id fields, Restriction.mapPaths_id, Filter.map_mapPaths_id]
  | .project fields orderBy r => by rw [Stage.mapPaths, mapOutputs_id fields, Restriction.mapPaths_id]
  | .index fields weight r => by
    have same : Expr.mapPaths id = id := funext Expr.mapPaths_id
    rw [Stage.mapPaths, Restriction.mapPaths_id, same, Option.map_id]
    exact congrArg (Stage.index · weight r) (map_id fields)

theorem OutputField.mapPaths_id : ∀ field : OutputField, field.mapPaths id = field
  | .dimension field | .measure field => by rw [OutputField.mapPaths, ExprField.mapPaths, Expr.mapPaths_id]
  | .nest nest => by rw [OutputField.mapPaths, Nest.mapPaths_id nest]

theorem Nest.mapPaths_id : ∀ nest : Nest, nest.mapPaths id = nest
  | ⟨name, stages, location⟩ => by rw [Nest.mapPaths, mapFirst_id stages]

theorem mapFirst_id : ∀ stages : List Stage, mapFirst id stages = stages
  | [] => rfl
  | first :: rest => by rw [mapFirst, Stage.mapPaths_id first]

theorem mapOutputs_id : ∀ fields : List OutputField, mapOutputs id fields = fields
  | [] => rfl
  | field :: rest => by rw [mapOutputs, OutputField.mapPaths_id field, mapOutputs_id rest]

end

mutual

theorem Stage.outputSchema_mapPaths : ∀ stage : Stage, (stage.mapPaths f).outputSchema = stage.outputSchema
  | .reduce fields having orderBy r => by
    rw [Stage.mapPaths, Stage.outputSchema, Stage.outputSchema, outputFieldSchemas_mapPaths fields]
  | .project fields orderBy r => by
    rw [Stage.mapPaths, Stage.outputSchema, Stage.outputSchema, outputFieldSchemas_mapPaths fields]
  | .index fields weight r => rfl

theorem OutputField.resultField_mapPaths : ∀ field : OutputField, (field.mapPaths f).resultField = field.resultField
  | .dimension field | .measure field => rfl
  | .nest nest => by
    rw [OutputField.mapPaths, OutputField.resultField, OutputField.resultField, Nest.resultField_mapPaths nest]

theorem Nest.resultField_mapPaths : ∀ nest : Nest, (nest.mapPaths f).resultField = nest.resultField
  | ⟨name, stages, location⟩ => by
    rw [Nest.mapPaths, Nest.resultField, Nest.resultField, pipelineSchema_mapFirst stages]

theorem outputFieldSchemas_mapPaths : ∀ fields : List OutputField,
    outputFieldSchemas (mapOutputs f fields) = outputFieldSchemas fields
  | [] => rfl
  | field :: rest => by
    rw [mapOutputs, outputFieldSchemas, outputFieldSchemas, OutputField.resultField_mapPaths field,
      outputFieldSchemas_mapPaths rest]

theorem pipelineSchema_mapFirst : ∀ stages : List Stage, pipelineSchema (mapFirst f stages) = pipelineSchema stages
  | [] => rfl
  | [stage] => by
    rw [mapFirst, pipelineSchema, pipelineSchema, Stage.outputSchema_mapPaths stage]
  | stage :: next :: rest => by
    have later (s : Stage) : pipelineSchema (s :: next :: rest) = pipelineSchema (next :: rest) := by
      rw [pipelineSchema]
      exact cons_ne_nil _ _
    rw [mapFirst, later, later]

end

theorem OutputField.name_mapPaths (field : OutputField) : (field.mapPaths f).name = field.name := by
  cases field with
  | dimension | measure => rfl
  | nest nest =>
    obtain ⟨name, stages, location⟩ := nest
    rfl

theorem Stage.kind_mapPaths (stage : Stage) : (stage.mapPaths f).kind = stage.kind := by cases stage <;> rfl

theorem Stage.sample_mapPaths (stage : Stage) : (stage.mapPaths f).sample = stage.sample := by cases stage <;> rfl

theorem startsSampled_mapFirst (stages : List Stage) : startsSampled (mapFirst f stages) = startsSampled stages := by
  cases stages with
  | nil => rfl
  | cons first rest => simp [mapFirst, startsSampled, first.sample_mapPaths]

theorem mapFirst_eq_nil : mapFirst f stages = [] ↔ stages = [] := by
  cases stages <;> simp [mapFirst]

theorem names_mapPaths (fields : List OutputField) :
    (fields.map (OutputField.mapPaths f)).map OutputField.name = fields.map OutputField.name := by
  rw [map_map]
  exact map_congr_left fun field _ => field.name_mapPaths

theorem Sorted.mapPaths (sorted : Sorted fields orderBy) : Sorted (fields.map (OutputField.mapPaths f)) orderBy := by
  intro o mem
  obtain ⟨field, given, plain, isField⟩ := sorted o mem
  exact ⟨_, mem_map_of_mem given, by cases field <;> exact plain, field.name_mapPaths.trans isField⟩

variable {n m : Names}

theorem filters_mapPaths (same : n.Respelled f m) {filters : List Filter}
    (levels : ∀ x ∈ filters, x.expr.level? n = some l) :
    ∀ x ∈ filters.map (Filter.mapPaths f), x.expr.level? m = some l := by
  intro x mem
  obtain ⟨filter, given, rfl⟩ := mem_map.mp mem
  exact (Expr.level?_mapPaths same filter.expr).trans (levels filter given)

mutual

theorem StageSound.mapPaths (same : n.Respelled f m) {stage : Stage} : StageSound n stage → StageSound m (stage.mapPaths f)
  | .reduce nonempty distinct outputs groups rows sorted => by
    rw [Stage.mapPaths, mapOutputs_eq]
    refine .reduce (by simpa using nonempty) (by rwa [names_mapPaths]) (fun x mem => ?_) (filters_mapPaths same groups)
      (filters_mapPaths same rows) sorted.mapPaths
    obtain ⟨field, given, rfl⟩ := mem_map.mp mem
    exact (outputs field given).mapPaths same
  | .project nonempty distinct outputs dimensions rows sorted => by
    rw [Stage.mapPaths, mapOutputs_eq]
    refine .project (by simpa using nonempty) (by rwa [names_mapPaths]) (fun x mem => ?_) (fun x mem => ?_)
      (filters_mapPaths same rows) sorted.mapPaths
    · obtain ⟨field, given, rfl⟩ := mem_map.mp mem
      exact (outputs field given).mapPaths same
    · obtain ⟨field, given, rfl⟩ := mem_map.mp mem
      obtain ⟨x, rfl⟩ := dimensions field given
      exact ⟨_, rfl⟩
  | .index nonempty dimensions weights rows => by
    refine .index (by simpa using nonempty) (fun x mem => ?_) (fun e mem => ?_) (filters_mapPaths same rows)
    · obtain ⟨field, given, rfl⟩ := mem_map.mp mem
      exact (same.level field.path).trans (dimensions field given)
    · obtain ⟨weight, given, rfl⟩ := Option.map_eq_some_iff.mp mem
      exact (Expr.level?_mapPaths same weight).trans (weights weight given)

theorem OutputSound.mapPaths (same : n.Respelled f m) :
    OutputSound n field → OutputSound m (field.mapPaths f)
  | .dimension level => .dimension ((Expr.level?_mapPaths same _).trans level)
  | .measure level => .measure ((Expr.level?_mapPaths same _).trans level)
  | @OutputSound.nest _ ⟨name, stages, location⟩ nonempty kinds sound => by
    refine OutputSound.nest (fun empty => nonempty (mapFirst_eq_nil.mp empty)) ?_ (sound.mapFirst same)
    cases stages with
    | nil => exact kinds
    | cons first rest =>
      obtain ⟨here, others⟩ := forall_mem_cons.mp kinds
      exact forall_mem_cons.mpr ⟨first.kind_mapPaths ▸ here, others⟩

theorem StagesSound.mapFirst (same : n.Respelled f m) :
    StagesSound n stages → StagesSound m (mapFirst f stages)
  | .nil => .nil
  | .cons first later => .cons (first.mapPaths same) (by rwa [Stage.outputSchema_mapPaths])

end

end Stages

end SemanticLayer
