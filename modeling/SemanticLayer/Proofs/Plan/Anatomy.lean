import SemanticLayer.Plan.Query
import SemanticLayer.Proofs.Dialect.Nest
import SemanticLayer.Proofs.Plan.Compile
import SemanticLayer.Proofs.Plan.Rows

/-!
What a planned statement is made of. Every query in it is one of a few kinds, and reads only queries that stand
before it in the `WITH` list. A query is told together with what it was made from: the input of its stage, the
joins that it reads, and what its expressions come to.
-/
namespace SemanticLayer.Plan

def Comes {α : Type} (action : CompileM α) (a : α) : Prop := ∀ c, Gives action c a c

def parentKeys (count : Nat) : List String := (List.range count).map parentKey

def nestColumns (parents : Nat) (fields : List ResultField) : List String :=
  parentKeys parents ++ fields.map ResultField.name ++ [rowNumberColumn]

/-- Queries that planning can come to, with their stages and with the numbers in them. -/
structure Family where
  query : Query → Prop
  stage : Stage → Prop
  number : String → Prop
  sound : ∀ {q : Query}, query q → QuerySound q
  stages : ∀ {q : Query} {inner : Stage}, query q → inner ∈ q.stages → stage inner
  nested : ∀ {outer inner : Stage} {n : Nest}, stage outer → n ∈ outer.nests → inner ∈ n.stages → stage inner
  source : ∀ {q inner : Query}, query q → q.source.origin = .query inner → query inner
  joined : ∀ {q inner : Query} {place : List String} {parent : Namespace} {name : String} {j : Join}, query q →
    Namespace.within? q.source.fields place = some parent → parent.lookup? name = some (.join j) →
    j.source.origin = .query inner → query inner
  decimal : ∀ n : Nat, number (toString n)
  fields : ∀ {q : Query}, query q → Namespace.Numbers q.source.fields number
  rows : ∀ {q : Query}, query q → ∀ f ∈ q.source.filters, f.expr.Numbers number
  exprs : ∀ {s : Stage}, stage s → ∀ e ∈ s.exprs, e.Numbers number

inductive Served (ctes : List Sql.Cte) (s : Source) : Sql.Relation → Prop where
  | table {path : String} {connection : Option String} (origin : s.origin = .table path connection) :
      Served ctes s (.table path)
  | text {text : String} (own : ∀ q, s.origin ≠ .query q) : Served ctes s (.raw text)
  | query {inner : Query} (origin : s.origin = .query inner)
      (mem : ⟨name, query⟩ ∈ ctes) (outputs : query.outputs = inner.outputSchema.map ResultField.name) :
      Served ctes s (.cte name)

/-- What a stage reads: the source of a query, or the columns that an earlier stage put out. -/
inductive Known (F : Family) (ctes : List Sql.Cte) : Input → Prop where
  | source (given : F.query q) (served : Served ctes q.source relation) :
      Known F ctes ⟨relation, q.source.fields, q.source.primaryKey, q.source.filters.map Filter.expr⟩
  | columns (mem : ⟨name, query⟩ ∈ ctes) (outputs : query.outputs = fields.map ResultField.name)
      (rows : ∀ e ∈ filters, e.level? (Names.of (.ofResult fields location)) = some .scalar ∧ e.Numbers F.number) :
      Known F ctes { Input.ofCte name fields location with filters }

structure LevelSound (n : Names) (parents inherited : List Expr) (level : Level) : Prop where
  parents : ∀ e ∈ parents, e.level? n = some .scalar
  inherited : ∀ e ∈ inherited, e.level? n = some .scalar
  filters : ∀ e ∈ level.filters, e.level? n = some .scalar
  dimensions : ∀ f ∈ level.dimensions, f.expr.level? n = some .scalar
  columns : ∀ c ∈ level.columns, ∃ l, c.1.expr.level? n = some l
  having : ∀ e ∈ level.having, e.level? n = some .aggregate

theorem LevelSound.read {parents inherited : List Expr} (sound : LevelSound n parents inherited level)
    (mem : e ∈ level.exprs parents inherited) : ∃ l, e.level? n = some l :=
  have own : level.All fun e => ∃ l, e.level? n = some l :=
    ⟨fun e mem => ⟨_, sound.filters e mem⟩, sound.columns, fun e mem => ⟨_, sound.having e mem⟩⟩
  own.exprs (fun e mem => ⟨_, sound.parents e mem⟩) (fun e mem => ⟨_, sound.inherited e mem⟩) e mem

def framed (level : Level) (parts : LevelParts) : Compilation :=
  if level.grouped then { Compilation.empty with frame := some ⟨parts.dimensions, parts.keys⟩ } else .empty

structure PartsOf (t : Target) (parents filters : List Expr) (level : Level) (parts : LevelParts)
    (c : Compilation) : Prop where
  keys : List.Forall₂ (fun e x => Comes (t.compileRoot e) x) parents parts.keys
  dimensions : List.Forall₂ (fun f x => x.1 = f.name ∧ Comes (t.compileRoot f.expr) x.2) level.dimensions
    parts.dimensions
  columns : ∃ mid, Gives (levelItems t parts.dimensions level) (framed level parts) parts.items mid ∧
    Gives (level.having.mapM t.compileRoot) mid parts.having c
  conditions : List.Forall₂ (fun e x => Comes (t.compileRoot e) x) filters parts.conditions

structure JoinAt (ctes : List Sql.Cte) (t : Target) (keyed : JoinPaths) (path : List String) (join : Sql.Join)
    (j : Join) (relation : Sql.Relation) (conditions : List Sql.Expr) : Prop where
  found : t.tree.join path = .ok j
  served : Served ctes j.source relation
  comes : Comes (joinConditions t path j) conditions
  is : join = joinOn keyed path relation conditions

structure FrameOf (ctes : List Sql.Cte) (t : Target) (input : Input) (conditions : List Sql.Expr)
    (keyed : JoinPaths) (frame : Frame) : Prop where
  source : frame.source = aliased keyed [] input.relation
  joins : List.Forall₂ (fun path join => ∃ j relation conditions,
    JoinAt ctes t keyed path join j relation conditions) t.tree.ordered frame.joins
  condition : ∃ filters, List.Forall₂ (fun e x => Comes (t.compileRoot e) x) input.filters filters ∧
    frame.condition = allOf? (filters ++ conditions)

structure RowsOf (F : Family) (d : Dialect) (ctes : List Sql.Cte) (input : Input) (parents inherited : List Expr)
    (level : Level) (tree : JoinTree) (parts : LevelParts) (c : Compilation) (frame : Frame) : Prop where
  known : Known F ctes input
  stage : ∃ stage, F.stage stage ∧ levelOf? stage = some level
  sound : LevelSound (Names.of input.fields) parents inherited level
  numbers : ∀ e ∈ level.exprs parents inherited, e.Numbers F.number
  reads : treeFor input (level.exprs parents inherited) = .ok tree
  compiled : PartsOf ⟨d, tree⟩ parents (inherited ++ level.filters) level parts c
  shared : FrameOf ctes ⟨d, tree⟩ input parts.conditions c.keyed frame

mutual

/-- A column that puts a field out: a value under its name, or the rows of a nest with the fields of its pipeline. -/
inductive Delivers (ctes : List Sql.Cte) : OutputField → Sql.SelectItem → Prop where
  | value (plain : f.isNest = false) (named : item.output? = some f.name) :
      Delivers ctes f item
  | nest {n : Nest} {cte : String} {query : Sql.Query} {e : Sql.Expr} (mem : ⟨cte, query⟩ ∈ ctes)
      (collects : e.collected? = some (cte, (pipelineSchema n.stages).map ResultField.name))
      (stages : Provides ctes n.stages query) : Delivers ctes (.nest n) (.named e n.name)

inductive DeliversAll (ctes : List Sql.Cte) : List OutputField → List Sql.SelectItem → Prop where
  | nil : DeliversAll ctes [] []
  | cons {f : OutputField} {item : Sql.SelectItem} {fields : List OutputField} {items : List Sql.SelectItem}
      (first : Delivers ctes f item) (rest : DeliversAll ctes fields items) :
      DeliversAll ctes (f :: fields) (item :: items)

/-- A query that puts the last of some stages out, where the `WITH` list has those before it. -/
inductive Provides (ctes : List Sql.Cte) : List Stage → Sql.Query → Prop where
  | last
      (outputs : stage.outputSchema.map ResultField.name <:+: query.outputs) (inside : items <:+: query.items)
      (each : DeliversAll ctes stage.outputs items) : Provides ctes [stage] query
  | later (mem : ⟨name, first⟩ ∈ ctes)
      (head : Provides ctes [stage] first) (tail : Provides ctes rest query) : Provides ctes (stage :: rest) query

end

inductive ColumnAt (d : Dialect) (ctes : List Sql.Cte) (keyColumns : List String) (position : Nat) :
    OutputField → Sql.SelectItem → Prop where
  | dimension (f : ExprField) :
      ColumnAt d ctes keyColumns position (.dimension f) (.named (.ofTable rowsAlias f.name) f.name)
  | measure (f : ExprField) :
      ColumnAt d ctes keyColumns position (.measure f) (.named (.ofTable rowsAlias f.name) f.name)
  | nest {n : Nest} {cte : String} {query : Sql.Query} {cut : Option Nat} {e : Sql.Expr}
      (mem : ⟨cte, query⟩ ∈ ctes) (outputs : query.outputs = nestColumns keyColumns.length (pipelineSchema n.stages))
      (stages : Provides ctes n.stages query) (built : d.nest (nestSource keyColumns position n cte cut) = .ok e) :
      ColumnAt d ctes keyColumns position (.nest n) (.named e n.name)

inductive ColumnsFrom (d : Dialect) (ctes : List Sql.Cte) (keyColumns : List String) :
    Nat → List OutputField → List Sql.SelectItem → Prop where
  | nil : ColumnsFrom d ctes keyColumns position [] []
  | cons {position : Nat} {field : OutputField} {item : Sql.SelectItem} {fields : List OutputField}
      {items : List Sql.SelectItem} (first : ColumnAt d ctes keyColumns position field item)
      (rest : ColumnsFrom d ctes keyColumns (position + 1) fields items) :
      ColumnsFrom d ctes keyColumns position (field :: fields) (item :: items)

structure CollectOf (F : Family) (d : Dialect) (ctes : List Sql.Cte) (parents : Nat) (level : Level)
    (name : String) (items : List Sql.SelectItem) : Prop where
  stage : ∃ stage, F.stage stage ∧ levelOf? stage = some level
  sorted : Sorted level.fields level.orderBy
  rows : ∃ query, ⟨name, query⟩ ∈ ctes ∧
    query.outputs = parentKeys parents ++ level.columns.map fun c => c.1.name
  columns : ColumnsFrom d ctes (parentKeys parents ++ level.dimensions.map ExprField.name) 0 level.fields items

def collectQuery (parents : Nat) (name : String) (items : List Sql.SelectItem) : Sql.Query :=
  { Sql.Query.empty with
    items := ((List.range parents).map fun i =>
      Sql.SelectItem.named (.ofTable rowsAlias (parentKey i)) (parentKey i)) ++ items
    source := some ⟨.cte name, some rowsAlias⟩ }

def numberItem (d : Dialect) (parents : Nat) (orderBy : List OrderBy) : Sql.SelectItem :=
  .named (.rowNumber ((List.range parents).map fun i => Sql.Expr.ofTable rowsAlias (parentKey i))
    (orderTerms d (.ofTable rowsAlias) orderBy)) rowNumberColumn

structure IndexOf (F : Family) (d : Dialect) (ctes : List Sql.Cte) (input : Input) (weight : Expr)
    (filters : List Expr) (field : IndexField) (tree : JoinTree) (column weighed text : Sql.Expr)
    (conditions : List Sql.Expr) (c : Compilation) (frame : Frame) : Prop where
  known : Known F ctes input
  stage : ∃ fields weights r, F.stage (.index fields weights r) ∧ field ∈ fields ∧
    weight = weights.getD standardWeight ∧ filters = r.filters.map Filter.expr
  dimension : (Names.of input.fields).level field.path = some .scalar
  weighs : weight.level? (Names.of input.fields) = some .aggregate
  rows : ∀ e ∈ filters, e.level? (Names.of input.fields) = some .scalar
  reads : treeFor input (.field field.path :: weight :: filters) = .ok tree
  value : Comes (Target.compileRoot ⟨d, tree⟩ (.field field.path)) column
  measure : Gives (Target.compileRoot ⟨d, tree⟩ weight) .empty weighed c
  restricted : List.Forall₂ (fun e x => Comes (Target.compileRoot ⟨d, tree⟩ e) x) filters conditions
  spelled : Comes (indexText d field.type column) text
  shared : FrameOf ctes ⟨d, tree⟩ input
    (conditions ++ if indexesValues field.type then [column.isNotNull] else []) c.keyed frame

inductive Emitted (F : Family) (d : Dialect) (ctes : List Sql.Cte) : Sql.Query → Prop where
  | rows {input : Input} {parents inherited : List Expr} {level : Level} {tree : JoinTree} {parts : LevelParts}
      {c : Compilation} {frame : Frame} {ungroups : List Sql.Join}
      (rows : RowsOf F d ctes input parents inherited level tree parts c frame)
      (widened : List.Forall₂ (fun u join => ∃ name, ⟨name, ungroupQuery frame u⟩ ∈ ctes ∧
        join = ungroupJoin name u) c.ungroups ungroups) (orderBy : List OrderBy) (limit : Option Nat) :
      Emitted F d ctes { rowsQuery level parts frame ungroups with
        orderBy := orderTerms d .ofColumn orderBy, limit }
  | ungroup {input : Input} {parents inherited : List Expr} {level : Level} {tree : JoinTree}
      {parts : LevelParts} {c : Compilation} {frame : Frame} {u : Ungroup}
      (rows : RowsOf F d ctes input parents inherited level tree parts c frame) (mem : u ∈ c.ungroups) :
      Emitted F d ctes (ungroupQuery frame u)
  | collected
      (collect : CollectOf F d ctes parents level name items) (orderBy : List OrderBy) (limit : Option Nat) :
      Emitted F d ctes { collectQuery parents name items with orderBy := orderTerms d .ofColumn orderBy, limit }
  | numbered {parents : Nat} {level : Level} {name : String} {items : List Sql.SelectItem}
      (collect : CollectOf F d ctes parents level name items) :
      Emitted F d ctes (collectQuery parents name (items ++ [numberItem d parents level.orderBy]))
  | indexField {input : Input} {weight : Expr} {filters : List Expr} {field : IndexField} {tree : JoinTree}
      {column weighed text : Sql.Expr} {conditions : List Sql.Expr} {c : Compilation} {frame : Frame}
      (index : IndexOf F d ctes input weight filters field tree column weighed text conditions c frame) :
      Emitted F d ctes (indexQuery field column weighed text frame)
  | indexUnion {parts : List Sql.Query} (nonempty : parts ≠ [])
      (outputs : ∀ part ∈ parts, part.unions = [] ∧
        part.items.filterMap Sql.SelectItem.output? = indexSchema.map ResultField.name)
      (each : ∀ part ∈ parts, Emitted F d ctes part) :
      Emitted F d ctes { Sql.Query.empty with unions := parts }
  | index {name : String} {query : Sql.Query} (mem : ⟨name, query⟩ ∈ ctes)
      (outputs : query.outputs = indexSchema.map ResultField.name) (limit : Option Nat) :
      Emitted F d ctes { Sql.Query.empty with
        items := indexSchema.map fun f => ⟨.ofColumn f.name, none⟩
        source := some ⟨.cte name, none⟩
        orderBy := orderTerms d .ofColumn [⟨"weight", .desc⟩]
        limit }

def stems : List String := ["source", "stage", "rows", "nest", "ungroup", "index"]

/-- A `WITH` list in which each query reads only those before it. -/
inductive Listed (F : Family) (d : Dialect) : List Sql.Cte → Prop where
  | nil : Listed F d []
  | snoc {ctes : List Sql.Cte} {stem : String} {query : Sql.Query} (before : Listed F d ctes)
      (emitted : Emitted F d ctes query) (named : stem ∈ stems) :
      Listed F d (ctes ++ [⟨s!"__{stem}{ctes.length}", query⟩])

mutual

theorem Delivers.mono (le : ctes ⊆ ctes') :
    Delivers ctes f item → Delivers ctes' f item
  | .value plain named => .value plain named
  | .nest mem collects stages => .nest (le mem) collects (stages.mono le)

theorem DeliversAll.mono (le : ctes ⊆ ctes') : DeliversAll ctes fields items → DeliversAll ctes' fields items
  | .nil => .nil
  | .cons first rest => .cons (first.mono le) (rest.mono le)

theorem Provides.mono (le : ctes ⊆ ctes') :
    Provides ctes stages query → Provides ctes' stages query
  | .last outputs inside each => .last outputs inside (each.mono le)
  | .later mem head tail => .later (le mem) (head.mono le) (tail.mono le)

end

section Growth

variable {F : Family} {d : Dialect} {ctes ctes' : List Sql.Cte} (le : ctes ⊆ ctes')

include le

theorem Served.mono (served : Served ctes s relation) : Served ctes' s relation := by
  cases served with
  | table origin => exact .table origin
  | text own => exact .text own
  | query origin mem outputs => exact .query origin (le mem) outputs

theorem Known.mono (known : Known F ctes input) : Known F ctes' input := by
  cases known with
  | source given served => exact .source given (served.mono le)
  | columns mem outputs rows => exact .columns (le mem) outputs rows

theorem FrameOf.mono (shared : FrameOf ctes t input conditions keyed frame) :
    FrameOf ctes' t input conditions keyed frame where
  __ := shared
  joins := shared.joins.imp fun _ _ ⟨j, relation, conditions, at'⟩ =>
    ⟨j, relation, conditions, { at' with served := at'.served.mono le }⟩

theorem RowsOf.mono (rows : RowsOf F d ctes input parents inherited level tree parts c frame) :
    RowsOf F d ctes' input parents inherited level tree parts c frame where
  __ := rows
  known := rows.known.mono le
  shared := rows.shared.mono le

theorem ColumnAt.mono (column : ColumnAt d ctes keyColumns position field item) :
    ColumnAt d ctes' keyColumns position field item := by
  cases column with
  | dimension f => exact .dimension f
  | measure f => exact .measure f
  | nest mem outputs stages built => exact .nest (le mem) outputs (stages.mono le) built

theorem ColumnsFrom.mono (columns : ColumnsFrom d ctes keyColumns position fields items) :
    ColumnsFrom d ctes' keyColumns position fields items := by
  induction columns with
  | nil => exact .nil
  | cons first rest ih => exact .cons (first.mono le) ih

theorem CollectOf.mono (collect : CollectOf F d ctes parents level name items) :
    CollectOf F d ctes' parents level name items where
  __ := collect
  rows :=
    let ⟨query, mem, outputs⟩ := collect.rows
    ⟨query, le mem, outputs⟩
  columns := collect.columns.mono le

theorem Emitted.mono (emitted : Emitted F d ctes query) : Emitted F d ctes' query := by
  induction emitted with
  | rows rows widened orderBy limit =>
    refine .rows (rows.mono le) (widened.imp fun _ _ ⟨name, mem, is⟩ => ?_) orderBy limit
    exact ⟨name, le mem, is⟩
  | ungroup rows mem => exact .ungroup (rows.mono le) mem
  | collected collect orderBy limit => exact .collected (collect.mono le) orderBy limit
  | numbered collect => exact .numbered (collect.mono le)
  | indexField index =>
    exact .indexField { index with known := index.known.mono le, shared := index.shared.mono le }
  | indexUnion nonempty outputs _ ih => exact .indexUnion nonempty outputs ih
  | index mem outputs limit => exact .index (le mem) outputs limit

end Growth

theorem Listed.emitted (listed : Listed F d ctes) :
    ∀ i, (h : i < ctes.length) → Emitted F d (ctes.take i) ctes[i].query := by
  induction listed with
  | nil => exact fun i h => (Nat.not_lt_zero i h).elim
  | @snoc ctes stem query before emitted named ih =>
    intro i h
    rcases Nat.lt_or_eq_of_le (Nat.le_of_lt_succ (by simpa using h)) with small | rfl
    · rw [List.take_append_of_le_length (Nat.le_of_lt small)]
      simpa [List.getElem_append_left small] using ih i small
    · simpa using emitted

end SemanticLayer.Plan
