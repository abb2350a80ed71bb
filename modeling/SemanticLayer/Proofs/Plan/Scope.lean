import SemanticLayer.Proofs.Plan.Accepted
import SemanticLayer.Proofs.Plan.Pieces

/-!
Which tables the conditions of joins can name. Joins are made in the order of their declaration, each after its
parent, whatever their conditions read. So a condition is in scope just if the joins that it mentions come first.
-/
namespace SemanticLayer

open List hiding count

namespace Sql.Query

def labels (q : Query) (count : Nat) : List (Option String) :=
  (q.source.toList ++ (q.joins.take count).map Join.table).map TableRef.label

/-- The condition of a join names only tables that are there by then: the first one, those of joins before it,
and its own. -/
def InScope (q : Query) : Prop :=
  ∀ i join, q.joins[i]? = some join → ∀ condition ∈ join.condition, ∀ label name,
    (Expr.column (some label) name).Occurs condition → some label ∈ q.labels (i + 1)

end Sql.Query

/-- Queries that a query reads, through its source and through joins. -/
inductive Query.Over (q : Query) : Query → Prop where
  | self : q.Over q
  | source {r inner : Query} (reach : q.Over r) (origin : r.source.origin = .query inner) : q.Over inner
  | joined {r inner : Query} {place : List String} {parent : Namespace} {name : String} {j : Join}
      (reach : q.Over r) (within : Namespace.within? r.source.fields place = some parent)
      (found : parent.lookup? name = some (.join j)) (origin : j.source.origin = .query inner) : q.Over inner

namespace Namespace

def Scoped (root : Namespace) (paths : List (List String)) : Prop :=
  ∀ i place name parent j, paths[i]? = some (place ++ [name]) → root.within? place = some parent →
    parent.lookup? name = some (.join j) → ∀ rest column, j.Mentions parent name rest column →
      Plan.aliasOf (place ++ rest) ∈ Plan.aliasOf [] :: (paths.take (i + 1)).map Plan.aliasOf

/-- Joins whose conditions mention only what they join: their parent and themselves. -/
def Straight (root : Namespace) : Prop :=
  ∀ place name parent j, root.within? place = some parent → parent.lookup? name = some (.join j) →
    ∀ rest column, j.Mentions parent name rest column → rest = [] ∨ rest = [name]

end Namespace

namespace Plan

/-- Joins that mention only what they join are in scope wherever they stand. -/
theorem scoped_of_straight {root : Namespace} (straight : root.Straight) (first : ParentsFirst [] paths) :
    root.Scoped paths := by
  intro i place name parent j is within found rest column mentions
  obtain ⟨small, at'⟩ := List.getElem?_eq_some_iff.mp is
  have own : place ++ [name] ∈ paths.take (i + 1) := by
    rw [take_succ_eq_append_getElem small, at']
    exact mem_append_right _ mem_cons_self
  rcases straight place name parent j within found rest column mentions with rfl | rfl
  · have above := first i _ is
    rw [dropLast_concat] at above
    rw [append_nil]
    rcases above with rfl | mem
    · exact mem_cons_self
    · have earlier : paths.take i ⊆ paths.take (i + 1) := (take_prefix_take_left (by omega)).subset
      exact mem_cons_of_mem _ (mem_map_of_mem (earlier mem))
  · exact mem_cons_of_mem _ (mem_map_of_mem own)

/-- A join that is labelled by its path, and names just what it mentions. -/
structure JoinedAt (root : Namespace) (path : List String) (join : Sql.Join) : Prop where
  label : join.table.label = some (aliasOf path)
  names : ∃ place name parent j, path = place ++ [name] ∧ root.within? place = some parent ∧
    parent.lookup? name = some (.join j) ∧ ∀ table column,
      (∃ x ∈ join.condition, (Sql.Expr.column table column).Occurs x) ↔ j.ColumnsAt place parent name table column

theorem JoinAt.joined (sound : FieldsSound t.tree.root) (at' : JoinAt ctes t keyed path join j relation conditions) :
    JoinedAt t.tree.root path join := by
  constructor
  · rw [at'.is]
    unfold joinOn
    split <;> rfl
  · obtain ⟨place, name, parent, rfl, within, found⟩ := joinFrom_inv at'.found
    refine ⟨place, name, parent, j, rfl, within, found, fun table column => ?_⟩
    have jointly := at'.comes.steady (joinConditions_exactly sound .any within found)
    rw [at'.is, joinOn_condition]
    constructor
    · rintro ⟨x, is, occurs⟩
      exact (jointly.allOf is).neat _ occurs
    · intro reads
      obtain ⟨y, mem, occurs⟩ := jointly.reads reads
      cases is : allOf? conditions with
      | none =>
        cases conditions with
        | nil => cases mem
        | cons => cases is
      | some x => exact ⟨x, rfl, occurs.trans (Sql.Expr.occurs_allOf mem is)⟩

theorem joined_labels (along : List.Forall₂ (JoinedAt root) paths joins) :
    joins.map (fun join => join.table.label) = paths.map fun path => some (aliasOf path) := by
  induction along with
  | nil => rfl
  | cons first _ ih => rw [map_cons, map_cons, first.label, ih]

section Labels

variable {query : Sql.Query} {root : Namespace} {paths : JoinPaths} {own widened : List Sql.Join}
  {table : Sql.TableRef} (source : query.source = some table) (base : table.label = some (aliasOf []))
  (joins : query.joins = own ++ widened) (along : List.Forall₂ (JoinedAt root) paths own)

include source base joins along

theorem mem_labels (small : i < own.length) :
    some label ∈ query.labels (i + 1) ↔ label ∈ aliasOf [] :: (paths.take (i + 1)).map aliasOf := by
  have listed : query.labels (i + 1) =
      some (aliasOf []) :: (paths.take (i + 1)).map fun path => some (aliasOf path) := by
    rw [map_take, ← joined_labels along, Sql.Query.labels, source, joins,
      take_append_of_le_length small]
    simp [base, Function.comp_def]
  rw [listed]
  simp only [mem_cons, Option.some.injEq, mem_map]

theorem mem_labels_later (large : own.length ≤ i) (is : widened[i - own.length]? = some join)
    (named : join.table.label = some label ∨ label ∈ aliasOf [] :: paths.map aliasOf) :
    some label ∈ query.labels (i + 1) := by
  have before : query.joins.take (i + 1) = own ++ widened.take (i - own.length + 1) := by
    rw [joins, take_append, take_of_length_le (by omega)]
    congr 2
    omega
  have among {l : Option String} (mem : l ∈ (own ++ widened.take (i - own.length + 1)).map fun j => j.table.label) :
      l ∈ query.labels (i + 1) := by
    obtain ⟨j, given, rfl⟩ := mem_map.mp mem
    exact mem_map_of_mem (mem_append_right _ (mem_map_of_mem (before ▸ given)))
  rcases named with own' | named
  · have here : join ∈ widened.take (i - own.length + 1) := by
      obtain ⟨bound, at'⟩ := List.getElem?_eq_some_iff.mp is
      rw [take_succ_eq_append_getElem bound, at']
      exact mem_append_right _ mem_cons_self
    exact among (own' ▸ mem_map_of_mem (mem_append_right _ here))
  rcases mem_cons.mp named with rfl | inside
  · rw [← base, Sql.Query.labels, source]
    exact mem_cons_self
  · obtain ⟨path, given, rfl⟩ := mem_map.mp inside
    refine among ?_
    rw [map_append, joined_labels along]
    exact mem_append_left _ (mem_map_of_mem given)

/-- Joins along some paths, and others after them that name only these, are in scope if the paths are. -/
theorem inScope_iff
    (later : ∀ join ∈ widened, ∀ x ∈ join.condition, ∀ label column,
      (Sql.Expr.column (some label) column).Occurs x → join.table.label = some label ∨
        label ∈ aliasOf [] :: paths.map aliasOf) :
    query.InScope ↔ root.Scoped paths := by
  have length : paths.length = own.length := along.length_eq
  constructor
  · intro inScope i place name parent j is within found rest column mentions
    obtain ⟨small, at'⟩ := List.getElem?_eq_some_iff.mp is
    have small' : i < own.length := length ▸ small
    obtain ⟨_, place', name', parent', j', same, within', found', names⟩ :=
      (forall₂_iff_get.mp along).2 i small small'
    rw [get_eq_getElem, at'] at same
    obtain ⟨rfl, last⟩ := append_inj' same rfl
    cases last
    rw [within] at within'
    cases within'
    rw [found] at found'
    cases found'
    obtain ⟨x, isCondition, occurs⟩ := (names _ _).mpr ⟨rest, mentions, rfl⟩
    refine (mem_labels source base joins along small').mp (inScope i _ ?_ x isCondition _ _ occurs)
    rw [joins, List.getElem?_append_left small']
    exact List.getElem?_eq_getElem small'
  · intro holds i join is x isCondition label column occurs
    rw [joins] at is
    by_cases small : i < own.length
    · rw [List.getElem?_append_left small] at is
      obtain ⟨_, rfl⟩ := List.getElem?_eq_some_iff.mp is
      have small' : i < paths.length := length ▸ small
      obtain ⟨_, place, name, parent, j, same, within, found, names⟩ :=
        (forall₂_iff_get.mp along).2 i small' small
      obtain ⟨rest, mentions, isLabel⟩ := (names _ _).mp ⟨x, isCondition, occurs⟩
      cases isLabel
      refine (mem_labels source base joins along small).mpr
        (holds i place name parent j ?_ within found rest column mentions)
      rw [← same]
      exact List.getElem?_eq_getElem small'
    · have large : own.length ≤ i := Nat.le_of_not_lt small
      rw [List.getElem?_append_right large] at is
      have named := later join (mem_of_getElem? is) x isCondition label column occurs
      exact mem_labels_later source base joins along large is named

end Labels

structure JoinsAlong (tree : JoinTree) (count : Nat) (query : Sql.Query) : Prop where
  base : query.joins ≠ [] → query.source.bind Sql.TableRef.label = some (aliasOf [])
  reached : ∀ path ∈ tree.ordered, path ≠ [] ∧ ∃ inner, tree.root.within? path = some inner
  labels : query.joins.map (fun join => join.table.label) =
    tree.ordered.map (fun path => some (aliasOf path)) ++ (List.range count).map fun i => some s!"__u{i}"
  scope : query.InScope ↔ tree.root.Scoped tree.ordered

def JoinTree.bare : JoinTree := .ofRoot (.ofResult [] default) none

theorem joinsAlong_bare (none : query.joins = []) : JoinsAlong .bare 0 query where
  base some := (some none).elim
  reached := nofun
  labels := by rw [none]; rfl
  scope := by
    constructor
    · exact fun _ => nofun
    · intro _ i join is
      rw [none] at is
      cases is

section Selects

variable {F : Family} {d : Dialect} {ctes : List Sql.Cte} {input : Input} {tree : JoinTree} {frame : Frame}

section

variable (known : Known F ctes input) (spans : tree.Over (fun _ _ => True) input.fields input.key) (shared : FrameOf ctes ⟨d, tree⟩ input conditions keyed frame)

include known spans shared

theorem FrameOf.joined :
    List.Forall₂ (JoinedAt input.fields) tree.ordered frame.joins := by
  have root : tree.root = input.fields := spans.root_eq
  refine shared.joins.imp fun path join ⟨j, relation, conditions, at'⟩ => ?_
  exact root ▸ at'.joined (root ▸ known.sound.fields)

theorem FrameOf.along (widened : List Sql.Join)
    (source : query.source = some frame.source) (joins : query.joins = frame.joins ++ widened)
    (labels : widened.map (fun join => join.table.label) = (List.range count).map fun i => some s!"__u{i}")
    (later : ∀ join ∈ widened, ∀ x ∈ join.condition, ∀ label column,
      (Sql.Expr.column (some label) column).Occurs x → join.table.label = some label ∨
        label ∈ aliasOf [] :: tree.ordered.map aliasOf) : JoinsAlong tree count query := by
  have along : List.Forall₂ (JoinedAt tree.root) tree.ordered frame.joins := spans.root_eq ▸ shared.joined known spans
  refine ⟨fun _ => ?_, fun path mem => ?_, ?_, ?_⟩
  · rw [source, shared.source]
    rfl
  · obtain ⟨_, _, _, place, name, parent, j, rfl, within, found, _⟩ := exists_of_forall₂ along.flip mem
    exact ⟨by simp, j.source.fields, Namespace.within?_join within found⟩
  · rw [joins, map_append, joined_labels along, labels]
  · refine inScope_iff source ?_ joins along later
    rw [shared.source]
    rfl

end

variable {parents inherited : List Expr} {level : Level} {parts : LevelParts} {c : Compilation}

theorem RowsOf.keys_listed (rows : RowsOf F d ctes input parents inherited level tree parts c frame)
    (mem : x ∈ parts.keys ∨ x ∈ parts.dimensions.map Prod.snd) :
    x.Neat d F.number fun table _ => ∃ label ∈ aliasOf [] :: tree.ordered.map aliasOf, table = some label := by
  have root : tree.root = input.fields := rows.over.root_eq
  have listed {e : Expr} (comes : Comes (Target.compileRoot ⟨d, tree⟩ e) x)
      (scalar : e.level? (Names.of input.fields) = some .scalar)
      (read : e ∈ level.exprs parents inherited) :
      x.Neat d F.number fun table _ => ∃ label ∈ aliasOf [] :: tree.ordered.map aliasOf, table = some label := by
    have exactly := comes.steady (scalar_exactly (root ▸ rows.known.sound.fields) (root ▸ rows.known.numbers.1) _
      rfl (root ▸ scalar) (rows.numbers e read))
    refine exactly.1.neat.mono ?_
    rintro table name ⟨rest, mentions, rfl⟩
    refine ⟨_, ?_, rfl⟩
    rcases mention_listed root rows.reads (mem_append_right _ read) (root ▸ mentions) with rfl | mem
    · exact mem_cons_self
    · exact mem_cons_of_mem _ (mem_map_of_mem mem)
  rcases mem with mem | mem
  · obtain ⟨e, given, comes⟩ := exists_of_forall₂ rows.compiled.keys mem
    exact listed comes (rows.sound.parents e given) (by simp [Level.exprs, given])
  · obtain ⟨dimension, inside, rfl⟩ := mem_map.mp mem
    obtain ⟨f, given, _, comes⟩ := exists_of_forall₂ rows.compiled.dimensions inside
    refine listed comes (rows.sound.dimensions f given) ?_
    have column : f.expr ∈ level.columns.map fun c => c.1.expr :=
      mem_map.mpr ⟨(f, false), dimension_column.mp given, rfl⟩
    simp only [Level.exprs, mem_append]
    exact .inl (.inl (.inr column))

theorem RowsOf.widened_names (rows : RowsOf F d ctes input parents inherited level tree parts c frame)
    (neat : PartsNeat d F.number (fun _ _ _ => True) parts c) (mem : u ∈ c.ungroups)
    (is : x ∈ (ungroupJoin name u).condition) (occurs : (Sql.Expr.column (some label) column).Occurs x) :
    (ungroupJoin name u).table.label = some label ∨ label ∈ aliasOf [] :: tree.ordered.map aliasOf := by
  have names : x.Neat d F.number fun table _ => table = some u.label ∨
      ∃ label ∈ aliasOf [] :: tree.ordered.map aliasOf, table = some label := by
    refine ungroupJoin_neat (fun y inside => ?_) (fun _ _ => .inl rfl) x is
    exact (rows.keys_listed (neat.partitions u mem y inside)).mono fun _ _ => .inr
  rcases names _ occurs with own | ⟨_, listed, same⟩
  · exact .inl own.symm
  · cases same
    exact .inr listed

theorem widened_labels
    (widened : List.Forall₂ (fun u join => ∃ name, ⟨name, ungroupQuery frame u⟩ ∈ ctes ∧ join = ungroupJoin name u)
      ungroups joins) : joins.map (fun join => join.table.label) = ungroups.map fun u => some u.label := by
  induction widened with
  | nil => rfl
  | cons first _ ih =>
    obtain ⟨name, _, rfl⟩ := first
    rw [map_cons, ih]
    rfl

def Family.Root (F : Family) (root : Namespace) : Prop := (∃ r, F.query r ∧ root = r.source.fields) ∨ Flat root

theorem Known.root (known : Known F ctes input) : F.Root input.fields := by
  cases known with
  | source given _ => exact .inl ⟨_, given, rfl⟩
  | columns => exact .inr (flat_ofResult _ _)

theorem Emitted.along (emitted : Emitted F d ctes query) :
    ∃ tree count, F.Root tree.root ∧ JoinsAlong tree count query := by
  have flat : F.Root JoinTree.bare.root := .inr (flat_ofResult _ _)
  cases emitted with
  | @rows _ _ _ _ tree _ c _ ungroups rows widened orderBy limit =>
    obtain ⟨parted, _⟩ := rows.neat (grounds rows.known.sound rows.known.numbers.1 rows.over)
      (fun _ _ _ => ⟨fun _ _ _ _ => trivial, fun _ _ _ _ => trivial⟩) fun _ _ _ _ => trivial
    refine ⟨tree, c.ungroups.length, rows.over.root_eq ▸ rows.known.root, ?_⟩
    refine rows.shared.along rows.known rows.over ungroups rfl rfl ?_ ?_
    · have numbered := congrArg (List.map some) parted.tidy.labels
      rw [map_map, map_map] at numbered
      exact (widened_labels widened).trans numbered
    · intro join mem x is label column occurs
      obtain ⟨u, given, name, _, rfl⟩ := exists_of_forall₂ widened mem
      exact rows.widened_names parted given is occurs
  | @ungroup _ _ _ _ tree _ _ _ _ rows mem =>
    exact ⟨tree, 0, rows.over.root_eq ▸ rows.known.root,
      rows.shared.along rows.known rows.over [] rfl (append_nil _).symm rfl nofun⟩
  | @indexField _ _ _ _ tree _ _ _ _ _ _ index =>
    exact ⟨tree, 0, index.over.root_eq ▸ index.known.root,
      index.shared.along index.known index.over [] rfl (append_nil _).symm rfl nofun⟩
  | collected | numbered | indexUnion | index => exact ⟨.bare, 0, flat, joinsAlong_bare rfl⟩

theorem Piece.along (piece : Piece F d ctes query) :
    ∃ tree count, F.Root tree.root ∧ JoinsAlong tree count query := by
  have flat : F.Root JoinTree.bare.root := .inr (flat_ofResult _ _)
  cases piece with
  | emitted emitted => exact emitted.along
  | keyed | nested => exact ⟨.bare, 0, flat, joinsAlong_bare rfl⟩

theorem statement_along (listed : Listed F d ctes) (emitted : Emitted F d ctes last)
    (inside : select.Within { last with ctes, limit }) :
    ∃ tree count, F.Root tree.root ∧ JoinsAlong tree count select := by
  rcases statement_pieces listed emitted inside with piece | rfl
  · exact piece.along
  · obtain ⟨tree, count, root, along⟩ := emitted.along
    exact ⟨tree, count, root, along.base, along.reached, along.labels, along.scope⟩

end Selects

def queriesOver (q : Query) : Family where
  query r := QuerySound r ∧ q.Over r
  stage _ := True
  sound := And.left
  stages _ _ := trivial
  nested _ _ _ := trivial
  source given origin := ⟨soundQueries.source given.1 origin, given.2.source origin⟩
  joined given within found origin :=
    ⟨soundQueries.joined given.1 within found origin, given.2.joined within found origin⟩
  number _ := True
  decimal _ := trivial
  fields _ := .any
  rows _ _ _ _ _ := trivial
  exprs _ _ _ _ _ := trivial

theorem plan_along (built : Elaborate.Built m) (recorded : m.Records q) (planned : q.plan d limit = .ok statement)
    (inside : select.Within statement) :
    ∃ tree count, (queriesOver q).Root tree.root ∧ JoinsAlong tree count select := by
  have sound : (queriesOver q).query q := ⟨(Elaborate.built_sound built).recorded recorded, .self⟩
  obtain ⟨ctes, last, rfl, listed, emitted, _⟩ := plan_emitted sound planned
  exact statement_along listed emitted inside

end Plan

/-- The joins of a planned `SELECT` are those of a tree over the relation that it reads, in the order of their
declaration, and widened aggregates come last. Their conditions are in scope just if the joins of the tree mention
only what comes before them; so it is wherever joins mention only what they join. -/
theorem conditions_in_scope_iff {m : Model} (built : Elaborate.Built m) {q : Query} (recorded : m.Records q)
    {d : Dialect} {limit : Option Nat} {statement : Sql.Query} (planned : q.plan d limit = .ok statement)
    {select : Sql.Query} (inside : select.Within statement) :
    ∃ (tree : Plan.JoinTree) (count : Nat),
      ((∃ r, q.Over r ∧ tree.root = r.source.fields) ∨ Flat tree.root) ∧
      (∀ path ∈ tree.ordered, path ≠ [] ∧ ∃ inner, tree.root.within? path = some inner) ∧
      select.joins.map (fun join => join.table.label) = tree.ordered.map (fun path => some (Plan.aliasOf path)) ++
        (List.range count).map (fun i => some s!"__u{i}") ∧
      (select.InScope ↔ tree.root.Scoped tree.ordered) ∧ (tree.root.Straight → select.InScope) := by
  obtain ⟨tree, count, root, along⟩ := Plan.plan_along built recorded planned inside
  refine ⟨tree, count, root.imp_left fun ⟨r, given, is⟩ => ⟨r, given.2, is⟩, along.reached, along.labels,
    along.scope, fun straight => ?_⟩
  exact along.scope.mpr (Plan.scoped_of_straight straight (Plan.usedSlots_parentsFirst _))

namespace Elaborate

def orderTables : Inputs :=
  ⟨"file:///orders.model", ⟨[("orders", .known [⟨"customer_id", .number⟩]),
    ("customers", .known [⟨"id", .number⟩, ⟨"region_id", .number⟩]), ("regions", .known [⟨"id", .number⟩])], []⟩,
    fun _ => .duckdb, []⟩

def deliveries : List Document.Statement :=
  let field (path : List String) : Document.Expr := ⟨.field ⟨path, default⟩, default⟩
  let keyed (name : String) : Document.Statement :=
    .source ⟨name, default⟩ (.refine (.table none name default) [.primaryKey ⟨"id", default⟩] default) default
  let join (name source : String) (key : List String) : Document.JoinDecl :=
    ⟨⟨name, default⟩, .one, some (.named ⟨source, default⟩), some (.key (field key)), default⟩
  [keyed "customers", keyed "regions", .query none
    ⟨.source (.refine (.table none "orders" default)
        [.join [join "region" "regions" ["customer", "region_id"], join "customer" "customers" ["customer_id"]]]
        default),
      [.stage ⟨[.project [.reference ⟨["region", "id"], default⟩ []]], default⟩], default⟩ default]

def deliveriesQuery : Query :=
  let location : Location := ⟨"file:///orders.model", default⟩
  let keyed (name : String) (columns : TableSchema) : Source :=
    ⟨name, .table name none, Namespace.ofColumns columns location, some "id", [], location⟩
  ⟨none, ⟨"orders", .table "orders" none,
      ((Namespace.ofColumns [⟨"customer_id", .number⟩] location).insert "region"
        (.join ⟨"region", .one, keyed "regions" [⟨"id", .number⟩], .key (.field ["customer", "region_id"]),
          location⟩)).insert "customer"
        (.join ⟨"customer", .one, keyed "customers" [⟨"id", .number⟩, ⟨"region_id", .number⟩],
          .key (.field ["customer_id"]), location⟩),
      none, [], location⟩,
    [.project [.dimension ⟨"id", .field ["region", "id"], .number, location⟩] [] ⟨[], none, none⟩], location⟩

theorem deliveries_recorded : (document orderTables ⟨deliveries⟩).Records deliveriesQuery := by
  have queries : (document orderTables ⟨deliveries⟩).queries = [.ok deliveriesQuery] := by cbv
  exact .inr (queries ▸ mem_cons_self)

def deliveriesStatement : Sql.Query :=
  let join (source name : String) (key : Sql.Expr) : Sql.Join :=
    ⟨.left, ⟨.table source, some name⟩, some (.binary .eq key (.ofTable name "id"))⟩
  { Sql.Query.empty with
    items := [.named (.ofTable "region" "id") "id"], source := some ⟨.table "orders", some "base"⟩
    joins := [join "regions" "region" (.ofTable "customer" "region_id"),
      join "customers" "customer" (.ofTable "base" "customer_id")] }

theorem deliveries_planned : deliveriesQuery.plan .duckdb none = .ok deliveriesStatement := rfl

theorem deliveries_in_scope_iff : Built (document orderTables ⟨deliveries⟩) ∧
    (document orderTables ⟨deliveries⟩).Records deliveriesQuery ∧
    deliveriesQuery.plan .duckdb none = .ok deliveriesStatement ∧ deliveriesStatement.Within deliveriesStatement ∧
    ∃ (tree : Plan.JoinTree) (count : Nat),
      ((∃ r, deliveriesQuery.Over r ∧ tree.root = r.source.fields) ∨ Flat tree.root) ∧
      (∀ path ∈ tree.ordered, path ≠ [] ∧ ∃ inner, tree.root.within? path = some inner) ∧
      deliveriesStatement.joins.map (fun join => join.table.label) =
        tree.ordered.map (fun path => some (Plan.aliasOf path)) ++
          (List.range count).map (fun i => some s!"__u{i}") ∧
      (deliveriesStatement.InScope ↔ tree.root.Scoped tree.ordered) ∧
      (tree.root.Straight → deliveriesStatement.InScope) := by
  have built : Built (document orderTables ⟨deliveries⟩) := .document _ _ nofun
  exact ⟨built, deliveries_recorded, deliveries_planned, .self,
    conditions_in_scope_iff built deliveries_recorded deliveries_planned .self⟩

/-- The first join names the second one. -/
theorem deliveries_out_of_scope : Built (document orderTables ⟨deliveries⟩) ∧
    (document orderTables ⟨deliveries⟩).Records deliveriesQuery ∧
    deliveriesQuery.plan .duckdb none = .ok deliveriesStatement ∧ ¬deliveriesStatement.InScope := by
  refine ⟨.document _ _ nofun, deliveries_recorded, deliveries_planned, fun inScope => ?_⟩
  have named := inScope 0 _ rfl _ rfl "customer" "region_id" (.part List.mem_cons_self .here)
  revert named
  decide

end Elaborate

end SemanticLayer
