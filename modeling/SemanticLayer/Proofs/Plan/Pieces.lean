import SemanticLayer.Proofs.Plan.Statement

/-!
The expressions of planned queries. They read what the relations offer, and queries stand inside of them only
where the rows of a nest are collected. So every `SELECT` in a statement is a query of a known kind, a relation
with a generated key, or the query of a nest.
-/
namespace SemanticLayer.Plan

open List

theorem Comes.steady {α : Type} {action : CompileM α} {a : α} {Q : α → Prop} (comes : Comes action a)
    (steady : Steady action Q) : Q a := (steady .empty a .empty (comes .empty)).2.1

theorem neat_of_forall₂ {α β : Type} {f : α → CompileM β} {Q : β → Prop} {items : List α} {results : List β}
    (all : List.Forall₂ (fun a b => Comes (f a) b) items results) (each : ∀ a ∈ items, Steady (f a) Q) :
    ∀ b ∈ results, Q b := by
  intro b mem
  obtain ⟨a, given, comes⟩ := exists_of_forall₂ all mem
  exact comes.steady (each a given)

section Neat

variable {d : Dialect} {tree : JoinTree} {N : String → Prop} {A : JoinPaths → Option String → String → Prop}

def JoinsOwn (tree : JoinTree) (A : JoinPaths → Option String → String → Prop) : Prop :=
  ∀ path j, tree.join path = .ok j →
    (∀ e ∈ j.correlation.condition?, e.Columns fun name => A [] (some (aliasOf path.dropLast)) name) ∧
      ∀ f ∈ j.source.filters, f.expr.Columns fun name => A [] (some (aliasOf path)) name

def RootOwns (A : JoinPaths → Option String → String → Prop) (exprs : List Expr) : Prop :=
  ∀ e ∈ exprs, e.Columns fun name => A [] (some (aliasOf [])) name

structure PartsNeat (d : Dialect) (N : String → Prop) (A : JoinPaths → Option String → String → Prop) (parts : LevelParts)
    (c : Compilation) : Prop where
  keys : ∀ x ∈ parts.keys, x.Neat d N (A [])
  dimensions : ∀ x ∈ parts.dimensions, x.2.Neat d N (A [])
  items : ∀ item ∈ parts.items, item.expr.Neat d N (c.Reads A)
  having : ∀ x ∈ parts.having, x.Neat d N (c.Reads A)
  conditions : ∀ x ∈ parts.conditions, x.Neat d N (A [])
  partitions : ∀ u ∈ c.ungroups, ∀ x ∈ u.partition, x ∈ parts.keys ∨ x ∈ parts.dimensions.map Prod.snd
  tidy : c.Tidy d N A

theorem tidy_empty : Compilation.empty.Tidy d N A where
  filters := nofun
  dimensions := nofun
  parents := nofun
  partitions := nofun
  values := nofun
  labels := rfl

theorem framed_partitions
    (given : u ∈ (framed level parts).ungroups ∨
      ∃ frame ∈ (framed level parts).frame, ∃ kind fields, u.partition = partitionOf frame kind fields) :
    ∀ x ∈ u.partition, x ∈ parts.keys ∨ x ∈ parts.dimensions.map Prod.snd := by
  unfold framed at given
  split at given
  · rcases given with mem | ⟨_, ⟨⟩, kind, fields, is⟩
    · cases mem
    · rw [is]
      intro x mem
      rcases mem_append.mp mem with mem | mem
      · exact .inl mem
      · obtain ⟨dimension, kept, rfl⟩ := mem_map.mp mem
        exact .inr (mem_map_of_mem (mem_of_mem_filter kept))
  · rcases given with mem | ⟨_, ⟨⟩, _⟩
    cases mem

theorem PartsOf.neat (g : Grounds ⟨d, tree⟩ N A) (sound : LevelSound (Names.of tree.root) parents inherited level)
    (own : ∀ e ∈ level.exprs parents inherited, Allowed N A [] e)
    (compiled : PartsOf ⟨d, tree⟩ parents (inherited ++ level.filters) level parts c) : PartsNeat d N A parts c := by
  simp only [Level.exprs, forall_mem_append] at own
  obtain ⟨⟨⟨ownParents, ownColumns⟩, ownInherited, ownFilters⟩, ownHaving⟩ := own
  have keys : ∀ x ∈ parts.keys, x.Neat d N (A []) :=
    neat_of_forall₂ compiled.keys fun e mem => g.root (sound.parents e mem) (ownParents e mem)
  have dimensions : ∀ x ∈ parts.dimensions, x.2.Neat d N (A []) := by
    intro x mem
    obtain ⟨f, given, _, comes⟩ := exists_of_forall₂ compiled.dimensions mem
    refine comes.steady (g.root (sound.dimensions f given) ?_)
    exact ownColumns _ (mem_map.mpr ⟨(f, false), dimension_column.mp given, rfl⟩)
  have conditions : ∀ x ∈ parts.conditions, x.Neat d N (A []) := by
    refine neat_of_forall₂ compiled.conditions fun e mem => ?_
    rcases mem_append.mp mem with mem | mem
    · exact g.root (sound.inherited e mem) (ownInherited e mem)
    · exact g.root (sound.filters e mem) (ownFilters e mem)
  have start : (framed level parts).Tidy d N A := by
    unfold framed
    split
    · refine { tidy_empty with dimensions := fun frame is x mem => ?_, parents := fun frame is x mem => ?_ }
      · cases is
        exact dimensions x mem
      · cases is
        exact keys x mem
    · exact tidy_empty
  obtain ⟨mid, items, having⟩ := compiled.columns
  have itemized := gives_mapM (R := Compilation.Grows)
    (Q := fun _ item c => item.expr.Neat d N (c.Reads A)) .refl .trans (fun grows neat => g.neat_grows grows neat)
    items start fun column mem c item c' tidy step => by
      have own := ownColumns _ (mem_map.mpr ⟨_, mem, rfl⟩)
      obtain ⟨l, leveled⟩ := sound.columns _ mem
      obtain ⟨x, rfl, come⟩ := levelItem_inv step
      split at come
      · exact g.compiled _ rfl leveled own come tidy
      · obtain ⟨mem, rfl⟩ := come
        exact ⟨tidy, .refl _, (dimensions _ mem).mono fun _ _ reads => .inl (g.mono (nil_subset _) reads)⟩
  obtain ⟨tidy, grown, itemsNeat⟩ := itemized
  obtain ⟨tidy, grows, havingNeat⟩ := gives_mapM (R := Compilation.Grows)
    (Q := fun _ x c => x.Neat d N (c.Reads A)) .refl .trans (fun grows neat => g.neat_grows grows neat)
    having tidy fun e mem c x c' tidy step => g.compiled _ rfl (sound.having e mem) (ownHaving e mem) step tidy
  refine ⟨keys, dimensions, fun item mem => ?_, fun x mem => ?_, conditions, fun u mem => ?_, tidy⟩
  · obtain ⟨_, _, neat⟩ := exists_of_forall₂ itemsNeat mem
    exact g.neat_grows grows neat
  · obtain ⟨_, _, neat⟩ := exists_of_forall₂ havingNeat mem
    exact neat
  · exact framed_partitions ((grown.trans grows).partitioned u mem)

structure FrameNeat (d : Dialect) (N : String → Prop) (A : JoinPaths → Option String → String → Prop) (frame : Frame) : Prop where
  joins : ∀ join ∈ frame.joins, ∀ x ∈ join.condition, x.Neat d N (A [])
  condition : ∀ x ∈ frame.condition, x.Neat d N (A [])

theorem joinOn_condition : (joinOn keyed path relation conditions).condition = allOf? conditions := by
  unfold joinOn
  split
  · next is => exact is.symm
  · next is => exact is.symm

theorem FrameOf.neat (g : Grounds ⟨d, tree⟩ N A) (joins : JoinsOwn tree A)
    (own : ∀ e ∈ input.filters, Allowed N A [] e)
    (rows : ∀ e ∈ input.filters, e.level? (Names.of tree.root) = some .scalar)
    (restricted : ∀ x ∈ conditions, x.Neat d N (A []))
    (shared : FrameOf ctes ⟨d, tree⟩ input conditions keyed frame) : FrameNeat d N A frame := by
  constructor
  · intro join mem x is
    obtain ⟨path, _, j, relation, conditions, at'⟩ := exists_of_forall₂ shared.joins mem
    have steady := g.joinConditions_steady at'.found (joins path j at'.found).1 (joins path j at'.found).2
    rw [at'.is, joinOn_condition] at is
    exact Sql.Expr.made_allOf (at'.comes.steady steady) x is
  · obtain ⟨filters, compiled, is⟩ := shared.condition
    rw [is]
    refine Sql.Expr.made_allOf (forall_mem_append.mpr ⟨?_, restricted⟩)
    exact neat_of_forall₂ compiled fun e mem => g.root (rows e mem) (own e mem)

/-- What the rows of a level may read: the relations, and the widened aggregates that are joined to them. -/
def rowsReads (A : JoinPaths → Option String → String → Prop) (c : Compilation) (table : Option String)
    (name : String) : Prop :=
  A c.keyed table name ∨ ∃ u ∈ c.ungroups, table = some u.label ∧
    (name = ungroupColumn ∨ ∃ i < u.partition.length, name = parentKey i)

theorem reads_rows (tidy : c.Tidy d N A) (reads : c.Reads A table name) : rowsReads A c table name := by
  rcases reads with reads | ⟨_, i, small, rfl, rfl⟩
  · exact .inl reads
  · have label : s!"__u{i}" ∈ c.ungroups.map Ungroup.label := by
      rw [tidy.labels]
      exact mem_map.mpr ⟨i, mem_range.mpr small, rfl⟩
    obtain ⟨u, mem, is⟩ := mem_map.mp label
    exact .inr ⟨u, mem, by rw [is], .inl rfl⟩

theorem parentItems_expr (mem : item ∈ parentItems es) : item.expr ∈ es := by
  obtain ⟨⟨key, i⟩, given, rfl⟩ := mem_map.mp mem
  exact fst_mem_of_mem_zipIdx given

theorem ungroupQuery_neat (g : Grounds ⟨d, tree⟩ N A) (shared : FrameNeat d N A frame) {c : Compilation}
    (tidy : c.Tidy d N A) (mem : u ∈ c.ungroups) : ∀ e ∈ (ungroupQuery frame u).exprs, e.Neat d N (A c.keyed) := by
  have widen {x : Sql.Expr} (neat : x.Neat d N (A [])) : x.Neat d N (A c.keyed) :=
    g.neat_mono (nil_subset _) neat
  intro e given
  simp only [Sql.Query.exprs, ungroupQuery, Frame.query, Sql.Query.empty, map_append, mem_append,
    mem_map, mem_filterMap, Option.mem_toList, Option.toList_none, map_nil, not_mem_nil,
    or_false, map_cons, mem_cons] at given
  rcases given with (((⟨item, isItem, rfl⟩ | rfl) | ⟨join, isJoin, is⟩) | is) | mem'
  · exact tidy.partitions u mem _ (parentItems_expr isItem)
  · exact tidy.values u mem
  · exact widen (shared.joins join isJoin e is)
  · exact widen (shared.condition e is)
  · exact tidy.partitions u mem e mem'

theorem ungroupJoin_neat (partition : ∀ x ∈ u.partition, x.Neat d N B)
    (own : ∀ i < u.partition.length, B (some u.label) (parentKey i)) :
    ∀ x ∈ (ungroupJoin name u).condition, x.Neat d N B := by
  have given {conditions : List Sql.Expr} (all : ∀ x ∈ conditions, x.Neat d N B) :
      ((allOf? conditions).getD (.literal (.bool true))).Neat d N B := by
    cases h : allOf? conditions with
    | none => simp
    | some condition => exact Sql.Expr.made_allOf all condition h
  intro x is
  cases is
  refine given fun x mem => ?_
  obtain ⟨⟨key, i⟩, at', rfl⟩ := mem_map.mp mem
  have small : i < u.partition.length := by exact snd_lt_of_mem_zipIdx at'
  refine Sql.Expr.each_nullSafeEq.mpr ⟨Sql.Expr.node_nullSafeEq rfl, ?_, ?_⟩
  · exact partition key (fst_mem_of_mem_zipIdx at')
  · exact Sql.Expr.each_column.mpr (own i small)

theorem rowsQuery_neat (g : Grounds ⟨d, tree⟩ N A) (level : Level) (neat : PartsNeat d N A parts c)
    (shared : FrameNeat d N A frame)
    (widened : ∀ join ∈ ungroups, ∃ name, ∃ u ∈ c.ungroups, join = ungroupJoin name u) :
    ∀ e ∈ (rowsQuery level parts frame ungroups).exprs, e.Neat d N (rowsReads A c) := by
  have widen {x : Sql.Expr} (neat : x.Neat d N (A [])) : x.Neat d N (rowsReads A c) :=
    neat.mono fun _ _ reads => .inl (g.mono (nil_subset _) reads)
  have read {x : Sql.Expr} (reads : x.Neat d N (c.Reads A)) : x.Neat d N (rowsReads A c) :=
    reads.mono fun _ _ => reads_rows neat.tidy
  intro e given
  simp only [Sql.Query.exprs, rowsQuery, Frame.query, Sql.Query.empty, map_append, mem_append,
    filterMap_append, mem_map, mem_filterMap, Option.mem_toList, map_nil, not_mem_nil,
    or_false] at given
  rcases given with ((((⟨item, isItem, rfl⟩ | ⟨item, isItem, rfl⟩) | ⟨join, isJoin, is⟩ | ⟨join, isJoin, is⟩) |
    is) | mem) | is
  · exact widen (neat.keys _ (parentItems_expr isItem))
  · exact read (neat.items item isItem)
  · exact widen (shared.joins join isJoin e is)
  · obtain ⟨name, u, mem, rfl⟩ := widened join isJoin
    refine ungroupJoin_neat (fun x inside => ?_) (fun i small => ?_) e is
    · exact (neat.tidy.partitions u mem x inside).mono fun _ _ => .inl
    · exact .inr ⟨u, mem, rfl, .inr ⟨i, small, rfl⟩⟩
  · exact widen (shared.condition e is)
  · split at mem
    · rcases mem_append.mp mem with mem | mem
      · exact widen (neat.keys e mem)
      · obtain ⟨x, given, rfl⟩ := mem_map.mp mem
        exact widen (neat.dimensions x given)
    · cases mem
  · exact Sql.Expr.made_allOf (fun x mem => read (neat.having x mem)) e is

theorem indexText_neat (neat : column.Neat d N B) (plain : column.Plain) : Steady (indexText d type column) fun x => x.Neat d N B := by
  have text {x : Sql.Expr} (inner : x.Neat d N B) : Steady (asText d x) fun y => y.Neat d N B :=
    .ofDialect fun _ is => Sql.Expr.made_cast inner is
  unfold indexText
  split
  · exact text neat
  · have ends {function : String} : (Sql.Expr.fn function [column]).Neat d N B := Sql.Expr.neat_aggregate ⟨neat, plain⟩
    refine .bind (text ends) fun low first => .bind (text ends) fun high second => .pure ?_
    refine Sql.Expr.each_call.mpr ⟨Sql.Expr.node_call (by decide), ?_⟩
    simp [Sql.Expr.string, first, second]

theorem IndexOf.numbers
    (index : IndexOf F d ctes input weight filters field tree column weighed text conditions c frame) :
    weight.Numbers F.number ∧ ∀ e ∈ filters, e.Numbers F.number := by
  obtain ⟨fields, weights, r, given, _, rfl, rfl⟩ := index.stage
  refine ⟨F.exprs given _ ?_, fun e mem => F.exprs given e (mem_append_right _ mem)⟩
  exact mem_append_left _ (mem_append_right _ mem_cons_self)

theorem indexQuery_neat (g : Grounds ⟨d, tree⟩ F.number A) (root : tree.root = input.fields) (joins : JoinsOwn tree A)
    (own : RootOwns A (input.filters ++ weight :: filters))
    (index : IndexOf F d ctes input weight filters field tree column weighed text conditions c frame) :
    ∀ e ∈ (indexQuery field column weighed text frame).exprs, e.Neat d F.number (A c.keyed) := by
  simp only [RootOwns, forall_mem_append, forall_mem_cons] at own
  obtain ⟨ownInput, ownWeight, ownFilters⟩ := own
  have dimension : (Expr.field field.path).level? (Names.of tree.root) = some .scalar := by
    rw [root]
    exact index.dimension
  have ⟨weightNumbers, filterNumbers⟩ := index.numbers
  have ⟨value, plain⟩ : column.Neat d F.number (A []) ∧ column.Plain :=
    index.value.steady (g.scalar _ rfl dimension ⟨Expr.columns_field, Expr.numbers_leaf rfl nofun⟩)
  have restricted : ∀ x ∈ conditions, x.Neat d F.number (A []) :=
    neat_of_forall₂ index.restricted fun e mem => g.root (root ▸ index.rows e mem)
      ⟨ownFilters e mem, filterNumbers e mem⟩
  have shared : FrameNeat d F.number A frame := by
    refine index.shared.neat g joins (fun e mem => ⟨ownInput e mem, index.known.numbers.2 e mem⟩) (root ▸ index.known.sound.filters) ?_
    refine forall_mem_append.mpr ⟨restricted, fun x mem => ?_⟩
    split at mem
    · cases mem_singleton.mp mem
      exact Sql.Expr.each_iff.mpr ⟨Sql.Expr.node_isNotNull, forall_mem_singleton.mpr value⟩
    · cases mem
  obtain ⟨tidy, grows, measure⟩ := g.compiled _ rfl (root ▸ index.weighs) ⟨ownWeight, weightNumbers⟩
    index.measure tidy_empty
  have measure : weighed.Neat d F.number (A c.keyed) := Grounds.neat_unframed grows.frame measure
  have widen {x : Sql.Expr} (neat : x.Neat d F.number (A [])) : x.Neat d F.number (A c.keyed) :=
    g.neat_mono (nil_subset _) neat
  have spelled : text.Neat d F.number (A c.keyed) := index.spelled.steady (indexText_neat (widen value) plain)
  intro e given
  simp only [Sql.Query.exprs, indexQuery, Frame.query, Sql.Query.empty, Sql.SelectItem.named, map_cons,
    map_nil, mem_append, mem_cons, mem_filterMap, Option.mem_toList, Option.toList_none,
    not_mem_nil, or_false] at given
  rcases given with (((rfl | rfl | rfl) | ⟨join, isJoin, is⟩) | is) | mem
  · simp [Sql.Expr.string]
  · exact spelled
  · exact measure
  · exact widen (shared.joins join isJoin e is)
  · exact widen (shared.condition e is)
  · split at mem
    · cases mem_singleton.mp mem
      exact widen value
    · cases mem

end Neat

section Nests

variable {d : Dialect} {ctes : List Sql.Cte} {keyColumns : List String} {position : Nat} {N : String → Prop}

/-- What the column of a nest may read: the rows of the nest, and the keys of the current row. -/
def nestReads (keyColumns : List String) (source : Dialect.NestSource) (table : Option String) (name : String) :
    Prop :=
  source.Reads table name ∨ (table = some source.label ∧ ∃ i < keyColumns.length, name = parentKey i) ∨
    (table = some rowsAlias ∧ name ∈ keyColumns)

theorem nestPredicate_neat (keys : ∀ i < keyColumns.length, A (some s!"__n{position}") (parentKey i))
    (current : ∀ column ∈ keyColumns, A (some rowsAlias) column)
    (number : A (some s!"__n{position}") rowNumberColumn) :
    ∀ x ∈ nestPredicate position keyColumns cut, x.Neat d N A := by
  refine Sql.Expr.made_allOf fun x mem => ?_
  rcases mem_append.mp mem with mem | mem
  · obtain ⟨⟨column, i⟩, at', rfl⟩ := mem_map.mp mem
    have small : i < keyColumns.length := by exact snd_lt_of_mem_zipIdx at'
    refine Sql.Expr.each_nullSafeEq.mpr ⟨Sql.Expr.node_nullSafeEq rfl, ?_, ?_⟩
    · exact Sql.Expr.each_column.mpr (keys i small)
    · exact Sql.Expr.each_column.mpr (current column (fst_mem_of_mem_zipIdx at'))
  · obtain ⟨limit, _, rfl⟩ := Option.map_eq_some_iff.mp (Option.mem_toList.mp mem)
    refine Sql.Expr.made_operation .lte ?_ (by simp [Sql.Expr.int])
    exact Sql.Expr.each_column.mpr number

theorem nestSource_neat :
    ∀ x ∈ (nestSource keyColumns position n cte cut).predicate,
      x.Neat d N (nestReads keyColumns (nestSource keyColumns position n cte cut)) :=
  nestPredicate_neat (fun i small => .inr (.inl ⟨rfl, i, small, rfl⟩)) (fun _ mem => .inr (.inr ⟨rfl, mem⟩))
    (.inl (.inr ⟨rfl, .inr rfl⟩))

def nestQuery (source : Dialect.NestSource) (aggregate : Sql.Expr) : Sql.Query :=
  { Sql.Query.empty with
    items := [⟨aggregate, none⟩], source := some ⟨.cte source.cte, some source.label⟩
    condition := source.predicate }

def keyedQuery (relation : Sql.Relation) : Sql.Query :=
  { Sql.Query.empty with
    items := [⟨.star (some "__keyed"), none⟩, .named Dialect.distinctKey distinctKeyColumn]
    source := some ⟨relation, some "__keyed"⟩ }

theorem keyedQuery_neat (mem : e ∈ (keyedQuery relation).exprs) : e.Neat d N A := by
  have given : e = .star (some "__keyed") ∨ e = Dialect.distinctKey := by
    simpa [Sql.Query.exprs, keyedQuery, Sql.Query.empty, Sql.SelectItem.named] using mem
  rcases given with rfl | rfl
  · simp
  · exact Sql.Expr.each_call.mpr ⟨Sql.Expr.node_call (by decide), forall_mem_nil _⟩

theorem column_cases (column : ColumnAt d ctes keyColumns position field item) :
    (∃ f, (field = .dimension f ∨ field = .measure f) ∧ item.expr = .ofTable rowsAlias f.name) ∨
    ∃ n cte query cut, ⟨cte, query⟩ ∈ ctes ∧ query.outputs = nestColumns keyColumns.length (pipelineSchema n.stages) ∧
      ((∃ aggregate, item.expr = .subquery (nestQuery (nestSource keyColumns position n cte cut) aggregate) ∧
          aggregate.Neat d N (nestSource keyColumns position n cte cut).Reads ∧ aggregate.Quiet) ∨
        item.expr.Neat d N (nestReads keyColumns (nestSource keyColumns position n cte cut)) ∧
          ∀ (text : Sql.Expr) (t : Sql.TableRef), text.Occurs item.expr → text.Spells t →
            t = ⟨.cte cte, some s!"__n{position}"⟩) := by
  cases column with
  | dimension f => exact .inl ⟨f, .inl rfl, rfl⟩
  | measure f => exact .inl ⟨f, .inr rfl, rfl⟩
  | @nest n cte query cut e mem outputs _ built =>
    refine .inr ⟨n, cte, query, cut, mem, outputs, ?_⟩
    rcases Sql.nest_neat built with ⟨aggregate, rfl, neat⟩ | neat
    · rcases Sql.nest_spells (N := N) built with ⟨_, same, quiet⟩ | ⟨⟨_, same⟩, _⟩
      · cases same
        exact .inl ⟨aggregate, rfl, neat, quiet⟩
      · cases same
    · have neat := neat _ (fun _ _ => .inl) nestSource_neat
      rcases Sql.nest_spells (N := N) built with ⟨_, rfl, _⟩ | ⟨_, spelled⟩
      · exact (neat.subquery .here).elim
      · exact .inr ⟨neat, spelled (nestPredicate_neat (fun _ _ => nofun) (fun _ _ => nofun) nofun)⟩

theorem mem_columnsFrom (columns : ColumnsFrom d ctes keyColumns position fields items) (mem : item ∈ items) :
    ∃ position, ∃ field ∈ fields, ColumnAt d ctes keyColumns position field item := by
  induction columns with
  | nil => cases mem
  | cons first _ ih =>
    rcases mem_cons.mp mem with rfl | mem
    · exact ⟨_, _, mem_cons_self, first⟩
    · obtain ⟨position, field, given, column⟩ := ih mem
      exact ⟨position, field, mem_cons_of_mem _ given, column⟩

theorem collectQuery_exprs :
    (collectQuery parents name items).exprs = ((List.range parents).map fun i =>
      Sql.Expr.ofTable rowsAlias (parentKey i)) ++ items.map Sql.SelectItem.expr := by
  simp [Sql.Query.exprs, collectQuery, Sql.Query.empty, Sql.SelectItem.named]

theorem numberItem_neat (keys : ∀ i < parents, A (some rowsAlias) (parentKey i))
    (order : ∀ o ∈ orderBy, A (some rowsAlias) o.field) : (numberItem d parents orderBy).expr.Neat d N A := by
  refine Sql.Expr.each_window.mpr ⟨Sql.Expr.node_window, Sql.Expr.each_call.mpr ⟨Sql.Expr.node_call (by decide), forall_mem_nil _⟩, fun x mem => ?_, fun o mem => ?_⟩
  · obtain ⟨i, small, rfl⟩ := mem_map.mp mem
    exact Sql.Expr.each_column.mpr (keys i (mem_range.mp small))
  · obtain ⟨by', given, rfl⟩ := mem_map.mp mem
    cases by'.direction <;> exact Sql.Expr.each_column.mpr (order by' given)

theorem orderTerms_column (mem : e ∈ (orderTerms d column orderBy).map Sql.OrderTerm.expr) :
    ∃ o ∈ orderBy, e = column o.field := by
  obtain ⟨term, given, rfl⟩ := mem_map.mp mem
  obtain ⟨o, isOrder, rfl⟩ := mem_map.mp given
  refine ⟨o, isOrder, ?_⟩
  cases o.direction <;> rfl

end Nests

section Pieces

variable {F : Family} {d : Dialect} {ctes : List Sql.Cte}

theorem RowsOf.over (rows : RowsOf F d ctes input parents inherited level tree parts c frame) :
    tree.Over (fun _ _ => True) input.fields input.key :=
  treeFor_over rows.known.sound (fun _ mem => rows.sound.read mem) rows.reads

theorem IndexOf.over
    (index : IndexOf F d ctes input weight filters field tree column weighed text conditions c frame) :
    tree.Over (fun _ _ => True) input.fields input.key := by
  refine treeFor_over index.known.sound (fun e mem => ?_) index.reads
  rcases mem_cons.mp mem with rfl | mem
  · exact ⟨.scalar, by rw [Expr.level?]; exact index.dimension⟩
  rcases mem_cons.mp mem with rfl | mem
  · exact ⟨_, index.weighs⟩
  · exact ⟨_, index.rows e mem⟩

theorem RowsOf.neat (rows : RowsOf F d ctes input parents inherited level tree parts c frame)
    (g : Grounds ⟨d, tree⟩ F.number A) (joins : JoinsOwn tree A)
    (own : RootOwns A (input.filters ++ level.exprs parents inherited)) :
    PartsNeat d F.number A parts c ∧ FrameNeat d F.number A frame := by
  have root : tree.root = input.fields := rows.over.root_eq
  have parted := rows.compiled.neat g (root ▸ rows.sound) fun e mem =>
    ⟨own e (mem_append_right _ mem), rows.numbers e mem⟩
  refine ⟨parted, rows.shared.neat g joins (fun e mem => ?_) ?_ parted.conditions⟩
  · exact ⟨own e (mem_append_left _ mem), rows.known.numbers.2 e mem⟩
  · exact root ▸ rows.known.sound.filters

inductive Piece (F : Family) (d : Dialect) (ctes : List Sql.Cte) : Sql.Query → Prop where
  | emitted (emitted : Emitted F d ctes query) : Piece F d ctes query
  | keyed {relation : Sql.Relation} (plain : ∀ r, relation ≠ .subquery r)
      (listed : ∀ name, relation = .cte name → ∃ query, ⟨name, query⟩ ∈ ctes) :
      Piece F d ctes (keyedQuery relation)
  | nested {keyColumns : List String} {position : Nat} {n : Nest} {cte : String} {query : Sql.Query}
      {cut : Option Nat} {aggregate : Sql.Expr} (mem : ⟨cte, query⟩ ∈ ctes)
      (outputs : query.outputs = nestColumns keyColumns.length (pipelineSchema n.stages))
      (neat : aggregate.Neat d F.number (nestSource keyColumns position n cte cut).Reads) (quiet : aggregate.Quiet) :
      Piece F d ctes (nestQuery (nestSource keyColumns position n cte cut) aggregate)

def PieceExpr (F : Family) (d : Dialect) (ctes : List Sql.Cte) (e : Sql.Expr) : Prop :=
  e.Neat d F.number (fun _ _ => True) ∨ ∃ query, Piece F d ctes query ∧ e = .subquery query

theorem ofTable_neat : PieceExpr F d ctes (.ofTable table name) :=
  .inl (Sql.Expr.each_column.mpr trivial)

theorem order_pieces (mem : e ∈ (orderTerms d .ofColumn orderBy).map Sql.OrderTerm.expr) : PieceExpr F d ctes e := by
  obtain ⟨o, _, rfl⟩ := orderTerms_column mem
  exact .inl (Sql.Expr.each_column.mpr trivial)

theorem CollectOf.pieces (collect : CollectOf F d ctes parents level name items) :
    ∀ e ∈ (collectQuery parents name items).exprs, PieceExpr F d ctes e := by
  rw [collectQuery_exprs, forall_mem_append]
  constructor
  · intro e mem
    obtain ⟨i, _, rfl⟩ := mem_map.mp mem
    exact ofTable_neat
  · intro e mem
    obtain ⟨item, given, rfl⟩ := mem_map.mp mem
    obtain ⟨position, field, _, column⟩ := mem_columnsFrom collect.columns given
    rcases column_cases column with ⟨f, _, is⟩ |
      ⟨n, cte, query, cut, mem, outputs, ⟨aggregate, is, neat, quiet⟩ | ⟨neat, _⟩⟩
    · rw [is]
      exact ofTable_neat
    · exact .inr ⟨_, .nested mem outputs neat quiet, is⟩
    · exact .inl (neat.mono fun _ _ _ => trivial)

theorem Emitted.pieces (emitted : Emitted F d ctes query) : ∀ e ∈ query.exprs, PieceExpr F d ctes e := by
  have anything {A : Option String → String → Prop} {e : Sql.Expr} (neat : e.Neat d F.number A) : PieceExpr F d ctes e :=
    .inl (neat.mono fun _ _ _ => trivial)
  cases emitted with
  | @rows _ _ _ level tree _ _ _ _ rows widened orderBy limit =>
    have g := grounds (t := ⟨d, tree⟩) rows.known.sound rows.known.numbers.1 rows.over
    obtain ⟨parted, shared⟩ := rows.neat g (fun _ _ _ => ⟨fun _ _ _ _ => trivial, fun _ _ _ _ => trivial⟩)
      fun _ _ _ _ => trivial
    have neat := rowsQuery_neat g level parted shared fun join mem => by
      obtain ⟨u, given, name, _, is⟩ := exists_of_forall₂ widened mem
      exact ⟨name, u, given, is⟩
    intro e mem
    rcases mem_append.mp mem with mem | mem
    · exact anything (neat e (mem_append_left _ mem))
    · exact order_pieces mem
  | @ungroup _ _ _ _ tree _ _ _ _ rows mem =>
    have g := grounds (t := ⟨d, tree⟩) rows.known.sound rows.known.numbers.1 rows.over
    obtain ⟨parted, shared⟩ := rows.neat g (fun _ _ _ => ⟨fun _ _ _ _ => trivial, fun _ _ _ _ => trivial⟩)
      fun _ _ _ _ => trivial
    exact fun e given => anything (ungroupQuery_neat g shared parted.tidy mem e given)
  | collected collect orderBy limit =>
    intro e mem
    rcases mem_append.mp mem with mem | mem
    · exact collect.pieces e (mem_append_left _ mem)
    · exact order_pieces mem
  | @numbered parents level name items collect =>
    have number : PieceExpr F d ctes (numberItem d parents level.orderBy).expr :=
      .inl (numberItem_neat (fun _ _ => trivial) fun _ _ => trivial)
    have own := collect.pieces
    rw [collectQuery_exprs] at own ⊢
    rw [map_append, ← List.append_assoc]
    exact forall_mem_append.mpr ⟨own, by simpa using number⟩
  | @indexField _ _ _ _ tree _ _ _ _ _ _ index =>
    have g := grounds (t := ⟨d, tree⟩) index.known.sound index.known.numbers.1 index.over
    have neat := indexQuery_neat g index.over.root_eq
      (fun _ _ _ => ⟨fun _ _ _ _ => trivial, fun _ _ _ _ => trivial⟩) (fun _ _ _ _ => trivial) index
    exact fun e mem => anything (neat e mem)
  | indexUnion => nofun
  | index mem outputs limit =>
    intro e given
    rcases mem_append.mp given with mem | mem
    · obtain ⟨f, _, rfl⟩ := mem_map.mp (by simpa [Sql.Query.empty] using mem)
      exact .inl (Sql.Expr.each_column.mpr trivial)
    · exact order_pieces mem

theorem Served.plain (served : Served ctes s relation) (r : Sql.Query) : relation ≠ .subquery r := by
  cases served <;> nofun

theorem Known.plain (known : Known F ctes input) (r : Sql.Query) : input.relation ≠ .subquery r := by
  cases known with
  | source given served => exact served.plain r
  | columns => nofun

theorem Served.listed (served : Served ctes s relation) (is : relation = .cte name) :
    ∃ query, ⟨name, query⟩ ∈ ctes := by
  cases served with
  | table | text => cases is
  | query _ mem _ => cases is; exact ⟨_, mem⟩

theorem Known.listed (known : Known F ctes input) (is : input.relation = .cte name) :
    ∃ query, ⟨name, query⟩ ∈ ctes := by
  cases known with
  | source given served => exact served.listed is
  | columns mem _ _ => cases is; exact ⟨_, mem⟩

def IsKeyed (ctes : List Sql.Cte) (r : Sql.Query) : Prop :=
  ∃ relation, (∀ r, relation ≠ .subquery r) ∧ (∀ name, relation = .cte name → ∃ query, ⟨name, query⟩ ∈ ctes) ∧
    r = keyedQuery relation

theorem aliased_subquery (plain : ∀ r, relation ≠ .subquery r)
    (listed : ∀ name, relation = .cte name → ∃ query, ⟨name, query⟩ ∈ ctes)
    (is : (aliased keyed path relation).relation = .subquery r) : IsKeyed ctes r := by
  unfold aliased at is
  split at is
  · cases is
    exact ⟨relation, plain, listed, rfl⟩
  · exact (plain r is).elim

theorem JoinAt.table (at' : JoinAt ctes t keyed path join j relation conditions) :
    join.table = aliased keyed path relation := by
  rw [at'.is]
  unfold joinOn
  split <;> rfl

theorem FrameOf.subquery (known : Known F ctes input) (shared : FrameOf ctes t input conditions keyed frame)
    (mem : table ∈ (frame.query []).tables) (is : table.relation = .subquery r) : IsKeyed ctes r := by
  rcases mem_append.mp mem with mem | mem
  · cases mem_singleton.mp mem
    rw [shared.source] at is
    exact aliased_subquery known.plain (fun _ => known.listed) is
  · obtain ⟨join, given, rfl⟩ := mem_map.mp mem
    obtain ⟨path, _, j, relation, conditions, at'⟩ := exists_of_forall₂ shared.joins given
    rw [at'.table] at is
    exact aliased_subquery at'.served.plain (fun _ => at'.served.listed) is

theorem rowsQuery_tables :
    (rowsQuery level parts frame ungroups).tables = (frame.query []).tables ++ ungroups.map Sql.Join.table := by
  simp [rowsQuery, Sql.Query.tables, Frame.query]

theorem Emitted.inner (emitted : Emitted F d ctes query) :
    query.ctes = [] ∧ (∀ u ∈ query.unions, Emitted F d ctes u) ∧
      ∀ table ∈ query.tables, ∀ r, table.relation = .subquery r → IsKeyed ctes r := by
  cases emitted with
  | @rows _ _ _ level _ parts _ frame ungroups rows widened orderBy limit =>
    refine ⟨rfl, nofun, fun table mem r is => ?_⟩
    change table ∈ (rowsQuery level parts frame ungroups).tables at mem
    rw [rowsQuery_tables] at mem
    rcases mem_append.mp mem with mem | mem
    · exact rows.shared.subquery rows.known mem is
    · obtain ⟨join, given, rfl⟩ := mem_map.mp mem
      obtain ⟨u, _, name, _, rfl⟩ := exists_of_forall₂ widened given
      cases is
  | ungroup rows mem => exact ⟨rfl, nofun, fun table mem r is => rows.shared.subquery rows.known mem is⟩
  | collected collect orderBy limit =>
    refine ⟨rfl, nofun, fun table mem r is => ?_⟩
    cases mem_singleton.mp mem
    cases is
  | numbered collect =>
    refine ⟨rfl, nofun, fun table mem r is => ?_⟩
    cases mem_singleton.mp mem
    cases is
  | indexField index => exact ⟨rfl, nofun, fun table mem r is => index.shared.subquery index.known mem is⟩
  | indexUnion nonempty outputs each => exact ⟨rfl, each, nofun⟩
  | index mem outputs limit =>
    refine ⟨rfl, nofun, fun table mem r is => ?_⟩
    cases mem_singleton.mp mem
    cases is

/-- What stands directly in a piece is a piece. -/
structure Inner (F : Family) (d : Dialect) (ctes : List Sql.Cte) (query : Sql.Query) : Prop where
  plain : query.ctes = []
  unions : ∀ u ∈ query.unions, Piece F d ctes u
  tables : ∀ table ∈ query.tables, ∀ r, table.relation = .subquery r → Piece F d ctes r
  exprs : ∀ e ∈ query.exprs, PieceExpr F d ctes e

theorem Piece.inner (piece : Piece F d ctes query) : Inner F d ctes query := by
  cases piece with
  | emitted emitted =>
    obtain ⟨plain, unions, tables⟩ := emitted.inner
    refine ⟨plain, fun u mem => .emitted (unions u mem), fun table mem r is => ?_, emitted.pieces⟩
    obtain ⟨relation, plain, listed, rfl⟩ := tables table mem r is
    exact .keyed plain listed
  | @keyed relation plain listed =>
    refine ⟨rfl, forall_mem_nil _, fun table mem r is => ?_, fun e mem => .inl (keyedQuery_neat mem)⟩
    cases mem_singleton.mp mem
    exact (plain r is).elim
  | @nested keyColumns position n cte query cut aggregate mem outputs neat quiet =>
    refine ⟨rfl, forall_mem_nil _, fun table mem r is => ?_, fun e given => .inl ?_⟩
    · cases mem_singleton.mp mem
      cases is
    · have given : e = aggregate ∨ e ∈ (nestSource keyColumns position n cte cut).predicate := by
        simpa [Sql.Query.exprs, nestQuery, Sql.Query.empty] using given
      rcases given with rfl | is
      · exact neat.mono fun _ _ _ => trivial
      · exact (nestSource_neat e is).mono fun _ _ _ => trivial

variable {x : Sql.Query}

theorem Piece.within (inside : x.Within query) : Piece F d ctes query → Piece F d ctes x := by
  induction inside with
  | self => exact id
  | cte mem _ _ =>
    intro piece
    rw [piece.inner.plain] at mem
    cases mem
  | union mem _ ih => exact fun piece => ih (piece.inner.unions _ mem)
  | table mem is _ ih => exact fun piece => ih (piece.inner.tables _ mem _ is)
  | expr mem occurs _ ih =>
    intro piece
    rcases piece.inner.exprs _ mem with neat | ⟨query, inner, rfl⟩
    · exact (neat.subquery occurs).elim
    · cases occurs.leaf rfl
      exact ih inner

theorem PieceExpr.sturdy (piece : PieceExpr F d ctes e) : e.Each (Sql.Expr.Sturdy d) := by
  rcases piece with neat | ⟨query, _, rfl⟩
  · exact Sql.Expr.Each.mono (fun _ => Sql.Expr.Node.sturdy) neat
  · exact Sql.Expr.each_subquery.mpr (Sql.fits_operand rfl).sturdy

theorem Listed.member (listed : Listed F d ctes) (mem : c ∈ ctes) :
    ∃ before, before ⊆ ctes ∧ Emitted F d before c.query := by
  obtain ⟨i, small, rfl⟩ := mem_iff_getElem.mp mem
  exact ⟨ctes.take i, take_subset i ctes, listed.emitted i small⟩

theorem select_pieces (listed : ∀ c ∈ last, Piece F d ctes c.query) (emitted : Emitted F d ctes select)
    (inside : x.Within { select with ctes := last, limit }) :
    Piece F d ctes x ∨ x = { select with ctes := last, limit } := by
  have own := Piece.inner (.emitted emitted)
  have inner {r : Sql.Query} (piece : Piece F d ctes r) (inside : x.Within r) :
      Piece F d ctes x ∨ x = { select with ctes := last, limit } := .inl (piece.within inside)
  generalize same : ({ select with ctes := last, limit } : Sql.Query) = statement at inside
  cases inside with
  | self => exact .inr rfl
  | @cte _ c mem inside =>
    subst same
    exact inner (listed c mem) inside
  | union mem inside =>
    subst same
    exact inner (own.unions _ mem) inside
  | table mem is inside =>
    subst same
    exact inner (own.tables _ mem _ is) inside
  | expr mem occurs inside =>
    subst same
    rcases own.exprs _ mem with neat | ⟨query, piece, rfl⟩
    · exact (neat.subquery occurs).elim
    · cases occurs.leaf rfl
      exact inner piece inside

/-- Every `SELECT` of a planned statement is a piece of it; only the last one has a `WITH` list. -/
theorem statement_pieces (listed : Listed F d ctes) (emitted : Emitted F d ctes select)
    (inside : x.Within { select with ctes, limit }) : Piece F d ctes x ∨ x = { select with ctes, limit } := by
  refine select_pieces (fun c mem => ?_) emitted inside
  obtain ⟨before, le, there⟩ := listed.member mem
  exact .emitted (there.mono le)

end Pieces

end SemanticLayer.Plan
