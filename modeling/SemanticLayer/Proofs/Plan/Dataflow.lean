import SemanticLayer.Proofs.Plan.Offered

/-!
Where the columns of a planned statement come from. Queries of the `WITH` list have names of their own, each reads
only those before it, and what is read through the alias of such a query is among its output. The last rests on
the aliases: two relations that joins lead to must not share one.
-/
namespace SemanticLayer

open List

namespace Plan

section Selects

variable {F : Family} {d : Dialect} {ctes : List Sql.Cte}

open Sql.Query (Covered Flows)

/-- A `SELECT` without queries in its expressions: columns are read through labels that cover them, or stand alone
to name an output. -/
structure Direct (F : Family) (d : Dialect) (ctes : List Sql.Cte) (q : Sql.Query) : Prop where
  exprs : ∃ B : Option String → String → Prop, (∀ name, ¬B none name) ∧
    (F.DistinctAliases → ∀ table name, B table name → Covered ctes q.tables table name) ∧
    ∀ e ∈ q.exprs, e.Neat d F.number B ∨ ∃ name, e = .column none name ∧ Covered ctes q.tables none name
  listed : ∀ t ∈ q.tables, ∀ name, t.relation = .cte name → ∃ query, ⟨name, query⟩ ∈ ctes

theorem keyed_sees (keyed : IsKeyed ctes r) : ¬r.Sees (.column label name) tables := by
  obtain ⟨relation, plain, _, rfl⟩ := keyed
  have exprs {e : Sql.Expr} (mem : e ∈ (keyedQuery relation).exprs) : e.Neat .duckdb (fun _ => True) fun _ _ => False :=
    keyedQuery_neat mem
  intro sees
  cases sees with
  | own mem occurs => exact exprs mem _ occurs
  | text mem inside _ occurs => exact exprs mem _ (occurs.trans inside)
  | expr mem occurs _ => exact (exprs mem).subquery occurs
  | table mem is _ =>
    cases mem_singleton.mp mem
    exact plain _ is
  | union mem _ => cases mem
  | cte mem _ => cases mem

theorem Direct.flows (direct : Direct F d ctes q) (distinct : F.DistinctAliases) (unions : q.unions = [])
    (ownless : q.ctes = []) (keyed : ∀ t ∈ q.tables, ∀ r, t.relation = .subquery r → IsKeyed ctes r) :
    Flows ctes q := by
  obtain ⟨B, labelled, covered, exprs⟩ := direct.exprs
  intro label name tables sees
  cases sees with
  | own mem occurs =>
    rcases exprs _ mem with neat | ⟨name, rfl, bare⟩
    · exact covered distinct label name (neat _ occurs)
    · cases occurs.leaf rfl
      exact bare
  | text mem inside spells occurs =>
    rcases exprs _ mem with neat | ⟨name, rfl, bare⟩
    · exact (Sql.quiet_of_neat neat labelled _ inside _ spells).elim
    · cases inside.leaf rfl
      exact (Sql.Expr.spells_column spells).elim
  | expr mem occurs _ =>
    rcases exprs _ mem with neat | ⟨name, rfl, bare⟩
    · exact (neat.subquery occurs).elim
    · cases occurs.leaf rfl
  | table mem is inside => exact (keyed_sees (keyed _ mem _ is) inside).elim
  | union mem _ => rw [unions] at mem; cases mem
  | cte mem _ => rw [ownless] at mem; cases mem

theorem Direct.takes (direct : Direct F d ctes q) (takes : q.Takes t) (is : t.relation = .cte name) :
    ∃ query, ⟨name, query⟩ ∈ ctes := by
  obtain ⟨B, labelled, _, exprs⟩ := direct.exprs
  rcases takes with mem | ⟨e, mem, text, inside, spells⟩
  · exact direct.listed t mem name is
  · rcases exprs e mem with neat | ⟨name, rfl, _⟩
    · exact (Sql.quiet_of_neat neat labelled _ inside _ spells).elim
    · cases inside.leaf rfl
      exact (Sql.Expr.spells_column spells).elim

theorem owned_labelled (name : String) : ¬Owned tree keyed none name :=
  fun ⟨_, _, _, impossible, _⟩ => nomatch impossible

theorem ungroupQuery_outputs (frame : Frame) (u : Ungroup) :
    (ungroupQuery frame u).outputs = parentKeys u.partition.length ++ [ungroupColumn] := by
  show (parentItems u.partition ++ [Sql.SelectItem.named u.value ungroupColumn]).filterMap Sql.SelectItem.output? = _
  rw [filterMap_append, parentItems_outputs]
  rfl

section Levels

variable {input : Input} {parents inherited : List Expr} {level : Level} {tree : JoinTree} {parts : LevelParts}
  {c : Compilation} {frame : Frame} (rows : RowsOf F d ctes input parents inherited level tree parts c frame)

include rows

theorem RowsOf.owned : PartsNeat d F.number (Owned tree) parts c ∧ FrameNeat d F.number (Owned tree) frame := by
  have root : tree.root = input.fields := rows.over.root_eq
  refine rows.neat (owned_grounds rows.known.sound rows.known.numbers.1 rows.over) (owned_joins (root ▸ rows.known.sound.fields)) ?_
  refine owned_root fun e mem => ?_
  rw [root]
  rcases mem_append.mp mem with mem | mem
  · exact ⟨_, rows.known.sound.filters e mem⟩
  · exact rows.sound.read mem

theorem RowsOf.ungroup_direct (names : (ctes.map Sql.Cte.name).Nodup) (mem : u ∈ c.ungroups) :
    Direct F d ctes (ungroupQuery frame u) := by
  have root : tree.root = input.fields := rows.over.root_eq
  have g : Grounds ⟨d, tree⟩ F.number (Owned tree) := owned_grounds rows.known.sound rows.known.numbers.1 rows.over
  obtain ⟨parted, shared⟩ := rows.owned
  refine ⟨⟨Owned tree c.keyed, owned_labelled, fun distinct table name owned => ?_, fun e given => .inl ?_⟩, ?_⟩
  · exact rows.shared.covered names rows.known root (root ▸ rows.known.distinctAliases distinct) owned
  · exact ungroupQuery_neat g shared parted.tidy mem e given
  · exact fun t mem name is => rows.shared.listed rows.known mem is

theorem RowsOf.ungroup_labels : (c.ungroups.map Ungroup.label).Nodup ∧
    ∀ u ∈ c.ungroups, ∃ i : Nat, u.label = s!"__u{i}" := by
  have labels := rows.owned.1.tidy.labels
  constructor
  · rw [labels]
    exact widened_nodup _
  · intro u mem
    have given : u.label ∈ c.ungroups.map Ungroup.label := mem_map_of_mem mem
    rw [labels] at given
    obtain ⟨i, _, is⟩ := mem_map.mp given
    exact ⟨i, is.symm⟩

theorem RowsOf.covered (names : (ctes.map Sql.Cte.name).Nodup) (distinct : F.DistinctAliases)
    (widened : List.Forall₂ (fun u join => ∃ name, ⟨name, ungroupQuery frame u⟩ ∈ ctes ∧
      join = ungroupJoin name u) c.ungroups ungroups) (reads : rowsReads (Owned tree) c table name) :
    Covered ctes (rowsQuery level parts frame ungroups).tables table name := by
  have root : tree.root = input.fields := rows.over.root_eq
  have aliases : tree.root.DistinctAliases := root ▸ rows.known.distinctAliases distinct
  obtain ⟨separate, numbered⟩ := rows.ungroup_labels
  rw [rowsQuery_tables]
  rcases reads with owned | ⟨u, mem, rfl, own⟩
  · refine Sql.Query.covered_append (rows.shared.covered names rows.known root aliases owned) ?_
    intro t given label
    obtain ⟨join, isJoin, rfl⟩ := mem_map.mp given
    obtain ⟨u, mem, _, _, rfl⟩ := exists_of_forall₂ widened isJoin
    obtain ⟨i, is⟩ := numbered u mem
    obtain ⟨path, owner, within, rfl, _⟩ := owned
    exact (aliases.reserved path owner i within (is ▸ (Option.some.inj label).symm)).elim
  · refine Sql.Query.covered_append (fun t given label => ?_) fun t given label columns offers => ?_
    · obtain ⟨i, is⟩ := numbered u mem
      obtain ⟨path, owner, within, label', _⟩ := rows.shared.offers names rows.known root given
      exact (aliases.reserved path owner i within (is ▸ Option.some.inj (label'.symm.trans label))).elim
    · obtain ⟨join, isJoin, rfl⟩ := mem_map.mp given
      obtain ⟨u', mem', name', listed, rfl⟩ := exists_of_forall₂ widened isJoin
      cases inj_on_of_nodup_map separate mem' mem (Option.some.inj label)
      rw [offers_cte names listed offers, ungroupQuery_outputs]
      rcases own with rfl | ⟨i, small, rfl⟩
      · simp
      · exact mem_append_left _ (mem_map_of_mem (mem_range.mpr small))

theorem RowsOf.rows_direct (names : (ctes.map Sql.Cte.name).Nodup)
    (widened : List.Forall₂ (fun u join => ∃ name, ⟨name, ungroupQuery frame u⟩ ∈ ctes ∧
      join = ungroupJoin name u) c.ungroups ungroups) (orderBy : List OrderBy) (limit : Option Nat) :
    Direct F d ctes { rowsQuery level parts frame ungroups with
      orderBy := orderTerms d .ofColumn orderBy, limit } := by
  have root : tree.root = input.fields := rows.over.root_eq
  have g : Grounds ⟨d, tree⟩ F.number (Owned tree) := owned_grounds rows.known.sound rows.known.numbers.1 rows.over
  obtain ⟨parted, shared⟩ := rows.owned
  have neat := rowsQuery_neat g level parted shared fun join mem => by
    obtain ⟨u, given, name, _, is⟩ := exists_of_forall₂ widened mem
    exact ⟨name, u, given, is⟩
  have labelled {name : String} (reads : rowsReads (Owned tree) c none name) : False := by
    rcases reads with owned | ⟨_, _, impossible, _⟩
    · exact owned_labelled name owned
    · cases impossible
  refine ⟨⟨rowsReads (Owned tree) c, fun _ => labelled, fun distinct table name reads => ?_, fun e mem => ?_⟩, ?_⟩
  · exact rows.covered names distinct widened reads
  · rcases mem_append.mp mem with mem | mem
    · exact .inl (neat e (mem_append_left _ mem))
    · obtain ⟨o, _, rfl⟩ := orderTerms_column mem
      refine .inr ⟨o.field, rfl, fun t mem label => ?_⟩
      change t ∈ (rowsQuery level parts frame ungroups).tables at mem
      rw [rowsQuery_tables] at mem
      rcases mem_append.mp mem with mem | mem
      · obtain ⟨_, _, _, label', _⟩ := rows.shared.offers names rows.known root mem
        rw [label'] at label
        cases label
      · obtain ⟨join, given, rfl⟩ := mem_map.mp mem
        obtain ⟨u, _, _, _, rfl⟩ := exists_of_forall₂ widened given
        cases label
  · intro t mem name is
    change t ∈ (rowsQuery level parts frame ungroups).tables at mem
    rw [rowsQuery_tables] at mem
    rcases mem_append.mp mem with mem | mem
    · exact rows.shared.listed rows.known mem is
    · obtain ⟨join, given, rfl⟩ := mem_map.mp mem
      obtain ⟨u, _, name', listed, rfl⟩ := exists_of_forall₂ widened given
      cases is
      exact ⟨_, listed⟩

end Levels

theorem IndexOf.direct (names : (ctes.map Sql.Cte.name).Nodup)
    (index : IndexOf F d ctes input weight filters field tree column weighed text conditions c frame) :
    Direct F d ctes (indexQuery field column weighed text frame) := by
  have root : tree.root = input.fields := index.over.root_eq
  have g : Grounds ⟨d, tree⟩ F.number (Owned tree) := owned_grounds index.known.sound index.known.numbers.1 index.over
  have own : RootOwns (Owned tree) (input.filters ++ weight :: filters) := by
    refine owned_root fun e mem => ?_
    rw [root]
    rcases mem_append.mp mem with mem | mem
    · exact ⟨_, index.known.sound.filters e mem⟩
    rcases mem_cons.mp mem with rfl | mem
    · exact ⟨_, index.weighs⟩
    · exact ⟨_, index.rows e mem⟩
  have neat := indexQuery_neat g root (owned_joins (root ▸ index.known.sound.fields)) own index
  refine ⟨⟨Owned tree c.keyed, owned_labelled, fun distinct table name owned => ?_, fun e mem => .inl (neat e mem)⟩, ?_⟩
  · exact index.shared.covered names index.known root (root ▸ index.known.distinctAliases distinct) owned
  · exact fun t mem name is => index.shared.listed index.known mem is

theorem index_direct (names : (ctes.map Sql.Cte.name).Nodup) (mem : ⟨name, query⟩ ∈ ctes)
    (outputs : query.outputs = indexSchema.map ResultField.name) (limit : Option Nat) :
    Direct F d ctes { Sql.Query.empty with
      items := indexSchema.map fun f => ⟨.ofColumn f.name, none⟩
      source := some ⟨.cte name, none⟩
      orderBy := orderTerms d .ofColumn [⟨"weight", .desc⟩]
      limit } := by
  have covered {column : String} (given : column ∈ indexSchema.map ResultField.name) :
      Covered ctes [⟨.cte name, none⟩] none column := by
    intro t isTable _ columns offers
    cases mem_singleton.mp isTable
    rw [offers_cte names mem offers, outputs]
    exact given
  refine ⟨⟨fun _ _ => False, nofun, nofun, fun e given => .inr ?_⟩, fun t isTable name' is => ?_⟩
  · rcases mem_append.mp given with given | given
    · obtain ⟨f, isField, rfl⟩ := mem_map.mp (by simpa [Sql.Query.empty] using given)
      exact ⟨f.name, rfl, covered (mem_map_of_mem isField)⟩
    · obtain ⟨o, isOrder, rfl⟩ := orderTerms_column given
      cases mem_singleton.mp isOrder
      exact ⟨"weight", rfl, covered (by decide)⟩
  · cases mem_singleton.mp isTable
    cases is
    exact ⟨_, mem⟩

/-- An expression over rows that are read back: it reads their columns, names an output for the order, or collects
the rows of a nest that belong to them. -/
inductive ReadBack (d : Dialect) (ctes : List Sql.Cte) (columns : List String) : Sql.Expr → Prop where
  | own {e : Sql.Expr} (neat : e.Neat d (fun _ => True) fun table name => table = some rowsAlias ∧ name ∈ columns) :
      ReadBack d ctes columns e
  | order (name : String) : ReadBack d ctes columns (.column none name)
  | nested {keyColumns : List String} {position : Nat} {n : Nest} {cte : String} {query : Sql.Query}
      {cut : Option Nat} {aggregate : Sql.Expr} (mem : ⟨cte, query⟩ ∈ ctes)
      (outputs : query.outputs = nestColumns keyColumns.length (pipelineSchema n.stages))
      (keys : keyColumns ⊆ columns)
      (neat : aggregate.Neat d (fun _ => True) (nestSource keyColumns position n cte cut).Reads)
      (quiet : aggregate.Quiet) :
      ReadBack d ctes columns (.subquery (nestQuery (nestSource keyColumns position n cte cut) aggregate))
  | text {keyColumns : List String} {position : Nat} {n : Nest} {cte : String} {query : Sql.Query}
      {cut : Option Nat} {e : Sql.Expr} (mem : ⟨cte, query⟩ ∈ ctes)
      (outputs : query.outputs = nestColumns keyColumns.length (pipelineSchema n.stages))
      (keys : keyColumns ⊆ columns)
      (neat : e.Neat d (fun _ => True) (nestReads keyColumns (nestSource keyColumns position n cte cut)))
      (spelled : ∀ (text : Sql.Expr) (t : Sql.TableRef), text.Occurs e → text.Spells t →
        t = ⟨.cte cte, some s!"__n{position}"⟩) : ReadBack d ctes columns e

theorem nestLabel_ne (position : Nat) : (s!"__n{position}" : String) ≠ rowsAlias := by
  intro same
  have chars := congrArg String.toList same
  rw [String.toList_append] at chars
  cases chars

theorem nestReads_covered (names : (ctes.map Sql.Cte.name).Nodup) (listed : ⟨name, rows⟩ ∈ ctes)
    (mem : ⟨cte, query⟩ ∈ ctes) (outputs : query.outputs = nestColumns keyColumns.length (pipelineSchema n.stages))
    (keys : keyColumns ⊆ rows.outputs)
    (reads : nestReads keyColumns (nestSource keyColumns position n cte cut) table column) :
    Covered ctes [⟨.cte cte, some s!"__n{position}"⟩, ⟨.cte name, some rowsAlias⟩] table column := by
  have nest (given : column ∈ nestColumns keyColumns.length (pipelineSchema n.stages)) :
      Covered ctes [⟨.cte cte, some s!"__n{position}"⟩, ⟨.cte name, some rowsAlias⟩]
        (some s!"__n{position}") column := by
    intro t isTable label columns offers
    rcases mem_cons.mp isTable with rfl | isTable
    · rw [offers_cte names mem offers, outputs]
      exact given
    · cases mem_singleton.mp isTable
      exact (nestLabel_ne position (Option.some.inj label).symm).elim
  rcases reads with (rfl | ⟨rfl, isField | isNumber⟩) | ⟨rfl, i, small, rfl⟩ | ⟨rfl, isKey⟩
  · intro t isTable label
    rcases mem_cons.mp isTable with rfl | isTable
    · cases label
    · cases mem_singleton.mp isTable
      cases label
  · exact nest (mem_append_left _ (mem_append_right _ isField))
  · exact nest (mem_append_right _ (mem_singleton.mpr isNumber))
  · exact nest (mem_append_left _ (mem_append_left _ (mem_map_of_mem (mem_range.mpr small))))
  · intro t isTable label columns offers
    rcases mem_cons.mp isTable with rfl | isTable
    · exact (nestLabel_ne position (Option.some.inj label)).elim
    · cases mem_singleton.mp isTable
      rw [offers_cte names listed offers]
      exact keys isKey

theorem nestQuery_sees (neat : aggregate.Neat d N (nestSource keyColumns position n cte cut).Reads)
    (quiet : aggregate.Quiet)
    (sees : (nestQuery (nestSource keyColumns position n cte cut) aggregate).Sees (.column label column) tables) :
    tables = [⟨.cte cte, some s!"__n{position}"⟩] ∧
      nestReads keyColumns (nestSource keyColumns position n cte cut) label column := by
  have exprs {e : Sql.Expr} (mem : e ∈ (nestQuery (nestSource keyColumns position n cte cut) aggregate).exprs) :
      e.Neat d N (nestReads keyColumns (nestSource keyColumns position n cte cut)) ∧ e.Quiet := by
    have given : e = aggregate ∨ e ∈ (nestSource keyColumns position n cte cut).predicate := by
      simpa [Sql.Query.exprs, nestQuery, Sql.Query.empty] using mem
    rcases given with rfl | is
    · exact ⟨neat.mono fun _ _ => .inl, quiet⟩
    · refine ⟨nestSource_neat e is, Sql.quiet_of_neat (d := d) (N := N) (A := fun table _ => table ≠ none) ?_ (by simp)⟩
      exact nestPredicate_neat (fun _ _ => Option.some_ne_none _) (fun _ _ => Option.some_ne_none _)
        (Option.some_ne_none _) e is
  cases sees with
  | own mem occurs => exact ⟨rfl, (exprs mem).1 _ occurs⟩
  | text mem inside spells _ => exact ((exprs mem).2 _ inside _ spells).elim
  | expr mem occurs _ => exact ((exprs mem).1.subquery occurs).elim
  | table mem is _ =>
    cases mem_singleton.mp mem
    cases is
  | union mem _ => cases mem
  | cte mem _ => cases mem

structure Back (d : Dialect) (ctes : List Sql.Cte) (q : Sql.Query) : Prop where
  ownless : q.ctes = []
  unions : q.unions = []
  rows : ∃ name query, ⟨name, query⟩ ∈ ctes ∧ q.tables = [⟨.cte name, some rowsAlias⟩] ∧
    ∀ e ∈ q.exprs, ReadBack d ctes query.outputs e

theorem Back.flows (names : (ctes.map Sql.Cte.name).Nodup) (back : Back d ctes q) : Flows ctes q := by
  obtain ⟨name, rows, listed, tables, exprs⟩ := back.rows
  intro label column scope sees
  cases sees with
  | @own _ e mem occurs =>
    rw [tables]
    cases exprs e mem with
    | own neat =>
      obtain ⟨rfl, has⟩ := neat _ occurs
      intro t isTable _ columns offers
      cases mem_singleton.mp isTable
      rw [offers_cte names listed offers]
      exact has
    | order name' =>
      cases occurs.leaf rfl
      intro t isTable label
      cases mem_singleton.mp isTable
      cases label
    | nested => cases occurs.leaf rfl
    | text there outputs keys neat _ =>
      have covered := nestReads_covered names listed there outputs keys (neat _ occurs)
      exact fun t isTable => covered t (mem_cons_of_mem _ isTable)
  | @text _ e text t mem inside spells occurs =>
    rw [tables]
    cases exprs e mem with
    | own neat => exact (Sql.quiet_of_neat neat (fun _ => nofun) _ inside _ spells).elim
    | order name' =>
      cases inside.leaf rfl
      exact (Sql.Expr.spells_column spells).elim
    | nested =>
      cases inside.leaf rfl
      cases (Sql.Expr.spells_sequence spells).choose_spec
    | text there outputs keys neat spelled =>
      cases spelled text t inside spells
      exact nestReads_covered names listed there outputs keys (neat _ (occurs.trans inside))
  | @expr _ r e scope mem occurs inside =>
    rw [tables]
    cases exprs e mem with
    | own neat => exact (neat.subquery occurs).elim
    | order => cases occurs.leaf rfl
    | nested there outputs keys neat quiet =>
      cases occurs.leaf rfl
      obtain ⟨rfl, reads⟩ := nestQuery_sees neat quiet inside
      exact nestReads_covered names listed there outputs keys reads
    | text _ _ _ neat _ => exact (neat.subquery occurs).elim
  | @table _ r t _ mem is =>
    rw [tables] at mem
    cases mem_singleton.mp mem
    cases is
  | union mem _ => rw [back.unions] at mem; cases mem
  | cte mem _ => rw [back.ownless] at mem; cases mem

theorem Back.takes (back : Back d ctes q) (takes : q.Takes t) (is : t.relation = .cte name) :
    ∃ query, ⟨name, query⟩ ∈ ctes := by
  obtain ⟨name', rows, listed, tables, exprs⟩ := back.rows
  rcases takes with mem | ⟨e, mem, text, inside, spells⟩
  · rw [tables] at mem
    cases mem_singleton.mp mem
    cases is
    exact ⟨rows, listed⟩
  · cases exprs e mem with
    | own neat => exact (Sql.quiet_of_neat neat (fun _ => nofun) _ inside _ spells).elim
    | order name' =>
      cases inside.leaf rfl
      exact (Sql.Expr.spells_column spells).elim
    | nested =>
      cases inside.leaf rfl
      cases (Sql.Expr.spells_sequence spells).choose_spec
    | text there _ _ _ spelled =>
      cases spelled text t inside spells
      cases is
      exact ⟨_, there⟩

theorem level_column {level : Level} (mem : .dimension f ∈ level.fields ∨ .measure f ∈ level.fields) :
    f.name ∈ level.columns.map fun c => c.1.name := by
  rcases mem with mem | mem
  · exact mem_map.mpr ⟨(f, false), mem_filterMap.mpr ⟨_, mem, rfl⟩, rfl⟩
  · exact mem_map.mpr ⟨(f, true), mem_filterMap.mpr ⟨_, mem, rfl⟩, rfl⟩

section Collected

variable {parents : Nat} {level : Level} {name : String} {items : List Sql.SelectItem}

section

variable (collect : CollectOf F d ctes parents level name items)

include collect

theorem CollectOf.readBack {rows : Sql.Query}
    (outputs : rows.outputs = parentKeys parents ++ level.columns.map fun c => c.1.name) :
    ∀ e ∈ (collectQuery parents name items).exprs, ReadBack d ctes rows.outputs e := by
  have own {column : String} (has : column ∈ rows.outputs) : ReadBack d ctes rows.outputs (.ofTable rowsAlias column) :=
    .own (Sql.Expr.each_column.mpr ⟨rfl, has⟩)
  have keys : parentKeys parents ++ level.dimensions.map ExprField.name ⊆ rows.outputs := by
    rw [outputs]
    refine append_subset.mpr ⟨subset_append_left _ _, fun column mem => mem_append_right _ ?_⟩
    obtain ⟨f, given, rfl⟩ := mem_map.mp mem
    obtain ⟨output, isField, is⟩ := mem_filterMap.mp given
    cases output <;> cases is
    exact level_column (.inl isField)
  rw [collectQuery_exprs, forall_mem_append]
  constructor
  · intro e mem
    obtain ⟨i, small, rfl⟩ := mem_map.mp mem
    exact own (keys (mem_append_left _ (mem_map_of_mem small)))
  · intro e mem
    obtain ⟨item, given, rfl⟩ := mem_map.mp mem
    obtain ⟨position, field, isField, column⟩ := mem_columnsFrom collect.columns given
    rcases column_cases column with ⟨f, which, is⟩ |
      ⟨n, cte, query, cut, mem, nestOutputs, ⟨aggregate, is, neat, quiet⟩ | ⟨neat, spelled⟩⟩
    · rw [is]
      refine own (outputs ▸ mem_append_right _ (level_column ?_))
      rcases which with rfl | rfl
      · exact .inl isField
      · exact .inr isField
    · rw [is]
      exact .nested mem nestOutputs keys neat quiet
    · exact .text mem nestOutputs keys neat spelled

theorem CollectOf.back (orderBy : List OrderBy)
    (limit : Option Nat) :
    Back d ctes { collectQuery parents name items with orderBy := orderTerms d .ofColumn orderBy, limit } := by
  obtain ⟨rows, listed, outputs⟩ := collect.rows
  refine ⟨rfl, rfl, name, rows, listed, rfl, fun e mem => ?_⟩
  rcases mem_append.mp mem with mem | mem
  · exact collect.readBack outputs e (mem_append_left _ mem)
  · obtain ⟨o, _, rfl⟩ := orderTerms_column mem
    exact .order o.field

theorem CollectOf.numbered_back :
    Back d ctes (collectQuery parents name (items ++ [numberItem d parents level.orderBy])) := by
  obtain ⟨rows, listed, outputs⟩ := collect.rows
  refine ⟨rfl, rfl, name, rows, listed, rfl, ?_⟩
  have own := collect.readBack outputs
  have number : ReadBack d ctes rows.outputs (numberItem d parents level.orderBy).expr := by
    refine .own (numberItem_neat (fun i small => ⟨rfl, ?_⟩) fun o mem => ⟨rfl, ?_⟩)
    · rw [outputs]
      exact mem_append_left _ (mem_map_of_mem (mem_range.mpr small))
    · obtain ⟨f, isField, plain, is⟩ := collect.sorted o mem
      rw [outputs, ← is]
      refine mem_append_right _ ?_
      cases f with
      | dimension f => exact level_column (.inl isField)
      | measure f => exact level_column (.inr isField)
      | nest n => cases plain
  rw [collectQuery_exprs] at own ⊢
  rw [map_append, ← List.append_assoc]
  exact forall_mem_append.mpr ⟨own, by simpa using number⟩

end

end Collected

theorem Emitted.flows (names : (ctes.map Sql.Cte.name).Nodup) (distinct : F.DistinctAliases)
    (emitted : Emitted F d ctes query) : Flows ctes query := by
  have keyed := emitted.inner.2.2
  induction emitted with
  | rows rows widened orderBy limit => exact (rows.rows_direct names widened orderBy limit).flows distinct rfl rfl keyed
  | ungroup rows mem => exact (rows.ungroup_direct names mem).flows distinct rfl rfl keyed
  | collected collect orderBy limit => exact (collect.back orderBy limit).flows names
  | numbered collect => exact collect.numbered_back.flows names
  | indexField index => exact (index.direct names).flows distinct rfl rfl keyed
  | @indexUnion parts _ _ each ih =>
    intro label name tables sees
    cases sees with
    | own mem _ => cases mem
    | text mem _ _ _ => cases mem
    | expr mem _ _ => cases mem
    | table mem _ _ => cases mem
    | union mem inside => exact ih _ mem (each _ mem).inner.2.2 label name tables inside
    | cte mem _ => cases mem
  | index mem outputs limit => exact (index_direct names mem outputs limit).flows distinct rfl rfl keyed

theorem Emitted.takes (names : (ctes.map Sql.Cte.name).Nodup) (emitted : Emitted F d ctes query)
    (takes : query.Takes t) (is : t.relation = .cte name) : ∃ query, ⟨name, query⟩ ∈ ctes := by
  cases emitted with
  | rows rows widened orderBy limit => exact (rows.rows_direct names widened orderBy limit).takes takes is
  | ungroup rows mem => exact (rows.ungroup_direct names mem).takes takes is
  | collected collect orderBy limit => exact (collect.back orderBy limit).takes takes is
  | numbered collect => exact collect.numbered_back.takes takes is
  | indexField index => exact (index.direct names).takes takes is
  | indexUnion =>
    rcases takes with mem | ⟨_, mem, _⟩
    · cases mem
    · cases mem
  | index mem outputs limit => exact (index_direct (F := F) names mem outputs limit).takes takes is

end Selects

section Statements

variable {F : Family} {d : Dialect} {ctes : List Sql.Cte}

theorem Piece.takes (names : (ctes.map Sql.Cte.name).Nodup) (piece : Piece F d ctes query) (takes : query.Takes t)
    (is : t.relation = .cte name) : name ∈ ctes.map Sql.Cte.name := by
  have listed : ∃ query, ⟨name, query⟩ ∈ ctes := by
    cases piece with
    | emitted emitted => exact emitted.takes names takes is
    | @keyed relation plain listed =>
      rcases takes with mem | ⟨e, mem, text, inside, spells⟩
      · cases mem_singleton.mp mem
        exact listed name is
      · obtain ⟨column, occurs⟩ := spells.occurs
        exact (keyed_sees ⟨relation, plain, listed, rfl⟩ (.own mem (occurs.trans inside))).elim
    | @nested keyColumns position n cte rows cut aggregate mem outputs neat quiet =>
      rcases takes with given | ⟨e, given, text, inside, spells⟩
      · cases mem_singleton.mp given
        cases is
        exact ⟨_, mem⟩
      · obtain ⟨column, occurs⟩ := spells.occurs
        have sees : (nestQuery (nestSource keyColumns position n cte cut) aggregate).Sees (.column none column) _ :=
          .text given inside spells occurs
        have length := congrArg List.length (nestQuery_sees neat quiet sees).1
        cases length
  obtain ⟨query, mem⟩ := listed
  exact mem_map_of_mem mem

theorem Listed.take (listed : Listed F d ctes) (i : Nat) : Listed F d (ctes.take i) := by
  induction listed with
  | nil => rw [take_nil]; exact .nil
  | @snoc ctes stem query before emitted named ih =>
    by_cases small : i ≤ ctes.length
    · rwa [take_append_of_le_length small]
    · rw [take_of_length_le (by simp; omega)]
      exact .snoc before emitted named

theorem statement_sees {select : Sql.Query} (sees : ({ select with ctes, limit } : Sql.Query).Sees x tables) :
    (∃ c ∈ ctes, c.query.Sees x tables) ∨ select.Sees x tables := by
  generalize same : ({ select with ctes, limit } : Sql.Query) = statement at sees
  cases sees with
  | own mem occurs => subst same; exact .inr (.own mem occurs)
  | text mem inside spells occurs => subst same; exact .inr (.text mem inside spells occurs)
  | expr mem occurs inside => subst same; exact .inr (.expr mem occurs inside)
  | table mem is inside => subst same; exact .inr (.table mem is inside)
  | union mem inside => subst same; exact .inr (.union mem inside)
  | cte mem inside => subst same; exact .inl ⟨_, mem, inside⟩

end Statements

end Plan

/-- The dataflow of a planned statement: queries of the `WITH` list have names of their own, no other query has such
a list, each query of it reads only those before it and the last `SELECT` reads only those in it. Where the aliases
of joins are distinct, every column that is read from one of these queries is among its output. -/
theorem statement_dataflow {m : Model} (built : Elaborate.Built m) {q : Query} (recorded : m.Records q)
    {d : Dialect} {limit : Option Nat} {statement : Sql.Query} (planned : q.plan d limit = .ok statement) :
    (statement.ctes.map Sql.Cte.name).Nodup ∧
    (∀ x : Sql.Query, x.Within statement → x.ctes ≠ [] → x = statement) ∧
    (∀ i c, statement.ctes[i]? = some c → ∀ name, c.query.Reads name →
      name ∈ (statement.ctes.take i).map Sql.Cte.name) ∧
    (∀ name, statement.body.Reads name → name ∈ statement.ctes.map Sql.Cte.name) ∧
    ((∀ r, q.Over r → Namespace.DistinctAliases r.source.fields) → statement.Flows statement.ctes) := by
  have sound : (Plan.queriesOver q).query q := ⟨(Elaborate.built_sound built).recorded recorded, .self⟩
  obtain ⟨ctes, last, rfl, listed, emitted, _⟩ := Plan.plan_emitted sound planned
  have names := listed.names_nodup
  refine ⟨names, fun x inside own => ?_, fun i c is name reads => ?_, fun name reads => ?_, fun distinct => ?_⟩
  · exact (Plan.statement_pieces listed emitted inside).resolve_left fun piece => own piece.inner.plain
  · obtain ⟨small, rfl⟩ := List.getElem?_eq_some_iff.mp is
    obtain ⟨x, t, inside, takes, isTable⟩ := reads
    exact (Plan.Piece.within inside (.emitted (listed.emitted i small))).takes (listed.take i).names_nodup takes isTable
  · obtain ⟨x, t, inside, takes, isTable⟩ := reads
    rcases Plan.select_pieces (List.forall_mem_nil _) emitted inside with piece | rfl
    · exact piece.takes names takes isTable
    · exact (Plan.Piece.emitted emitted).takes names takes isTable
  · intro label column tables sees
    have aliases : (Plan.queriesOver q).DistinctAliases := fun r given => distinct r given.2
    rcases Plan.statement_sees sees with ⟨c, mem, sees⟩ | sees
    · obtain ⟨before, le, there⟩ := listed.member mem
      exact (there.mono le).flows names aliases label column tables sees
    · exact emitted.flows names aliases label column tables sees

namespace Elaborate

def saleTables : Inputs :=
  ⟨"file:///sales.model", ⟨[("orders", .known [⟨"customer_id", .number⟩]),
    ("customers", .known [⟨"id", .number⟩, ⟨"name", .string⟩])], []⟩, fun _ => .duckdb, []⟩

def buyers (join : String) : List Document.Statement :=
  [.source ⟨"customers", default⟩ (.refine (.table none "customers" default) [.primaryKey ⟨"id", default⟩] default)
      default,
    .query (some ⟨"sales", default⟩) ⟨.source (.table none "orders" default),
      [.stage ⟨[.project [.reference ⟨["customer_id"], default⟩ []]], default⟩], default⟩ default,
    .query (some ⟨"buyers", default⟩) ⟨.source (.refine (.named ⟨"sales", default⟩)
        [.join [⟨⟨join, default⟩, .one, some (.named ⟨"customers", default⟩),
          some (.key ⟨.field ⟨["customer_id"], default⟩, default⟩), default⟩]] default),
      [.stage ⟨[.project [.reference ⟨[join, "name"], default⟩ []]], default⟩], default⟩ default]

def salesQuery : Query :=
  let location : Location := ⟨"file:///sales.model", default⟩
  ⟨some "sales", ⟨"orders", .table "orders" none, Namespace.ofColumns [⟨"customer_id", .number⟩] location,
      none, [], location⟩,
    [.project [.dimension ⟨"customer_id", .field ["customer_id"], .number, location⟩] [] ⟨[], none, none⟩], location⟩

def customerJoin (name : String) : Join :=
  let location : Location := ⟨"file:///sales.model", default⟩
  ⟨name, .one, ⟨"customers", .table "customers" none,
      Namespace.ofColumns [⟨"id", .number⟩, ⟨"name", .string⟩] location, some "id", [], location⟩,
    .key (.field ["customer_id"]), location⟩

def buyersQuery (join : String) : Query :=
  let location : Location := ⟨"file:///sales.model", default⟩
  ⟨some "buyers", ⟨"sales", .query salesQuery,
      (Namespace.ofResult [.atomic "customer_id" .number] location).insert join (.join (customerJoin join)), none, [],
      location⟩,
    [.project [.dimension ⟨"name", .field [join, "name"], .string, location⟩] [] ⟨[], none, none⟩], location⟩

def buyersStatement (join : String) : Sql.Query :=
  { Sql.Query.empty with
    ctes := [⟨"__source0", { Sql.Query.empty with
      items := [.named (.ofTable "base" "customer_id") "customer_id"]
      source := some ⟨.table "orders", some "base"⟩ }⟩]
    items := [.named (.ofTable join "name") "name"], source := some ⟨.cte "__source0", some "base"⟩
    joins := [⟨.left, ⟨.table "customers", some join⟩,
      some (.binary .eq (.ofTable "base" "customer_id") (.ofTable join "id"))⟩] }

theorem buyers_recorded : (document saleTables ⟨buyers "buyer"⟩).Records (buyersQuery "buyer") :=
  .inl ⟨"buyers", by cbv⟩

theorem buyers_planned : (buyersQuery "buyer").plan .duckdb none = .ok (buyersStatement "buyer") := rfl

theorem buyers_joins (within : Namespace.within? (buyersQuery "buyer").source.fields place = some parent)
    (found : parent.lookup? name = some (.join j)) : name = "buyer" ∧ j = customerJoin "buyer" := by
  have own {name : String} {j : Join} (found : (buyersQuery "buyer").source.fields.lookup? name = some (.join j)) :
      name = "buyer" ∧ j = customerJoin "buyer" := by
    rw [buyersQuery, Slots.lookup?_insert] at found
    split at found
    · next is =>
      cases found
      exact ⟨is.symm, rfl⟩
    · exact ((flat_ofResult _ _).joinless _ _ found).elim
  cases place with
  | nil =>
    cases within
    exact own found
  | cons first rest =>
    obtain ⟨join, here, within⟩ := Namespace.within?_cons_inv within
    obtain ⟨_, rfl⟩ := own here
    -- customers have no joins of their own
    have flat : Flat (customerJoin "buyer").source.fields := flat_ofColumns _ _
    obtain ⟨_, rfl⟩ := flat.joinless.within within
    exact (flat.joinless _ _ found).elim

theorem buyers_over (reach : (buyersQuery "buyer").Over r) : r = buyersQuery "buyer" ∨ r = salesQuery := by
  induction reach with
  | self => exact .inl rfl
  | source _ origin ih =>
    rcases ih with rfl | rfl
    · cases origin
      exact .inr rfl
    · cases origin
  | joined _ within found origin ih =>
    rcases ih with rfl | rfl
    · obtain ⟨_, rfl⟩ := buyers_joins within found
      cases origin
    · have flat : Flat salesQuery.source.fields := flat_ofColumns _ _
      obtain ⟨_, rfl⟩ := flat.joinless.within within
      exact (flat.joinless _ _ found).elim

theorem buyers_recognizable (reach : (buyersQuery "buyer").Over r)
    (within : Namespace.within? r.source.fields place = some parent) (found : parent.lookup? name = some (.join j)) :
    Plan.Recognizable name := by
  rcases buyers_over reach with rfl | rfl
  · obtain ⟨rfl, _⟩ := buyers_joins within found
    decide
  · have flat : Flat salesQuery.source.fields := flat_ofColumns _ _
    obtain ⟨_, rfl⟩ := flat.joinless.within within
    exact (flat.joinless _ _ found).elim

theorem buyers_aliases (reach : (buyersQuery "buyer").Over r) : Namespace.DistinctAliases r.source.fields :=
  Namespace.distinctAliases_of_names fun _ _ _ _ => buyers_recognizable reach

theorem buyers_dataflow : Built (document saleTables ⟨buyers "buyer"⟩) ∧
    (document saleTables ⟨buyers "buyer"⟩).Records (buyersQuery "buyer") ∧
    (buyersQuery "buyer").plan .duckdb none = .ok (buyersStatement "buyer") ∧
    ((buyersStatement "buyer").ctes.map Sql.Cte.name).Nodup ∧
    (∀ x : Sql.Query, x.Within (buyersStatement "buyer") → x.ctes ≠ [] → x = buyersStatement "buyer") ∧
    (∀ i c, (buyersStatement "buyer").ctes[i]? = some c → ∀ name, c.query.Reads name →
      name ∈ ((buyersStatement "buyer").ctes.take i).map Sql.Cte.name) ∧
    (∀ name, (buyersStatement "buyer").body.Reads name → name ∈ (buyersStatement "buyer").ctes.map Sql.Cte.name) ∧
    (buyersStatement "buyer").Flows (buyersStatement "buyer").ctes := by
  have built : Built (document saleTables ⟨buyers "buyer"⟩) := .document _ _ nofun
  obtain ⟨names, lists, earlier, last, flows⟩ := statement_dataflow built buyers_recorded buyers_planned
  exact ⟨built, buyers_recorded, buyers_planned, names, lists, earlier, last, flows fun _ => buyers_aliases⟩

/-- A join that takes the alias of the base: the name of a customer is read from orders. -/
theorem buyers_mixed_up : Built (document saleTables ⟨buyers "base"⟩) ∧
    (document saleTables ⟨buyers "base"⟩).Records (buyersQuery "base") ∧
    (buyersQuery "base").plan .duckdb none = .ok (buyersStatement "base") ∧
    ¬(buyersStatement "base").Flows (buyersStatement "base").ctes := by
  refine ⟨.document _ _ nofun, .inl ⟨"buyers", by cbv⟩, rfl, fun flows => ?_⟩
  have covered := flows (some "base") "name" _ (.own List.mem_cons_self .here) ⟨.cte "__source0", some "base"⟩
    List.mem_cons_self rfl _ (.cte List.mem_cons_self)
  revert covered
  decide

end Elaborate

end SemanticLayer
