import SemanticLayer.Proofs.Plan.Accepted
import SemanticLayer.Proofs.Plan.Meaning

/-!
Pipelines over one relation mean what their stages do. A stage without nests over fields without joins is planned
as one `SELECT` of that relation; its rows are those of the stage, and the next stage reads them from the `WITH`
list.
-/
namespace SemanticLayer

open List

namespace Plan

open Sql (Engine)

abbrev Stands (ns : Namespace) (l : SemanticLayer.Level) (e : Expr) (x : Sql.Expr) : Prop :=
  Expresses [] l (fun E c => e.meaning E ns c) (e.Constant ns) x

def Plain (ns : Namespace) (l : SemanticLayer.Level) (e : Expr) : Prop :=
  e.level? (Names.of ns) = some l ∧ ¬ e.Exotic ns

def Quiet (P : Compilation → Prop) (progress : Progress) (s : Compilation × Progress) : Prop := P s.1 ∧ s.2 = progress

theorem Reaches.compiling {P : Compilation → Prop} {action : CompileM α} (reaches : Reaches P action Q) :
    Reaches (Quiet P progress) (RowsM.compiling action) Q := by
  rintro ⟨c, _⟩ ⟨kept, rfl⟩
  obtain ⟨a, c', ran, kept, holds⟩ := reaches c kept
  exact ⟨a, (c', _), gives_compiling.mpr ⟨ran, rfl⟩, ⟨kept, rfl⟩, holds⟩

theorem Reaches.compilation {P : Compilation → Prop} :
    Reaches (Quiet P progress) (MonadState.get : RowsM Compilation) P :=
  fun s kept => ⟨s.1, s, gives_compilation.mpr ⟨rfl, rfl, rfl⟩, kept, kept.1⟩

structure Input.Simple (input : Input) : Prop where
  joinless : Joinless input.fields
  sound : FieldsSound input.fields
  filters : ∀ e ∈ input.filters, Plain input.fields .scalar e

theorem joinless_closed : Closed (fun ns _ => Joinless ns) fun _ _ => False where
  definition joinless _ defined := by
    obtain ⟨_, _, _, within, _⟩ := Namespace.definitionOf_iff.mp defined
    exact (joinless.within within).2 ▸ joinless
  read joinless _ within found := by
    obtain ⟨_, rfl⟩ := joinless.within within
    exact joinless _ _ found
  condition := False.elim
  restriction := False.elim

structure Target.Bare (t : Target) (ns : Namespace) : Prop where
  root : t.tree.root = ns
  used : t.tree.used = []

theorem Target.Bare.ordered {t : Target} (bare : t.Bare ns) : t.tree.ordered = [] := by
  refine eq_nil_iff_forall_not_mem.mpr fun path mem => ?_
  have used := t.tree.ordered_used mem
  rw [bare.used] at used
  cases used

theorem treeFor_bare (simple : input.Simple) (d : Dialect)
    (levels : ∀ e ∈ exprs, ∃ l, e.level? (Names.of input.fields) = some l) :
    ∃ tree, treeFor input exprs = .ok tree ∧ (⟨d, tree⟩ : Target).Bare input.fields := by
  have reads : ∀ e ∈ input.filters ++ exprs, (∃ l, e.level? (Names.of input.fields) = some l) ∧
      Joinless input.fields := by
    intro e mem
    refine ⟨?_, simple.joinless⟩
    rcases mem_append.mp mem with mem | mem
    · exact ⟨_, (simple.filters e mem).1⟩
    · exact levels e mem
  obtain ⟨tree, isTree, spans⟩ := treeFor_ok joinless_closed simple.sound reads
  refine ⟨tree, isTree, spans.root_eq, eq_nil_iff_forall_not_mem.mpr fun path mem => ?_⟩
  obtain ⟨nonempty, _, placed⟩ := spans.along path mem
  cases placed with
  | here => exact nonempty rfl
  | join _ holds _ => exact holds

section Level

variable {t : Target} {ns : Namespace}

theorem compileRoot_stands (bare : t.Bare ns) (joinless : Joinless ns) (sound : FieldsSound ns)
    (plain : Plain ns l e) : Reaches (Inside []) (t.compileRoot e) (Stands ns l e) := by
  unfold Target.compileRoot
  rw [bare.root]
  refine compileWithin_means bare.used joinless sound plain.1 plain.2 (fun _ mem => by cases mem) ?_
  rw [Target.depth, bare.root]
  omega

def columnLevel (measure : Bool) : SemanticLayer.Level := if measure then .aggregate else .scalar

def ItemStands (ns : Namespace) (c : ExprField × Bool) (item : Sql.SelectItem) : Prop :=
  item.label = some c.1.name ∧ Stands ns (columnLevel c.2) c.1.expr item.expr

def KeyStands (ns : Namespace) (f : ExprField) (d : String × Sql.Expr) : Prop :=
  d.1 = f.name ∧ Stands ns .scalar f.expr d.2

structure PartsStand (ns : Namespace) (filters : List Expr) (level : Level) (parts : LevelParts) : Prop where
  keys : parts.keys = []
  dimensions : List.Forall₂ (KeyStands ns) level.dimensions parts.dimensions
  items : List.Forall₂ (ItemStands ns) level.columns parts.items
  having : List.Forall₂ (Stands ns .aggregate) level.having parts.having
  conditions : List.Forall₂ (Stands ns .scalar) filters parts.conditions

theorem lookup_named {α β : Type} {name : α → String} {S : α → β → Prop} {items : List α}
    {found : List (String × β)} (each : List.Forall₂ (fun a d => d.1 = name a ∧ S a d.2) items found)
    (names : (items.map name).Nodup) {a : α} (mem : a ∈ items) :
    ∃ b, found.lookup (name a) = some b ∧ S a b := by
  induction each with
  | nil => cases mem
  | @cons first d rest found stands later ih =>
    obtain ⟨_, b⟩ := d
    obtain ⟨rfl, stands⟩ := stands
    obtain ⟨fresh, names⟩ := nodup_cons.mp names
    rcases mem_cons.mp mem with rfl | mem
    · exact ⟨b, by rw [lookup_cons_self], stands⟩
    · have other : (name a == name first) = false := by
        simp only [beq_eq_false_iff_ne]
        intro same
        exact fresh (same ▸ mem_map_of_mem mem)
      obtain ⟨c, found, stands⟩ := ih names mem
      exact ⟨c, by rw [lookup_cons, other]; exact found, stands⟩

structure Level.Simple (ns : Namespace) (filters : List Expr) (level : Level) : Prop where
  names : (level.dimensions.map ExprField.name).Nodup
  rows : ∀ e ∈ filters, Plain ns .scalar e
  columns : ∀ c ∈ level.columns, Plain ns (columnLevel c.2) c.1.expr
  groups : ∀ e ∈ level.having, Plain ns .aggregate e

variable {level : Level} {input : Input}

theorem levelParts_stands (bare : t.Bare ns) (joinless : Joinless ns) (sound : FieldsSound ns)
    (simple : level.Simple ns filters) :
    Reaches (Inside []) (levelParts t [] filters level) (PartsStand ns filters level) := by
  have root {l : SemanticLayer.Level} {e : Expr} (plain : Plain ns l e) := compileRoot_stands bare joinless sound plain
  have dimensions : Reaches (Inside []) (level.dimensions.mapM fun f => do
      return (f.name, ← t.compileRoot f.expr)) (List.Forall₂ (KeyStands ns) level.dimensions) :=
    .mapM _ fun f mem => .bind (root (simple.columns (f, false) (dimension_column.mp mem))) fun _ stands =>
      .pure ⟨rfl, stands⟩
  rw [levelParts_eq, mapM_nil, pure_bind]
  refine .bind dimensions fun found stand => ?_
  have items : Reaches (Inside []) (levelItems t found level)
      (List.Forall₂ (ItemStands ns) level.columns) := by
    refine .mapM _ fun (field, measure) mem => ?_
    cases measure with
    | true => exact .bind (root (simple.columns _ mem)) fun _ stands => .pure ⟨rfl, stands⟩
    | false =>
      obtain ⟨x, isFound, stands⟩ := lookup_named stand simple.names (dimension_column.mpr mem)
      simp only [isFound]
      exact .pure ⟨rfl, stands⟩
  refine .bind (Q := fun _ => True) (fun s inside => ⟨⟨⟩, _, rfl, ?_, trivial⟩) fun _ _ => ?_
  · split <;> exact ⟨inside.filters, inside.keyed, inside.ungroups⟩
  refine .bind items fun items stands => ?_
  refine .bind (.mapM _ fun e mem => root (simple.groups e mem)) fun having groups => ?_
  exact .bind (.mapM _ fun e mem => root (simple.rows e mem)) fun conditions rows =>
    .pure ⟨rfl, stand, stands, groups, rows⟩

theorem planFrame_stands (bare : t.Bare input.fields) (simple : input.Simple) (conditions : List Sql.Expr) :
    Reaches (Quiet (Inside []) progress) (planFrame p t input conditions) fun frame => ∃ filters,
      List.Forall₂ (Stands input.fields .scalar) input.filters filters ∧
      frame = ⟨⟨input.relation, some baseAlias⟩, [], allOf? (filters ++ conditions)⟩ := by
  unfold planFrame
  rw [bare.ordered, mapM_nil]
  refine .bind (.mapM _ fun e mem => .compiling (compileRoot_stands bare simple.joinless simple.sound
    (simple.filters e mem))) fun filters stand => ?_
  rw [pure_bind]
  refine .bind .compilation fun s inside => .pure ⟨filters, stand, ?_⟩
  rw [inside.keyed]
  rfl

/-- A `SELECT` of one relation that stands for a level; its order has no meaning. -/
structure Selects (ns : Namespace) (relation : Sql.Relation) (filters : List Expr) (level : Level)
    (q : Sql.Query) : Prop where
  source : q.source = some ⟨relation, some baseAlias⟩
  joins : q.joins = []
  condition : ∃ conditions, q.condition = allOf? conditions ∧
    List.Forall₂ (Stands ns .scalar) filters conditions
  items : List.Forall₂ (ItemStands ns) level.columns q.items
  groupBy : ∃ keys, q.groupBy = (if level.grouped then keys.map Prod.snd else []) ∧
    List.Forall₂ (KeyStands ns) level.dimensions keys
  having : ∃ having, q.having = allOf? having ∧ List.Forall₂ (Stands ns .aggregate) level.having having
  limit : q.limit = level.limit

theorem planRows_selects (simple : input.Simple) (levelSimple : level.Simple input.fields level.filters)
    (s : Progress) :
    ∃ q, (planRows p input [] [] level).run s = .ok (q, s) ∧
      Selects input.fields input.relation (input.filters ++ level.filters) level
        { q with limit := level.limit } := by
  have own : level.All fun e => ∃ l, e.level? (Names.of input.fields) = some l :=
    ⟨fun e mem => ⟨_, (levelSimple.rows e mem).1⟩, fun c mem => ⟨_, (levelSimple.columns c mem).1⟩,
      fun e mem => ⟨_, (levelSimple.groups e mem).1⟩⟩
  obtain ⟨tree, isTree, bare⟩ := treeFor_bare simple p.dialect (own.exprs (forall_mem_nil _) (forall_mem_nil _))
  rw [Level.exprs] at isTree
  have plan : Reaches (Quiet (Inside []) s) (do
      let parts ← RowsM.compiling (levelParts ⟨p.dialect, tree⟩ [] ([] ++ level.filters) level)
      let frame ← planFrame p ⟨p.dialect, tree⟩ input parts.conditions
      return (parts, frame)) fun result => PartsStand input.fields level.filters level result.1 ∧
        ∃ filters, List.Forall₂ (Stands input.fields .scalar) input.filters filters ∧
          result.2 = ⟨⟨input.relation, some baseAlias⟩, [], allOf? (filters ++ result.1.conditions)⟩ := by
    refine .bind (.compiling (levelParts_stands bare simple.joinless simple.sound levelSimple))
      fun parts stand => ?_
    exact .bind (planFrame_stands bare simple parts.conditions) fun frame isFrame => .pure ⟨stand, isFrame⟩
  obtain ⟨⟨parts, frame⟩, ⟨c, _⟩, ran, ⟨inside, rfl⟩, stand, filters, filtersStand, isFrame⟩ :=
    plan (.empty, s) ⟨⟨rfl, rfl, rfl⟩, rfl⟩
  unfold planRows
  rw [liftExcept_bind isTree]
  rw [StateT.run_bind, ran]
  dsimp only at isFrame
  subst isFrame
  obtain ⟨_, _, _, ungroups⟩ := c
  obtain rfl : ungroups = [] := inside.ungroups
  refine ⟨_, rfl, ?_⟩
  exact {
    source := rfl
    joins := rfl
    condition := ⟨_, rfl, rel_append filtersStand stand.conditions⟩
    items := by rw [stand.keys]; exact stand.items
    groupBy := ⟨parts.dimensions, by rw [stand.keys]; rfl, stand.dimensions⟩
    having := ⟨_, rfl, stand.having⟩
    limit := rfl }

theorem planLevel_selects (simple : input.Simple) (levelSimple : level.Simple input.fields level.filters)
    (nests : level.hasNests = false) (s : Progress) :
    ∃ q, (planLevel p input level).run s = .ok (q, s) ∧
      Selects input.fields input.relation (input.filters ++ level.filters) level q := by
  obtain ⟨q, ran, selects⟩ := planRows_selects simple levelSimple s
  refine ⟨{ q with orderBy := orderTerms p.dialect .ofColumn level.orderBy, limit := level.limit }, ?_, ?_⟩
  · unfold planLevel
    simp only [nests, Bool.false_eq_true, if_false]
    rw [StateT.run_bind, ran]
    rfl
  · exact ⟨selects.source, selects.joins, selects.condition, selects.items, selects.groupBy, selects.having, rfl⟩

end Level

section Select

variable {E : Engine} {ns : Namespace} {e : Expr} {x : Sql.Expr}

theorem Stands.row (stands : Stands ns .scalar e x) (G : List E.Scope) (row : E.Row) :
    E.eval G (baseScope row) x = e.meaning E ns ⟨row, []⟩ :=
  stands.means.settled rfl E G row []

theorem Stands.group (stands : Stands ns l e x) (row : E.Row) (group : List E.Row) :
    E.eval (group.map baseScope) (baseScope row) x = e.meaning E ns ⟨row, group⟩ := by
  have all : group.filter (admits E []) = group := filter_eq_self.mpr fun _ _ => rfl
  rw [stands.means.value, all]

theorem map_eq_of_forall₂ {α β γ : Type} {R : α → β → Prop} {f : α → γ} {g : β → γ} {as : List α}
    {bs : List β} (each : List.Forall₂ R as bs) (same : ∀ a ∈ as, ∀ b, R a b → f a = g b) :
    as.map f = bs.map g := by
  induction each with
  | nil => rfl
  | cons first later ih =>
    rw [map_cons, map_cons, same _ mem_cons_self _ first,
      ih fun a mem => same a (mem_cons_of_mem _ mem)]

theorem all_eq_of_forall₂ {α β : Type} {R : α → β → Prop} {f : α → Bool} {g : β → Bool} {as : List α}
    {bs : List β} (each : List.Forall₂ R as bs) (same : ∀ a ∈ as, ∀ b, R a b → f a = g b) :
    as.all f = bs.all g := by
  have maps := map_eq_of_forall₂ each same
  simpa only [all_map, Function.id_comp] using congrArg (List.all · id) maps

variable {relation : Sql.Relation} {filters : List Expr} {level : Level} {q : Sql.Query} (db : E.Database)

theorem Selects.rows (selects : Selects ns relation filters level q) :
    (E.frame db q).filter (E.passes q.condition) =
      ((E.rowsOf db relation).filter (keeps E ns filters)).map baseScope := by
  obtain ⟨conditions, isCondition, stand⟩ := selects.condition
  have frame : E.frame db q = (E.rowsOf db relation).map baseScope := by
    unfold Engine.frame
    rw [selects.joins, selects.source]
    rfl
  rw [frame, filter_map]
  congr 1
  refine filter_congr fun row _ => ?_
  rw [Function.comp_apply, Engine.passes, isCondition, Engine.holds_allOf (Engine.eval_operation .and)]
  exact (all_eq_of_forall₂ stand fun e _ x stands => by rw [stands.row]).symm

theorem columns_map {γ : Type} (same : level.fields = fields) (nests : ∀ n, .nest n ∉ fields) {f : OutputField → γ}
    {g : ExprField × Bool → γ} (dimension : ∀ x, f (.dimension x) = g (x, false))
    (measure : ∀ x, f (.measure x) = g (x, true)) : level.columns.map g = fields.map f := by
  unfold Level.columns
  rw [same]
  clear same
  induction fields with
  | nil => rfl
  | cons first rest ih =>
    have later := ih fun n mem => nests n (mem_cons_of_mem _ mem)
    cases first with
    | dimension x =>
      rw [map_cons, ← later, dimension]
      rfl
    | measure x =>
      rw [map_cons, ← later, measure]
      rfl
    | nest n => exact (nests n mem_cons_self).elim

theorem dimensions_eq (level : Level) : level.dimensions = level.fields.filterMap OutputField.dimension? := by
  congr 1

variable {fields : List OutputField} {having : List Filter} {orderBy : List OrderBy} {r : Restriction}

theorem Selects.output (selects : Selects ns relation filters level q) (same : level.fields = fields)
    (nests : ∀ n, .nest n ∉ fields) {value : OutputField → E.Value}
    (dimensions : ∀ c, .dimension c ∈ fields → ∀ x, Stands ns .scalar c.expr x →
      value (.dimension c) = E.eval G scope x)
    (measures : ∀ c, .measure c ∈ fields → ∀ x, Stands ns .aggregate c.expr x →
      value (.measure c) = E.eval G scope x) : E.output q G scope = fields.map fun f => (f.name, value f) := by
  let field (c : ExprField × Bool) : OutputField := if c.2 then .measure c.1 else .dimension c.1
  have mem {c : ExprField × Bool} (mem : c ∈ level.columns) : field c ∈ fields := by
    obtain ⟨f, given, is⟩ := mem_filterMap.mp mem
    rw [same] at given
    cases f <;> cases is <;> exact given
  rw [← columns_map same nests (g := fun c => ((field c).name, value (field c))) (fun _ => rfl) fun _ => rfl]
  refine (map_eq_of_forall₂ selects.items fun c given item stands => ?_).symm
  obtain ⟨label, stands⟩ := stands
  obtain ⟨c, measure⟩ := c
  rw [label]
  cases measure with
  | true => exact Prod.ext rfl (measures c (mem given) _ stands)
  | false => exact Prod.ext rfl (dimensions c (mem given) _ stands)

theorem Selects.aggregates (selects : Selects ns relation filters level q) :
    (q.items.any fun item => item.expr.aggregates) = level.columns.any Prod.snd := by
  have maps := map_eq_of_forall₂ (f := Prod.snd) (g := fun item => item.expr.aggregates) selects.items
    fun (c, measure) _ item stands => by
      rw [stands.2.means.level]
      cases measure <;> rfl
  simpa only [any_map, Function.id_comp] using congrArg (List.any · id) maps.symm

theorem select_project
    (selects : Selects ns relation (filters ++ r.filters.map Filter.expr) (.ofProject fields orderBy r) q)
    (limit : r.limit = none) (dimensions : ∀ f ∈ fields, ∃ x, f = .dimension x) :
    E.select db q = (Stage.project fields orderBy r).run E ns filters (E.rowsOf db relation) := by
  have isGrouped : q.isGrouped = false := by
    obtain ⟨_, isGroupBy, _⟩ := selects.groupBy
    obtain ⟨_, isHaving, none⟩ := selects.having
    cases none
    have noMeasures : (Level.ofProject fields orderBy r).columns.any Prod.snd = false := by
      refine any_eq_false.mpr fun c mem => ?_
      obtain ⟨f, given, is⟩ := mem_filterMap.mp mem
      obtain ⟨x, rfl⟩ := dimensions f given
      cases is
      exact Bool.false_ne_true
    rw [Sql.Query.isGrouped, isGroupBy, isHaving, selects.aggregates, noMeasures]
    rfl
  have noLimit : q.limit = none := selects.limit.trans limit
  unfold Engine.select
  rw [selects.rows, isGrouped, noLimit]
  dsimp only
  rw [map_map]
  refine map_congr_left fun row _ => selects.output rfl ?_ ?_ ?_
  · intro n mem
    obtain ⟨x, impossible⟩ := dimensions _ mem
    cases impossible
  · exact fun c _ x stands => (stands.row [] row).symm
  · intro c mem
    obtain ⟨x, impossible⟩ := dimensions _ mem
    cases impossible

theorem Selects.groups (selects : Selects ns relation filters level q) (grouped : level.grouped = true)
    (keys : ∀ f ∈ level.dimensions, ¬ f.expr.Constant ns) (rows : List E.Row) :
    (if q.groupBy.isEmpty then [rows.map baseScope]
      else Sql.groupsBy (fun row => q.groupBy.map fun e => E.eval [] row (Sql.groupTerm q.items e))
        (rows.map baseScope)) =
      (groupsOf E ns level.fields rows).map fun group => group.2.map baseScope := by
  obtain ⟨found, isGroupBy, stand⟩ := selects.groupBy
  rw [if_pos grouped] at isGroupBy
  have empty : q.groupBy.isEmpty = level.dimensions.isEmpty := by
    rw [isGroupBy]
    generalize level.dimensions = dimensions at stand
    cases stand <;> rfl
  unfold groupsOf
  rw [empty, ← dimensions_eq]
  split
  · rfl
  · have values (row : E.Row) : level.dimensions.map (fun f => f.expr.meaning E ns ⟨row, []⟩) =
        q.groupBy.map fun e => E.eval [] (baseScope row) (Sql.groupTerm q.items e) := by
      rw [isGroupBy, map_map]
      refine map_eq_of_forall₂ stand fun f mem d stands => ?_
      have other (value : Sql.Literal) : d.2 ≠ .literal value := fun is =>
        keys f mem (stands.2.literal value is)
      rw [Function.comp_apply, Sql.groupTerm_of_other other, stands.2.row]
    have sameGroups (a b : E.Row) :
        (q.groupBy.map fun e => E.eval [] (baseScope a) (Sql.groupTerm q.items e)) =
            q.groupBy.map (fun e => E.eval [] (baseScope b) (Sql.groupTerm q.items e)) ↔
          groupKey E ns level.fields a = groupKey E ns level.fields b := by
      rw [← values, ← values, groupKey, groupKey, ← dimensions_eq, map_inj_left]
      simp
    rw [Sql.groupsBy_map, Sql.groupsBy_congr sameGroups, Sql.groupsBy_eq, map_map, byKey, map_map]
    rfl

theorem byKey_head {α κ : Type} [DecidableEq κ] {key : α → κ} {rows : List α} {group : κ × List α}
    (mem : group ∈ byKey key rows) : ∃ first rest, group.2 = first :: rest ∧ key first = group.1 := by
  obtain ⟨k, isKey, rfl⟩ := mem_map.mp mem
  obtain ⟨a, given, same⟩ := mem_map.mp (mem_eraseDups.mp isKey)
  have member : a ∈ rows.filter fun a => key a = k := mem_filter.mpr ⟨given, decide_eq_true same⟩
  obtain ⟨first, rest, isGroup⟩ := exists_cons_of_ne_nil (ne_nil_of_mem member)
  have first_mem : first ∈ rows.filter fun a => key a = k := isGroup ▸ mem_cons_self
  exact ⟨first, rest, isGroup, of_decide_eq_true (mem_filter.mp first_mem).2⟩

theorem groupsOf_get (mem : group ∈ groupsOf E ns fields rows)
    (names : ((fields.filterMap OutputField.dimension?).map ExprField.name).Nodup)
    (isDimension : f ∈ fields.filterMap OutputField.dimension?) :
    E.get group.1 f.name = f.expr.meaning E ns ⟨group.2.headD [], []⟩ := by
  unfold groupsOf at mem
  rw [if_neg (by simpa using ne_nil_of_mem isDimension)] at mem
  obtain ⟨first, rest, isGroup, same⟩ := byKey_head mem
  have each : List.Forall₂ (fun (f : ExprField) d => d.1 = f.name ∧ d.2 = f.expr.meaning E ns ⟨first, []⟩)
      (fields.filterMap OutputField.dimension?) (groupKey E ns fields first) := by
    unfold groupKey
    rw [forall₂_map_right_iff, forall₂_same]
    exact fun f _ => ⟨rfl, rfl⟩
  obtain ⟨value, found, rfl⟩ := lookup_named (S := fun f v => v = f.expr.meaning E ns ⟨first, []⟩)
    each names isDimension
  rw [isGroup, ← same, Engine.get, found]
  rfl

theorem Selects.representative (selects : Selects ns relation filters level q) (group : List E.Row) :
    E.representative q (group.map baseScope) = baseScope (group.headD []) := by
  unfold Engine.representative
  rw [selects.source, selects.joins]
  cases group <;> rfl

theorem select_reduce
    (selects : Selects ns relation (filters ++ r.filters.map Filter.expr) (.ofReduce fields having orderBy r) q)
    (limit : r.limit = none) (nonempty : fields ≠ []) (nests : ∀ n, .nest n ∉ fields)
    (names : ((fields.filterMap OutputField.dimension?).map ExprField.name).Nodup)
    (groups : ∀ e ∈ (Stage.reduce fields having orderBy r).groupExprs, ¬ e.ReadsRow ns)
    (keys : ∀ e ∈ (Stage.reduce fields having orderBy r).keyExprs, ¬ e.Constant ns) :
    E.select db q = (Stage.reduce fields having orderBy r).run E ns filters (E.rowsOf db relation) := by
  have isGrouped : q.isGrouped = true := by
    obtain ⟨found, isGroupBy, stand⟩ := selects.groupBy
    obtain ⟨first, rest, rfl⟩ := exists_cons_of_ne_nil nonempty
    rw [Sql.Query.isGrouped, isGroupBy, selects.aggregates]
    cases first with
    | dimension c =>
      cases stand
      rfl
    | measure c => simp [Level.columns, Level.ofReduce]
    | nest n => exact (nests n mem_cons_self).elim
  have noLimit : q.limit = none := selects.limit.trans limit
  have keys : ∀ f ∈ (Level.ofReduce fields having orderBy r).dimensions, ¬ f.expr.Constant ns := by
    intro f mem
    exact keys f.expr (mem_map_of_mem mem)
  have measured {e : Expr} (mem : e ∈ (Stage.reduce fields having orderBy r).groupExprs) {x : Sql.Expr}
      (stands : Stands ns .aggregate e x) (group : List E.Row) :
      E.eval (group.map baseScope) (baseScope (group.headD [])) x = e.meaning E ns ⟨[], group⟩ := by
    exact (stands.group ..).trans (Expr.meaningWithin_row _ (groups e mem) _ [] _)
  unfold Engine.select
  rw [selects.rows, isGrouped, noLimit]
  dsimp only
  rw [selects.groups rfl keys, filter_map, map_map]
  have passes (group : E.Row × List E.Row) :
      (q.having.all fun e => E.holds (E.eval (group.2.map baseScope)
        (E.representative q (group.2.map baseScope)) e)) =
      having.all fun f => E.holds (f.expr.meaning E ns ⟨[], group.2⟩) := by
    obtain ⟨conditions, isHaving, stand⟩ := selects.having
    rw [selects.representative, isHaving, Engine.holds_allOf (Engine.eval_operation .and)]
    have each := all_eq_of_forall₂ (f := fun e => E.holds (e.meaning E ns ⟨[], group.2⟩)) stand
      fun e mem x stands => by
        rw [← measured (mem_append_right _ mem) stands]
    rw [← each, Level.ofReduce, all_map]
    rfl
  refine (congrArg (List.map _) (filter_congr fun group _ => passes group)).trans
    (map_congr_left fun group mem => ?_)
  rw [Function.comp_apply, selects.representative]
  refine selects.output rfl nests (fun c mem' x stands => ?_) fun c mem' x stands => ?_
  · rw [stands.row]
    exact groupsOf_get (mem_of_mem_filter mem) names (mem_filterMap.mpr ⟨_, mem', rfl⟩)
  · exact (measured (mem_append_left _ (mem_map_of_mem (mem_filterMap.mpr ⟨_, mem', rfl⟩)))
      stands group.2).symm

end Select

section Stages

variable {ns : Namespace} {fields : List OutputField}

theorem dimension_names (fields : List OutputField) :
    ((fields.filterMap OutputField.dimension?).map ExprField.name).Sublist (fields.map OutputField.name) := by
  induction fields with
  | nil => exact .slnil
  | cons first rest ih =>
    cases first with
    | dimension f => exact ih.cons_cons f.name
    | measure f => exact ih.cons f.name
    | nest n => exact ih.cons n.name

theorem column_plain {level : Level} (same : level.fields = fields)
    (outputs : ∀ f ∈ fields, OutputSound (Names.of ns) f)
    (ordinary : ∀ e ∈ fields.filterMap OutputField.expr?, ¬ e.Exotic ns) (mem : c ∈ level.columns) :
    Plain ns (columnLevel c.2) c.1.expr := by
  obtain ⟨f, given, is⟩ := mem_filterMap.mp mem
  rw [same] at given
  cases outputs f given with
  | dimension level =>
    cases is
    exact ⟨level, ordinary _ (mem_filterMap.mpr ⟨_, given, rfl⟩)⟩
  | measure level =>
    cases is
    exact ⟨level, ordinary _ (mem_filterMap.mpr ⟨_, given, rfl⟩)⟩
  | nest => cases is

theorem no_nests {stage : Stage} (none : stage.nests = []) (n : Nest) : .nest n ∉ stage.outputs := by
  intro mem
  have impossible : n ∈ stage.nests := mem_filterMap.mpr ⟨_, mem, rfl⟩
  rw [none] at impossible
  cases impossible

/-- One stage is planned as a `SELECT` that has its rows. -/
theorem planStage_means {input : Input} (simple : input.Simple) (sound : StageSound (Names.of input.fields) stage)
    (plain : stage.Plain input.fields) (s : Progress) :
    ∃ q, (planStage p input stage).run s = .ok (q, s) ∧ ∀ (E : Engine) (db : E.Database),
      E.select db q = stage.run E input.fields input.filters (E.rowsOf db input.relation) := by
  have nests := no_nests plain.nests
  have hasNests (level : Level) (same : level.fields = stage.outputs) : level.hasNests = false := by
    refine any_eq_false.mpr fun f mem => ?_
    cases f with
    | nest n => exact (nests n (same ▸ mem)).elim
    | _ => exact Bool.false_ne_true
  cases stage with
  | reduce fields having orderBy r =>
    cases sound with
    | reduce nonempty distinct outputs groups rows =>
      have names := (dimension_names fields).nodup distinct
      have level : (Level.ofReduce fields having orderBy r).Simple input.fields (r.filters.map Filter.expr) := by
        refine ⟨names, fun e mem => ?_, fun c mem => ?_, fun e mem => ?_⟩
        · obtain ⟨f, given, rfl⟩ := mem_map.mp mem
          exact ⟨rows f given, plain.ordinary _ (mem_append_right _ mem)⟩
        · exact column_plain rfl outputs (fun e mem => plain.ordinary e
            (mem_append_left _ (mem_append_left _ mem))) mem
        · obtain ⟨f, given, rfl⟩ := mem_map.mp mem
          exact ⟨groups f given, plain.ordinary _ (mem_append_left _ (mem_append_right _ mem))⟩
      obtain ⟨q, ran, selects⟩ := planLevel_selects simple level
        (hasNests (.ofReduce fields having orderBy r) rfl) s
      exact ⟨q, ran, fun E db => select_reduce db selects plain.limit nonempty nests names plain.groups plain.keys⟩
  | project fields orderBy r =>
    cases sound with
    | project nonempty distinct outputs dimensions rows =>
      have level : (Level.ofProject fields orderBy r).Simple input.fields (r.filters.map Filter.expr) := by
        refine ⟨(dimension_names fields).nodup distinct, fun e mem => ?_, fun c mem => ?_, fun e mem => by cases mem⟩
        · obtain ⟨f, given, rfl⟩ := mem_map.mp mem
          exact ⟨rows f given, plain.ordinary _ (mem_append_right _ mem)⟩
        · exact column_plain rfl outputs (fun e mem => plain.ordinary e (mem_append_left _ mem)) mem
      obtain ⟨q, ran, selects⟩ := planLevel_selects simple level
        (hasNests (.ofProject fields orderBy r) rfl) s
      exact ⟨q, ran, fun E db => select_project db selects plain.limit dimensions⟩
  | index => exact (plain.kind rfl).elim

theorem ofCte_simple (name : String) (outputs : List ResultField) (location : Location) :
    (Input.ofCte name outputs location).Simple :=
  ⟨(flat_ofResult outputs location).joinless, .ofResult outputs location, fun _ mem => by cases mem⟩

theorem planStages_means (location : Location) : ∀ {stages : List Stage} {input : Input},
    stages ≠ [] → input.Simple → StagesSound (Names.of input.fields) stages →
    StagesPlain location input.fields stages → ∀ s : Progress, ∃ q s' more,
      (planStages p location input stages).run s = .ok (q, s') ∧ s'.ctes = s.ctes ++ more ∧
      ∀ (E : Engine) (db : E.Database), E.select (E.withCtes db more) q =
        runStages E location input.fields input.filters (E.rowsOf db input.relation) stages
  | [], _, nonempty, _, _, _, _ => (nonempty rfl).elim
  | [last], input, _, simple, .cons sound _, plain, s => by
    obtain ⟨q, ran, rows⟩ := planStage_means simple sound plain.1 s
    exact ⟨q, s, [], ran, (append_nil _).symm, rows⟩
  | stage :: next :: rest, input, _, simple, .cons sound later, plain, s => by
    obtain ⟨first, ran, firstRows⟩ := planStage_means simple sound plain.1 s
    let name := s!"__stage{s.counter}"
    obtain ⟨q, s', more, ran', ctes, rows⟩ := planStages_means location
      (cons_ne_nil next rest) (ofCte_simple name stage.outputSchema location) (later.mono (ofResult_le _ _ _)) plain.2
      ⟨s.ctes ++ [⟨name, first⟩], s.counter + 1⟩
    refine ⟨q, s', ⟨name, first⟩ :: more, ?_, ?_, fun E db => ?_⟩
    · rw [planStages]
      · rw [StateT.run_bind, ran]
        exact ran'
      · exact fun single => cons_ne_nil next rest single
    · rw [ctes, List.append_assoc]
      rfl
    · rw [runStages, ← firstRows]
      have read : E.rowsOf { db with ctes := (name, E.select db first) :: db.ctes } (.cte name) =
          E.select db first := by
        rw [Engine.rowsOf, lookup_cons_self]
        rfl
      rw [← read]
      exact rows E { db with ctes := (name, E.select db first) :: db.ctes }

theorem planPipeline_table (origin : q.source.origin = .table path connection) (nonempty : q.stages ≠ [])
    (plain : StagesPlain q.location q.source.fields q.stages) :
    planPipeline p q = planStages p q.location
      ⟨.table path, q.source.fields, q.source.primaryKey, q.source.filters.map Filter.expr⟩ q.stages := by
  unfold planPipeline
  cases h : q.stages with
  | nil => exact (nonempty h).elim
  | cons first rest =>
    rw [h] at plain
    have sample := plain.1.sample
    dsimp only
    rw [sample]
    unfold sourceInput sourceRelation
    rw [origin]
    rfl

end Stages

end Plan

/-- The statement of a query of a table without joins has the rows that the stages of the query have, run one
after the other. -/
theorem planned_rows_perm {m : Model} (built : Elaborate.Built m) {q : Query} (recorded : m.Records q)
    (table : q.source.origin.isTable = true) (joinless : Joinless q.source.fields)
    (filters : ∀ f ∈ q.source.filters, ¬ f.expr.Exotic q.source.fields)
    (stages : StagesPlain q.location q.source.fields q.stages) (d : Dialect) :
    ∃ statement, q.plan d none = .ok statement ∧
      ∀ (E : Sql.Engine) (db : E.Database), (E.run db statement).Perm (q.rows E db.tables) := by
  cases (Elaborate.built_sound built).recorded recorded with
  | mk source nonempty sound _ =>
    cases source with
    | mk fields _ _ _ rows _ =>
      obtain ⟨path, connection, origin⟩ : ∃ path connection, q.source.origin = .table path connection := by
        cases h : q.source.origin with
        | table path connection => exact ⟨path, connection, rfl⟩
        | query | sql => rw [h] at table; cases table
      let input : Plan.Input :=
        ⟨.table path, q.source.fields, q.source.primaryKey, q.source.filters.map Filter.expr⟩
      have simple : input.Simple := by
        refine ⟨joinless, fields, fun e mem => ?_⟩
        obtain ⟨f, given, rfl⟩ := List.mem_map.mp mem
        exact ⟨rows f given, filters f given⟩
      obtain ⟨select, progress, ctes, ran, isCtes, selected⟩ := Plan.planStages_means
        (p := ⟨d, Plan.planWithin d q.source.depth⟩) q.location nonempty simple sound stages ⟨[], 0⟩
      have planned : (Plan.planWithin d q.depth q).run ⟨[], 0⟩ = .ok (select, progress) := by
        rw [Plan.query_depth, Plan.planWithin, Plan.planPipeline_table origin nonempty stages]
        exact ran
      refine ⟨{ select with ctes := progress.ctes, limit := select.limit.or none }, ?_, fun E db => .of_eq ?_⟩
      · rw [Query.plan, planned]
        rfl
      · rw [Query.rows, origin, Option.or_none, isCtes]
        exact selected E db

variable {e : Expr}

theorem Flat.ordinary (flat : Flat ns) (plain : e.any Expr.isExotic = false) :
    ¬ e.Exotic ns
  | .here holds => Bool.false_ne_true (plain.symm.trans holds)
  | .definition _ defined leads => by
    obtain ⟨rfl, column, rfl⟩ := flat.definition defined
    cases leads with
    | here holds => cases holds
    | definition refers => cases refers

theorem Flat.not_constant (flat : Flat ns) (other : e.isLiteral = false) :
    ¬ e.Constant ns
  | .here holds => Bool.false_ne_true (other.symm.trans holds)
  | .definition _ defined leads => by
    obtain ⟨rfl, column, rfl⟩ := flat.definition defined
    cases leads with
    | here holds => cases holds
    | definition refers => cases refers

theorem not_readsRow (columns : e.anyOuter Expr.isColumn = false)
    (fields : ∀ path, e.anyOuter (Expr.isFieldAt path) = false) : ¬ e.ReadsRow ns
  | .here holds => Bool.false_ne_true (columns.symm.trans holds)
  | .definition refers _ _ => Bool.false_ne_true ((fields _).symm.trans refers)

namespace Elaborate

def homeCounts : Document.Statement :=
  let field (name : String) : Document.Expr := ⟨.field ⟨[name], default⟩, default⟩
  let count : Document.Expr := ⟨.aggregate .count none none, default⟩
  let home : Document.Expr :=
    ⟨.filtered count [⟨.binary .eq (field "origin") ⟨.string "ATL", default⟩, default⟩], default⟩
  .query none
    ⟨.source (.refine (.table none "flights" default)
        [.filter [⟨.isNull (field "origin") true, default⟩]] default),
      [.stage ⟨[.groupBy [.reference ⟨["carrier"], default⟩ []],
          .aggregate [.define ⟨⟨"landings", default⟩, count, default⟩, .define ⟨⟨"home", default⟩, home, default⟩],
          .having [⟨.binary .gt count ⟨.number "1", default⟩, default⟩]], default⟩,
        .stage ⟨[.groupBy [.reference ⟨["home"], default⟩ []],
          .aggregate [.define ⟨⟨"carriers", default⟩, count, default⟩]], default⟩], default⟩ default

def homeCountsQuery : Query :=
  let location : Location := ⟨"file:///flights.model", default⟩
  let measure (name : String) (e : Expr) : OutputField := .measure ⟨name, e, .number, location⟩
  let count : Expr := .aggregate .count [] none
  ⟨none, ⟨"flights", .table "flights" none,
      Namespace.ofColumns [⟨"carrier", .string⟩, ⟨"origin", .string⟩] location, none,
      [⟨.isNull (.field ["origin"]) true, location⟩], location⟩,
    [.reduce [.dimension ⟨"carrier", .field ["carrier"], .string, location⟩, measure "landings" count,
        measure "home" (.filtered count (.binary .eq (.field ["origin"]) (.literal (.string "ATL"))))]
        [⟨.binary .gt count (.number "1"), location⟩] [⟨"landings", .desc⟩] ⟨[], none, none⟩,
      .reduce [.dimension ⟨"home", .field ["home"], .number, location⟩, measure "carriers" count]
        [] [⟨"carriers", .desc⟩] ⟨[], none, none⟩], location⟩

theorem homeCounts_recorded : (document flights ⟨[homeCounts]⟩).Records homeCountsQuery := by
  have queries : (document flights ⟨[homeCounts]⟩).queries = [.ok homeCountsQuery] := by cbv
  exact .inr (queries ▸ mem_cons_self)

theorem homeCounts_plain :
    StagesPlain homeCountsQuery.location homeCountsQuery.source.fields homeCountsQuery.stages := by
  have all {P : Expr → Prop} {es : List Expr} (test : Expr → Bool) (each : es.all test = true)
      (holds : ∀ e, test e = true → P e) : ∀ e ∈ es, P e :=
    fun e mem => holds e (all_eq_true.mp each e mem)
  have ordinary {ns : Namespace} (flat : Flat ns) (e : Expr) (plain : !e.any Expr.isExotic = true) :
      ¬ e.Exotic ns := flat.ordinary (by simpa using plain)
  have keys {ns : Namespace} (flat : Flat ns) (e : Expr) (other : !e.isLiteral = true) : ¬ e.Constant ns :=
    flat.not_constant (by simpa using other)
  refine ⟨⟨nofun, rfl, rfl, rfl, all _ rfl (ordinary (flat_ofColumns _ _)), ?_,
      all _ rfl (keys (flat_ofColumns _ _))⟩,
    ⟨nofun, rfl, rfl, rfl, all _ rfl (ordinary (flat_ofResult _ _)), ?_, all _ rfl (keys (flat_ofResult _ _))⟩,
    trivial⟩
  · rintro e (_ | ⟨_, _ | ⟨_, _ | ⟨_, ⟨⟩⟩⟩⟩) <;> exact not_readsRow rfl fun _ => rfl
  · rintro e (_ | ⟨_, ⟨⟩⟩)
    exact not_readsRow rfl fun _ => rfl

theorem homeCounts_rows :
    Built (document flights ⟨[homeCounts]⟩) ∧ (document flights ⟨[homeCounts]⟩).Records homeCountsQuery ∧
    homeCountsQuery.source.origin.isTable = true ∧ Joinless homeCountsQuery.source.fields ∧
    StagesPlain homeCountsQuery.location homeCountsQuery.source.fields homeCountsQuery.stages ∧
    ∃ statement, homeCountsQuery.plan .postgres none = .ok statement ∧
      ∀ (E : Sql.Engine) (db : E.Database), (E.run db statement).Perm (homeCountsQuery.rows E db.tables) := by
  have built : Built (document flights ⟨[homeCounts]⟩) := .document _ _ nofun
  have flat : Flat homeCountsQuery.source.fields := flat_ofColumns _ _
  refine ⟨built, homeCounts_recorded, rfl, flat.joinless, homeCounts_plain,
    planned_rows_perm built homeCounts_recorded rfl flat.joinless (fun f mem => ?_) homeCounts_plain .postgres⟩
  cases List.mem_singleton.mp mem
  exact flat.ordinary rfl

end Elaborate

end SemanticLayer
