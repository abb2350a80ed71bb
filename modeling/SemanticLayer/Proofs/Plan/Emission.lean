import SemanticLayer.Proofs.Plan.Anatomy

/-!
Planning a sound query emits queries of the known kinds only, each after those that it reads.
-/
namespace SemanticLayer.Plan

open List

structure Good (F : Family) (d : Dialect) (s : Progress) : Prop where
  listed : Listed F d s.ctes
  counted : s.counter = s.ctes.length

/-- Planning that adds to queries of the known kinds, from any progress with certain queries. -/
def Yields {α : Type} (F : Family) (d : Dialect) (ctes : List Sql.Cte) (action : PlanM α)
    (Q : List Sql.Cte → α → Prop) : Prop :=
  ∀ s a s', ctes ⊆ s.ctes → Good F d s → Gives action s a s' →
    Good F d s' ∧ s.ctes <+: s'.ctes ∧ Q s'.ctes a

namespace Yields

variable {α β : Type} {F : Family} {d : Dialect} {ctes : List Sql.Cte} {Q : List Sql.Cte → α → Prop}
  {R : List Sql.Cte → β → Prop}

theorem pure {a : α} (holds : ∀ ctes', ctes ⊆ ctes' → Q ctes' a) : Yields F d ctes (Pure.pure a) Q := by
  intro s b s' known good run
  obtain ⟨rfl, rfl⟩ := gives_pure.mp run
  exact ⟨good, prefix_rfl, holds _ known⟩

theorem bind {x : PlanM α} {f : α → PlanM β} (first : Yields F d ctes x Q)
    (second : ∀ a ctes', ctes ⊆ ctes' → Q ctes' a → Yields F d ctes' (f a) R) :
    Yields F d ctes (x >>= f) R := by
  intro s b s' known good run
  obtain ⟨a, mid, here, there⟩ := gives_bind.mp run
  obtain ⟨good, grown, holds⟩ := first s a mid known good here
  obtain ⟨good, grown', holds⟩ := second a mid.ctes (fun c mem => grown.subset (known mem)) holds mid b s'
    (fun _ mem => mem) good there
  exact ⟨good, grown.trans grown', holds⟩

theorem weaken {x : PlanM α} {Q' : List Sql.Cte → α → Prop} (holds : Yields F d ctes x Q)
    (le : ∀ a ctes', ctes ⊆ ctes' → Q ctes' a → Q' ctes' a) : Yields F d ctes x Q' := by
  intro s a s' known good run
  obtain ⟨good, grown, holds⟩ := holds s a s' known good run
  exact ⟨good, grown, le a s'.ctes (fun _ mem => grown.subset (known mem)) holds⟩

theorem fault {fault : Fault} : Yields F d ctes (throw fault) Q := fun _ _ _ _ _ run =>
  (not_gives_fault run).elim

theorem define (emitted : ∀ ctes', ctes ⊆ ctes' → Emitted F d ctes' query) (named : stem ∈ stems) :
    Yields F d ctes (Plan.define stem query) fun ctes' name => ⟨name, query⟩ ∈ ctes' := by
  intro s name s' known good run
  obtain ⟨rfl, rfl⟩ := gives_define.mp run
  refine ⟨⟨?_, ?_⟩, prefix_append _ _, by simp⟩
  · rw [good.counted]
    exact .snoc good.listed (emitted _ known) named
  · simp [good.counted]

theorem mapM {f : α → PlanM β} {S : List Sql.Cte → α → β → Prop}
    (stable : ∀ {ctes ctes' a b}, ctes ⊆ ctes' → S ctes a b → S ctes' a b) {items : List α}
    (each : ∀ a ∈ items, Yields F d ctes (f a) fun ctes' b => S ctes' a b) :
    Yields F d ctes (items.mapM f) fun ctes' bs => List.Forall₂ (S ctes') items bs := by
  intro s bs s' known good run
  obtain ⟨⟨_, good⟩, grown, all⟩ := gives_mapM (P := fun s => ctes ⊆ s.ctes ∧ Good F d s)
    (R := fun s s' => s.ctes <+: s'.ctes) (Q := fun a b s => S s.ctes a b) (fun _ => prefix_rfl)
    List.IsPrefix.trans (fun grown holds => stable grown.subset holds) run ⟨known, good⟩
    fun a mem s b s' ⟨known, good⟩ run =>
      have ⟨good, grown, holds⟩ := each a mem s b s' known good run
      ⟨⟨fun c mem => grown.subset (known mem), good⟩, grown, holds⟩
  exact ⟨good, grown, all⟩

end Yields

def Serves (F : Family) (p : Planner) (fields : Namespace) : Prop :=
  ∀ {place : List String} {parent : Namespace} {name : String} {j : Join} {inner : Query} {ctes : List Sql.Cte},
    fields.within? place = some parent → parent.lookup? name = some (.join j) →
    j.source.origin = .query inner → Yields F p.dialect ctes (p.plan inner) fun ctes' query =>
      Emitted F p.dialect ctes' query ∧ query.outputs = inner.outputSchema.map ResultField.name

structure InputSound (input : Input) : Prop where
  fields : FieldsSound input.fields
  key : ∀ name ∈ input.key, (Names.of input.fields).level [name] = some .scalar
  filters : ∀ e ∈ input.filters, e.level? (Names.of input.fields) = some .scalar

theorem Known.sound (known : Known F ctes input) : InputSound input := by
  cases known with
  | source given served =>
    cases F.sound given with
    | mk source _ _ _ =>
      cases source with
      | mk fields _ _ key rows _ =>
        refine ⟨fields, key, fun e mem => ?_⟩
        obtain ⟨f, given, rfl⟩ := mem_map.mp mem
        exact rows f given
  | columns mem outputs rows => exact ⟨.ofResult _ _, nofun, fun e mem => (rows e mem).1⟩

theorem Known.numbers (known : Known F ctes input) :
    input.fields.Numbers F.number ∧ ∀ e ∈ input.filters, e.Numbers F.number := by
  cases known with
  | source given served =>
    refine ⟨F.fields given, fun e mem => ?_⟩
    obtain ⟨f, isFilter, rfl⟩ := mem_map.mp mem
    exact F.rows given f isFilter
  | columns mem outputs rows => exact ⟨(flat_ofResult _ _).numbers, fun e mem => (rows e mem).2⟩

theorem treeFor_over (sound : InputSound input) (levels : ∀ e ∈ exprs, ∃ l, e.level? (Names.of input.fields) = some l)
    (isTree : treeFor input exprs = .ok tree) : tree.Over (fun _ _ => True) input.fields input.key := by
  have reads : ∀ e ∈ input.filters ++ exprs, (∃ l, e.level? (Names.of input.fields) = some l) ∧ True := by
    intro e mem
    rcases mem_append.mp mem with mem | mem
    · exact ⟨⟨_, sound.filters e mem⟩, trivial⟩
    · exact ⟨levels e mem, trivial⟩
  obtain ⟨tree', isTree', spans⟩ := treeFor_ok closed_any sound.fields reads
  rw [isTree] at isTree'
  cases isTree'
  exact spans

theorem grounds (sound : InputSound input) (numbers : input.fields.Numbers N)
    (spans : t.tree.Over (fun _ _ => True) input.fields input.key) :
    Grounds t N fun _ _ _ => True where
  sound := spans.root_eq ▸ sound.fields
  numbers := spans.root_eq ▸ numbers
  keyed := spans.key_eq ▸ spans.root_eq ▸ sound.key
  owns _ _ _ _ := trivial
  mono _ _ _ _ := trivial
  generated _ _ := trivial

theorem root_steady (sound : InputSound input) {t : Target}
    (spans : t.tree.Over (fun _ _ => True) input.fields input.key)
    (level : e.level? (Names.of input.fields) = some .scalar) : Steady (t.compileRoot e) fun _ => True := by
  have steady : Steady (t.compileRoot e) fun x => x.Neat t.dialect (fun _ => True) fun _ _ => True :=
    (grounds sound .any spans).root (spans.root_eq ▸ level) ⟨fun _ _ => trivial, fun _ _ => trivial⟩
  exact steady.weaken fun _ _ => trivial

theorem Steady.comes {α : Type} {Q : α → Prop} {action : CompileM α} (steady : Steady action Q) {a : α}
    (run : Gives action c a c') : c' = c ∧ Comes action a :=
  ⟨(steady c a c' run).1, (steady c a c' run).2.2⟩

theorem steady_mapM {α β : Type} {f : α → CompileM β} {items : List α} {results : List β}
    (each : ∀ a ∈ items, Steady (f a) fun _ => True) (run : Gives (items.mapM f) c results c') :
    c' = c ∧ List.Forall₂ (fun a b => Comes (f a) b) items results :=
  gives_mapM_each (P := (· = c)) run rfl fun a mem s b s' holds step => by
    obtain ⟨same, comes⟩ := (each a mem).comes step
    exact ⟨same.trans holds, comes⟩

section Rows

variable {F : Family} {p : Planner} {input : Input} {tree : JoinTree} {ctes : List Sql.Cte}

theorem sourceRelation_yields
    (plan : ∀ inner, s.origin = .query inner → ∀ ctes, Yields F p.dialect ctes (p.plan inner)
      fun ctes' query => Emitted F p.dialect ctes' query ∧
        query.outputs = inner.outputSchema.map ResultField.name) :
    Yields F p.dialect ctes (sourceRelation p s sample) fun ctes' relation => Served ctes' s relation := by
  unfold sourceRelation
  cases origin : s.origin with
  | table path connection =>
    cases sample with
    | none => exact .pure fun _ _ => .table origin
    | some sampling =>
      dsimp only
      split
      · exact .pure fun _ _ => .text (by rw [origin]; exact nofun)
      · exact .fault
  | query inner =>
    cases sample with
    | none =>
      refine .bind (plan inner origin ctes) fun query ctes' _ ⟨emitted, outputs⟩ => ?_
      refine .bind (.define (fun _ le => emitted.mono le) (by decide)) fun name ctes'' _ mem => ?_
      exact .pure fun _ le => .query origin (le mem) outputs
    | some sampling => exact .fault
  | sql block =>
    cases sample with
    | none => exact .pure fun _ _ => .text (by rw [origin]; exact nofun)
    | some sampling => exact .fault

section

variable (sound : InputSound input) (spans : tree.Over (fun _ _ => True) input.fields input.key)

include sound spans

theorem planJoin_yields
    (serves : Serves F p input.fields) (good : Good F p.dialect s)
    (run : Gives (planJoin p ⟨p.dialect, tree⟩ path) (c, s) join (c', s')) :
    c' = c ∧ Good F p.dialect s' ∧ s.ctes <+: s'.ctes ∧ ∃ j relation conditions,
      JoinAt s'.ctes ⟨p.dialect, tree⟩ c.keyed path join j relation conditions := by
  obtain ⟨j, conditions, relation, found, compiled, read, is⟩ := planJoin_inv run
  have steady := (grounds sound .any spans).joinConditions_steady found
    (fun _ _ _ _ => trivial) fun _ _ _ _ => trivial
  obtain ⟨rfl, comes⟩ := steady.comes compiled
  obtain ⟨place, name, parent, split, within, here⟩ := joinFrom_inv found
  have relations : Yields F p.dialect [] (sourceRelation p j.source none) fun ctes' relation =>
      Served ctes' j.source relation :=
    sourceRelation_yields fun inner origin ctes => serves (spans.root_eq ▸ within) here origin
  obtain ⟨good, grown, served⟩ := relations _ _ _ (nil_subset _) good read
  exact ⟨rfl, good, grown, j, relation, conditions, found, served, comes, is⟩

theorem planFrame_yields
    (serves : Serves F p input.fields) (good : Good F p.dialect s)
    (run : Gives (planFrame p ⟨p.dialect, tree⟩ input conditions) (c, s) frame (c', s')) :
    c' = c ∧ Good F p.dialect s' ∧ s.ctes <+: s'.ctes ∧
      FrameOf s'.ctes ⟨p.dialect, tree⟩ input conditions c.keyed frame := by
  obtain ⟨filters, mid, joins, first, second, rfl⟩ := planFrame_inv run
  obtain ⟨same, rows⟩ := gives_mapM_each
    first rfl
    fun e mem ⟨c₁, s₁⟩ x ⟨c₂, s₂⟩ holds step => by
      obtain ⟨compiled, rfl⟩ := gives_compiling.mp step
      obtain ⟨rfl, comes⟩ := (root_steady sound spans (sound.filters e mem)).comes compiled
      exact ⟨holds, comes⟩
  cases same
  obtain ⟨⟨rfl, good⟩, grown, joins⟩ := gives_mapM
    (P := fun s : Compilation × Progress => s.1 = c ∧ Good F p.dialect s.2)
    (R := fun s s' => s.2.ctes <+: s'.2.ctes)
    (Q := fun path join s => ∃ j relation conditions,
      JoinAt s.2.ctes ⟨p.dialect, tree⟩ c.keyed path join j relation conditions)
    (fun _ => prefix_rfl) List.IsPrefix.trans
    (fun grown ⟨j, relation, conditions, at'⟩ =>
      ⟨j, relation, conditions, { at' with served := at'.served.mono grown.subset }⟩)
    second ⟨rfl, good⟩ fun path mem ⟨c₁, s₁⟩ join ⟨c₂, s₂⟩ ⟨same, good⟩ step => by
      cases same
      obtain ⟨same, good, grown, at'⟩ := planJoin_yields sound spans serves good step
      exact ⟨⟨same, good⟩, grown, at'⟩
  exact ⟨rfl, good, grown, rfl, joins, filters, rows, rfl⟩

theorem levelParts_of
    (levels : LevelSound (Names.of input.fields) parents inherited level)
    (run : Gives (levelParts ⟨p.dialect, tree⟩ parents (inherited ++ level.filters) level) .empty parts c) :
    PartsOf ⟨p.dialect, tree⟩ parents (inherited ++ level.filters) level parts c := by
  have steady {e : Expr} (scalar : e.level? (Names.of input.fields) = some .scalar) :
      Steady (Target.compileRoot ⟨p.dialect, tree⟩ e) fun _ => True := root_steady sound spans scalar
  rw [levelParts_eq] at run
  obtain ⟨keys, _, first, rest⟩ := gives_bind.mp run
  obtain ⟨rfl, keys_come⟩ := steady_mapM (fun e mem => steady (levels.parents e mem)) first
  obtain ⟨dimensions, _, second, rest⟩ := gives_bind.mp rest
  obtain ⟨rfl, dimensions_come⟩ := gives_mapM_each
    (Q := fun (f : ExprField) (x : String × Sql.Expr) => x.1 = f.name ∧
      Comes (Target.compileRoot ⟨p.dialect, tree⟩ f.expr) x.2) second rfl fun f mem c x c' holds step => by
      obtain ⟨value, _, compiled, step⟩ := gives_bind.mp step
      obtain ⟨rfl, rfl⟩ := gives_pure.mp step
      obtain ⟨rfl, comes⟩ := (steady (levels.dimensions f mem)).comes compiled
      exact ⟨holds, rfl, comes⟩
  rw [gives_modify_bind] at rest
  obtain ⟨items, mid, third, rest⟩ := gives_bind.mp rest
  obtain ⟨having, after, fourth, rest⟩ := gives_bind.mp rest
  obtain ⟨conditions, _, fifth, rest⟩ := gives_bind.mp rest
  obtain ⟨rfl, rfl⟩ := gives_pure.mp rest
  obtain ⟨rfl, conditions_come⟩ := steady_mapM (fun e mem => steady
    ((mem_append.mp mem).elim (levels.inherited e) (levels.filters e))) fifth
  exact ⟨keys_come, dimensions_come, ⟨mid, third, fourth⟩, conditions_come⟩

end

theorem planUngroup_yields (emitted : ∀ ctes', ctes ⊆ ctes' → Emitted F p.dialect ctes' (ungroupQuery frame u)) :
    Yields F p.dialect ctes (planUngroup frame u) fun ctes' join =>
      ∃ name, ⟨name, ungroupQuery frame u⟩ ∈ ctes' ∧ join = ungroupJoin name u := by
  refine .bind (.define emitted (by decide)) fun name ctes' _ mem => ?_
  exact .pure fun ctes'' le => ⟨name, le mem, rfl⟩

def IsRows (F : Family) (d : Dialect) (ctes : List Sql.Cte) (input : Input) (parents inherited : List Expr)
    (level : Level) (query : Sql.Query) : Prop :=
  ∃ tree parts c frame ungroups, RowsOf F d ctes input parents inherited level tree parts c frame ∧
    List.Forall₂ (fun u join => ∃ name, ⟨name, ungroupQuery frame u⟩ ∈ ctes ∧ join = ungroupJoin name u)
      c.ungroups ungroups ∧ query = rowsQuery level parts frame ungroups

theorem planRows_yields (known : Known F ctes input) (serves : Serves F p input.fields)
    (levels : ∀ exprs tree, parents ⊆ exprs → treeFor input exprs = .ok tree →
      LevelSound (Names.of input.fields) parents inherited level)
    (stage : ∃ stage, F.stage stage ∧ levelOf? stage = some level)
    (numbers : ∀ e ∈ level.exprs parents inherited, e.Numbers F.number) :
    Yields F p.dialect ctes (planRows p input parents inherited level) fun ctes' query =>
      IsRows F p.dialect ctes' input parents inherited level query := by
  intro s query s' le good run
  obtain ⟨tree, parts, c, c', frame, mid, ungroups, isTree, compiled, framed, widening, rfl⟩ := planRows_inv run
  have sound := known.sound
  have levels := levels _ tree (fun e mem => by simp [Level.exprs, mem]) isTree
  have spans : tree.Over (fun _ _ => True) input.fields input.key := treeFor_over sound (fun _ => levels.read) isTree
  obtain ⟨rfl, good, grown, shared⟩ := planFrame_yields sound spans serves good framed
  have rows : RowsOf F p.dialect mid.ctes input parents inherited level tree parts c' frame :=
    ⟨known.mono fun c mem => grown.subset (le mem), stage, levels, numbers, isTree,
      levelParts_of sound spans levels compiled, shared⟩
  have widens : Yields F p.dialect mid.ctes (c'.ungroups.mapM (planUngroup frame)) fun ctes' joins =>
      List.Forall₂ (fun u join => ∃ name, ⟨name, ungroupQuery frame u⟩ ∈ ctes' ∧ join = ungroupJoin name u)
        c'.ungroups joins := by
    refine .mapM (fun le joined => ?_) fun u mem => planUngroup_yields fun ctes' le => .ungroup (rows.mono le) mem
    obtain ⟨name, mem, is⟩ := joined
    exact ⟨name, le mem, is⟩
  obtain ⟨good, grown', widened⟩ := widens _ _ _ (fun _ mem => mem) good widening
  exact ⟨good, grown.trans grown', tree, parts, c', frame, ungroups, rows.mono grown'.subset, widened, rfl⟩

theorem named_outputs {α : Type} (expr : α → Sql.Expr) (name : α → String) (items : List α) :
    (items.map fun a => Sql.SelectItem.named (expr a) (name a)).filterMap Sql.SelectItem.output? =
      items.map name := by
  induction items with
  | nil => rfl
  | cons a rest ih => simpa [Sql.SelectItem.named, Sql.SelectItem.output?] using ih

theorem parentItems_outputs (keys : List Sql.Expr) :
    (parentItems keys).filterMap Sql.SelectItem.output? = parentKeys keys.length := by
  show (keys.zipIdx.map fun x => Sql.SelectItem.named x.1 (parentKey x.2)).filterMap _ = _
  rw [named_outputs, parentKeys, range_eq_range', ← zipIdx_map_snd 0 keys, map_map]
  rfl

theorem levelItems_named (run : Gives (levelItems t dimensions level) c items c') :
    items.map Sql.SelectItem.output? = level.columns.map fun column => some column.1.name := by
  obtain ⟨_, named⟩ := gives_mapM_each
    (Q := fun (column : ExprField × Bool) item => some column.1.name = item.output?) run trivial
    fun column mem c item c' _ step => by
      obtain ⟨x, rfl, _⟩ := levelItem_inv step
      exact ⟨trivial, rfl⟩
  rw [eq_comm, ← forall₂_eq_eq_eq, forall₂_map_left_iff, forall₂_map_right_iff]
  exact named

theorem levelItems_outputs (run : Gives (levelItems t dimensions level) c items c') :
    items.filterMap Sql.SelectItem.output? = level.columns.map fun column => column.1.name := by
  have named := congrArg (List.filterMap id) (levelItems_named run)
  rw [filterMap_map] at named
  exact named.trans (by simp)

theorem IsRows.outputs (rows : IsRows F d ctes input parents inherited level query) :
    query.outputs = parentKeys parents.length ++ level.columns.map fun column => column.1.name := by
  obtain ⟨tree, parts, c, frame, ungroups, rows, _, rfl⟩ := rows
  obtain ⟨mid, items, _⟩ := rows.compiled.columns
  show (parentItems parts.keys ++ parts.items).filterMap _ = _
  rw [filterMap_append, parentItems_outputs, levelItems_outputs items, rows.compiled.keys.length_eq]

theorem indexText_steady (d : Dialect) (type : AtomicType) (column : Sql.Expr) :
    Steady (indexText d type column) fun _ => True := by
  unfold indexText
  split
  · exact .ofDialect fun _ _ => trivial
  · exact .bind (.ofDialect fun _ _ => trivial) fun _ _ =>
      .bind (.ofDialect fun _ _ => trivial) fun _ _ => .pure trivial

def IsIndex (F : Family) (d : Dialect) (ctes : List Sql.Cte) (query : Sql.Query) : Prop :=
  ∃ input weight filters field tree column weighed text conditions c frame,
    IndexOf F d ctes input weight filters field tree column weighed text conditions c frame ∧
      query = indexQuery field column weighed text frame

theorem planIndexField_yields (known : Known F ctes input) (serves : Serves F p input.fields)
    (stage : ∃ fields weights r, F.stage (.index fields weights r) ∧ field ∈ fields ∧
      weight = weights.getD standardWeight ∧ filters = r.filters.map Filter.expr)
    (dimension : (Names.of input.fields).level field.path = some .scalar)
    (weighs : weight.level? (Names.of input.fields) = some .aggregate)
    (rows : ∀ e ∈ filters, e.level? (Names.of input.fields) = some .scalar) :
    Yields F p.dialect ctes (planIndexField p input weight filters field) fun ctes' query =>
      IsIndex F p.dialect ctes' query := by
  have sound := known.sound
  have scalar : (Expr.field field.path).level? (Names.of input.fields) = some .scalar := by
    exact dimension
  intro s query s' le good run
  obtain ⟨tree, column, weighed, conditions, text, _, c, _, _, _, frame, isTree, first, second, third, fourth, framed,
    is⟩ := planIndexField_inv run
  have spans : tree.Over (fun _ _ => True) input.fields input.key := by
    refine treeFor_over sound (fun e mem => ?_) isTree
    simp only [mem_cons] at mem
    rcases mem with rfl | rfl | mem
    · exact ⟨_, scalar⟩
    · exact ⟨_, weighs⟩
    · exact ⟨_, rows e mem⟩
  have steady {e : Expr} (level : e.level? (Names.of input.fields) = some .scalar) :
      Steady (Target.compileRoot ⟨p.dialect, tree⟩ e) fun _ => True := root_steady sound spans level
  obtain ⟨rfl, value⟩ := (steady scalar).comes first
  obtain ⟨rfl, restricted⟩ := steady_mapM (fun e mem => steady (rows e mem)) third
  obtain ⟨rfl, spelled⟩ := (indexText_steady _ _ _).comes fourth
  obtain ⟨rfl, good, grown, shared⟩ := planFrame_yields sound spans serves good framed
  have known : Known F s'.ctes input := known.mono fun c mem => grown.subset (le mem)
  exact ⟨good, grown, input, weight, filters, field, tree, column, weighed, text, conditions, _, frame,
    ⟨known, stage, dimension, weighs, rows, isTree, value, second, restricted, spelled, shared⟩, is⟩

theorem IsIndex.outputs (index : IsIndex F d ctes query) :
    query.unions = [] ∧ query.items.filterMap Sql.SelectItem.output? = indexSchema.map ResultField.name := by
  obtain ⟨_, _, _, _, _, _, _, _, _, _, _, _, rfl⟩ := index
  exact ⟨rfl, rfl⟩

theorem planIndex_yields (known : Known F ctes input) (serves : Serves F p input.fields)
    (stage : F.stage (.index fields weight r)) (sound : StageSound (Names.of input.fields) (.index fields weight r)) :
    Yields F p.dialect ctes (planIndex p input fields weight r) fun ctes' query =>
      Emitted F p.dialect ctes' query ∧ query.outputs = indexSchema.map ResultField.name := by
  cases sound with
  | index nonempty dimensions weights rows =>
    unfold planIndex
    rw [if_neg (by simpa using nonempty)]
    have stable {ctes ctes' : List Sql.Cte} {query : Sql.Query} (le : ctes ⊆ ctes')
        (index : IsIndex F p.dialect ctes query) : IsIndex F p.dialect ctes' query := by
      obtain ⟨input, weight, filters, field, tree, column, weighed, text, conditions, c, frame, index, is⟩ := index
      exact ⟨input, weight, filters, field, tree, column, weighed, text, conditions, c, frame,
        { index with known := index.known.mono le, shared := index.shared.mono le }, is⟩
    refine .bind (.mapM (S := fun ctes' _ query => IsIndex F p.dialect ctes' query)
      (fun le index => stable le index) fun field mem => ?_) fun parts ctes' _ all => ?_
    · refine planIndexField_yields known serves ⟨fields, weight, r, stage, mem, rfl, rfl⟩ (dimensions field mem) ?_
        fun e isFilter => ?_
      · cases weight with
        | none => rfl
        | some e => exact weights e rfl
      · obtain ⟨filter, given, rfl⟩ := mem_map.mp isFilter
        exact rows filter given
    · have each : ∀ part ∈ parts, IsIndex F p.dialect ctes' part := by
        intro part mem
        obtain ⟨_, _, index⟩ := exists_of_forall₂ all mem
        exact index
      have some : parts ≠ [] := by
        rintro rfl
        exact nonempty (forall₂_nil_right_iff.mp all)
      have union : Emitted F p.dialect ctes' { Sql.Query.empty with unions := parts } := by
        refine .indexUnion some (fun part mem => (each part mem).outputs) fun part mem => ?_
        obtain ⟨_, _, _, _, _, _, _, _, _, _, _, index, rfl⟩ := each part mem
        exact .indexField index
      have outputs : Sql.Query.outputs { Sql.Query.empty with unions := parts } =
          indexSchema.map ResultField.name := by
        cases parts with
        | nil => exact (some rfl).elim
        | cons first rest => exact (each first mem_cons_self).outputs.2
      refine .bind (.define (fun _ le => union.mono le) (by decide)) fun name ctes'' _ mem => ?_
      exact .pure fun _ le => ⟨.index (le mem) outputs r.limit, rfl⟩

end Rows

end SemanticLayer.Plan
