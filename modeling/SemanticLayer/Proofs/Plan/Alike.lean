import SemanticLayer.Plan.Query
import SemanticLayer.Proofs.Model.Respelling
import SemanticLayer.Proofs.Plan.Rows
import SemanticLayer.Proofs.Sql.Alike

/-!
Planning the same stages in other words. If the expressions of a stage compile alike over two inputs, so that the
labels of tables are all that differs, the two statements differ in nothing else. What stands behind the stage
reads its output columns, and is planned as before.
-/
namespace SemanticLayer

open List

/-- The expressions of a stage that are read in its input: its own, and those of the first stages of its nests. -/
inductive Stage.ReadsInput : Stage → Expr → Prop where
  | own {stage : Stage} {e : Expr} (mem : e ∈ stage.exprs) : ReadsInput stage e
  | nest {stage first : Stage} {n : Nest} {rest : List Stage} {e : Expr} (mem : n ∈ stage.nests)
      (starts : n.stages = first :: rest) (reads : ReadsInput first e) : ReadsInput stage e

namespace Plan

/-- Another wording: how labels may be spelled, how paths are put, and which expressions are put so. -/
structure Wording where
  spelling : Sql.Spelling
  paths : List String → List String
  Has : Expr → Prop

def Wording.same : Wording := ⟨.same, id, fun _ => True⟩

structure Progress.Alike (ρ : Sql.Spelling) (s s' : Progress) : Prop where
  ctes : List.Forall₂ (Sql.Cte.Alike ρ) s.ctes s'.ctes
  counter : s'.counter = s.counter

def Planner.PlansAlike (ρ : Sql.Spelling) (p : Planner) : Prop :=
  ∀ q, Lockstep (Progress.Alike ρ) (Sql.Query.Alike ρ) (p.plan q) (p.plan q)

structure Ungroup.Alike (ρ : Sql.Spelling) (u u' : Ungroup) : Prop where
  label : u'.label = u.label
  kept : ρ.labels u.label u.label
  partition : List.Forall₂ (Sql.Expr.Alike ρ.labels) u.partition u'.partition
  value : u.value.Alike ρ.labels u'.value

structure Frame.Alike (ρ : Sql.Spelling) (f f' : Frame) : Prop where
  source : f.source.Alike ρ f'.source
  joins : List.Forall₂ (Sql.Join.Alike ρ) f.joins f'.joins
  condition : Option.Rel (Sql.Expr.Alike ρ.labels) f.condition f'.condition

def NamedAlike (ρ : Sql.Spelling) (x y : String × Sql.Expr) : Prop := y.1 = x.1 ∧ x.2.Alike ρ.labels y.2

namespace Wording

structure Joins (w : Wording) (C : Compilation → Compilation → Prop) (t t' : Target) (path path' : List String) : Prop where
  join : t'.tree.join path' = t.tree.join path
  label : w.spelling.labels (aliasOf path) (aliasOf path')
  keyed : ∀ {c c'}, C c c' → c'.keyed.contains path' = c.keyed.contains path
  conditions : ∀ {j}, t.tree.join path = .ok j →
    Lockstep C (List.Forall₂ (Sql.Expr.Alike w.spelling.labels)) (joinConditions t path j) (joinConditions t' path' j)

structure Targets (w : Wording) (C : Compilation → Compilation → Prop) (t t' : Target) : Prop where
  start : C .empty .empty
  root : ∀ {e}, w.Has e →
    Lockstep C (Sql.Expr.Alike w.spelling.labels) (t.compileRoot e) (t'.compileRoot (e.mapPaths w.paths))
  joins : List.Forall₂ (w.Joins C t t') t.tree.ordered t'.tree.ordered
  base : w.spelling.labels baseAlias baseAlias
  keyed : ∀ {c c'}, C c c' → c'.keyed.contains [] = c.keyed.contains []
  framed : ∀ {c c' dimensions dimensions' keys keys'}, C c c' →
    List.Forall₂ (NamedAlike w.spelling) dimensions dimensions' →
    List.Forall₂ (Sql.Expr.Alike w.spelling.labels) keys keys' →
    C { c with frame := some ⟨dimensions, keys⟩ } { c' with frame := some ⟨dimensions', keys'⟩ }
  ungroups : ∀ {c c'}, C c c' → List.Forall₂ (Ungroup.Alike w.spelling) c.ungroups c'.ungroups

/-- Inputs of which the second is read in the other wording. -/
structure Inputs (w : Wording) (d : Dialect) (input input' : Input) : Prop where
  relation : input'.relation = input.relation
  filters : input'.filters = input.filters.map (Expr.mapPaths w.paths)
  has : ∀ e ∈ input.filters, w.Has e
  root : w.paths [] = []
  indexed : ∀ path, w.spelling.fields (dotted path) (dotted (w.paths path))
  trees : ∀ {exprs : List Expr}, (∀ e ∈ exprs, w.Has e) →
    Agree (fun tree tree' => ∃ C, w.Targets C ⟨d, tree⟩ ⟨d, tree'⟩) (treeFor input exprs)
      (treeFor input' (exprs.map (Expr.mapPaths w.paths)))

structure Encloses (w : Wording) (d : Dialect) (e e' : Enclosure) : Prop where
  input : w.Inputs d e.input e'.input
  parents : e'.parents = e.parents.map (Expr.mapPaths w.paths)
  inherited : e'.inherited = e.inherited.map (Expr.mapPaths w.paths)
  has : e.All w.Has

/-- A wording in which tables are labelled in some way, or as before. -/
def Belongs (w : Wording) (ρ : Sql.Spelling) : Prop := w.spelling = ρ ∨ w.spelling = .same

def HasFirst (w : Wording) (stages : List Stage) : Prop := ∀ first ∈ stages.head?, ∀ x, first.ReadsInput x → w.Has x

section Stages

variable {w : Wording} {stage : Stage}

theorem hasFirst_nest (has : ∀ x, stage.ReadsInput x → w.Has x) (mem : n ∈ stage.nests) : w.HasFirst n.stages := by
  intro first isFirst x reads
  obtain ⟨rest, starts⟩ := List.head?_eq_some_iff.mp isFirst
  exact has x (.nest mem starts reads)

theorem hasLevel (stage : Stage) (is : levelOf? stage = some level) (has : ∀ x, stage.ReadsInput x → w.Has x) :
    level.All w.Has := .of_stage is fun e mem => has e (.own mem)

end Stages

theorem targets_self (t : Target) : same.Targets Eq t t where
  start := rfl
  root _ := by
    rw [show same.paths = id from rfl, Expr.mapPaths_id]
    refine (Lockstep.self _).imp fun a b is => ?_
    subst is
    exact Sql.Expr.alike_eq.mpr rfl
  joins := forall₂_same.mpr fun path _ => {
    join := rfl
    label := rfl
    keyed := fun is => by rw [is]
    conditions := fun _ => (Lockstep.self _).imp fun a b is => by
      subst is
      exact forall₂_same.mpr fun e _ => Sql.Expr.alike_eq.mpr rfl }
  base := rfl
  keyed is := by rw [is]
  framed is dimensions keys := by
    have sameDimensions : List.Forall₂ Eq _ _ := dimensions.imp fun x y alike => Prod.ext alike.1.symm (Sql.Expr.alike_eq.mp alike.2).symm
    rw [forall₂_eq_eq_eq] at sameDimensions
    rw [is, sameDimensions, Sql.alikeList_eq.mp (Sql.alikeList_iff.mpr keys)]
  ungroups is := by
    subst is
    exact forall₂_same.mpr fun u _ => ⟨rfl, rfl, forall₂_same.mpr fun e _ => Sql.Expr.alike_eq.mpr rfl,
      Sql.Expr.alike_eq.mpr rfl⟩

theorem inputs_self (d : Dialect) (input : Input) : same.Inputs d input input where
  relation := rfl
  filters := by rw [show Expr.mapPaths same.paths = id from funext Expr.mapPaths_id, map_id]
  has _ _ := trivial
  root := rfl
  indexed _ := rfl
  trees _ := by
    rw [show Expr.mapPaths same.paths = id from funext Expr.mapPaths_id, map_id]
    exact .refl (fun tree => ⟨Eq, targets_self ⟨d, tree⟩⟩) _

theorem Encloses.self (d : Dialect) (e : Enclosure) : same.Encloses d e e where
  input := inputs_self d e.input
  parents := by rw [show Expr.mapPaths same.paths = id from funext Expr.mapPaths_id, map_id]
  inherited := by rw [show Expr.mapPaths same.paths = id from funext Expr.mapPaths_id, map_id]
  has := ⟨fun _ _ => trivial, fun _ _ => trivial⟩

end Wording

section Clauses

variable {ρ : Sql.Spelling}

variable {labels : String → String → Prop}

instance : Sql.Expr.Congruent .duckdb (Sql.Expr.Alike labels) where
  held alike := alike.parenthesized
  raw _ := by simp [Sql.Expr.Alike]
  literal _ := by simp [Sql.Expr.Alike]
  call alike _ := by simp [Sql.Expr.Alike, Sql.alikeList_iff, alike]
  cast alike := by simp [Sql.Expr.Alike, alike]
  unary _ alike := by simp [Sql.Expr.Alike, alike]
  binary _ first second := by simp [Sql.Expr.Alike, first, second]
  isNull _ alike := by simp [Sql.Expr.Alike, alike]
  isIn _ alike values := by simp [Sql.Expr.Alike, Sql.alikeList_iff, alike, values]
  choose arms last := by simp [Sql.Expr.Alike, Sql.alikeOption_iff, Sql.alikeArms_iff, arms, last]
  sequence _ alike := by simp [Sql.Expr.Alike, Sql.alikeList_iff, alike]

theorem getD_alike (alike : Option.Rel (Sql.Expr.Alike labels) x y) (otherwise : e.Alike labels e) :
    (x.getD e).Alike labels (y.getD e) := by
  cases alike with
  | none => exact otherwise
  | some alike => exact alike

theorem parentItems_alike (alike : List.Forall₂ (Sql.Expr.Alike ρ.labels) es es') :
    List.Forall₂ (Sql.SelectItem.Alike ρ) (parentItems es) (parentItems es') := by
  unfold parentItems
  generalize 0 = i
  induction alike generalizing i with
  | nil => exact .nil
  | cons first _ ih => exact .cons ⟨rfl, .inl first⟩ (ih (i + 1))

theorem matched_alike (kept : ρ.labels label label) (alike : List.Forall₂ (Sql.Expr.Alike ρ.labels) es es') :
    List.Forall₂ (Sql.Expr.Alike ρ.labels)
      (es.zipIdx.map fun (key, i) => Sql.Expr.nullSafeEq key (.ofTable label (parentKey i)))
      (es'.zipIdx.map fun (key, i) => Sql.Expr.nullSafeEq key (.ofTable label (parentKey i))) := by
  generalize 0 = i
  induction alike generalizing i with
  | nil => exact .nil
  | cons first _ ih =>
    refine .cons ?_ (ih (i + 1))
    simp [Sql.Expr.Alike, Sql.Expr.ofTable, first, kept]

theorem aliased_alike (relation : Sql.Relation) (contains : keyed'.contains path' = keyed.contains path)
    (label : ρ.labels (aliasOf path) (aliasOf path')) :
    (aliased keyed path relation).Alike ρ (aliased keyed' path' relation) where
  relation := by unfold aliased; rw [contains]
  label := .some label

theorem Frame.Alike.query {f : Frame} (frames : f.Alike ρ f')
    (alike : List.Forall₂ (Sql.SelectItem.Alike ρ) items items') :
    (f.query items).AlikeSelect ρ (f'.query items') where
  items := alike
  source := .some frames.source
  joins := frames.joins
  condition := frames.condition
  groupBy := .nil
  having := .none
  orderBy := rfl
  limit := rfl

end Clauses

section Rows

variable {ρ : Sql.Spelling} {w : Wording} {p : Planner}

theorem define_lockstep (stem : String) (alike : q.Alike ρ q') :
    Lockstep (Progress.Alike ρ) Eq (define stem q) (define stem q') := by
  rintro ⟨ctes, n⟩ ⟨ctes', _⟩ ⟨before, rfl⟩
  exact .ok ⟨rfl, rel_append before (.cons (.mk rfl alike) .nil), rfl⟩

variable (inner : p.PlansAlike ρ)

include inner

theorem sourceRelation_lockstep (source : Source) (sample : Option Sampling) :
    Lockstep (Progress.Alike ρ) Eq (sourceRelation p source sample) (sourceRelation p source sample) := by
  unfold sourceRelation
  split
  · exact .pure rfl
  · split
    · exact .pure rfl
    · exact .fault
  · exact (inner _).bind fun q q' alike => (define_lockstep "source" alike).bind fun _ _ same => .pure (same ▸ rfl)
  · exact .pure rfl
  · exact .fault

variable {C : Compilation → Compilation → Prop} {t t' : Target}

theorem planJoin_lockstep (pair : w.Joins C t t' path path') :
    Lockstep (Pairs C (Progress.Alike ρ)) (Sql.Join.Alike w.spelling) (planJoin p t path) (planJoin p t' path') := by
  have found : Agree (fun j j' => j' = j ∧ t.tree.join path = .ok j) (t.tree.join path) (t'.tree.join path') := by
    rw [pair.join]
    cases t.tree.join path with
    | ok j => exact .ok ⟨rfl, rfl⟩
    | error _ => exact .error
  refine .bind (.compiling (.ofExcept found)) fun j j' is => ?_
  obtain ⟨rfl, is⟩ := is
  refine .bind (.compiling (pair.conditions is)) fun conditions conditions' alike => ?_
  refine .bind (.lift (sourceRelation_lockstep inner j'.source none)) fun relation relation' same => ?_
  subst same
  refine .bind .compilation fun c c' states => ?_
  have table := aliased_alike relation (pair.keyed states) pair.label
  have condition := Sql.Expr.related_allOf alike
  generalize allOf? conditions = condition, allOf? conditions' = condition' at *
  cases condition with
  | none => exact .pure ⟨rfl, table, .none⟩
  | some condition => exact .pure ⟨rfl, table, .some condition⟩

theorem planFrame_lockstep (targets : w.Targets C t t') (inputs : w.Inputs d input input')
    (alike : List.Forall₂ (Sql.Expr.Alike w.spelling.labels) conditions conditions') :
    Lockstep (Pairs C (Progress.Alike ρ)) (Frame.Alike w.spelling) (planFrame p t input conditions)
      (planFrame p t' input' conditions') := by
  unfold planFrame
  rw [inputs.relation, inputs.filters]
  refine .bind (.mapM_map fun e mem => .compiling (targets.root (inputs.has e mem))) fun filters filters' rows => ?_
  refine .bind (.mapM targets.joins fun _ _ pair => planJoin_lockstep inner pair) fun joins joins' paired => ?_
  refine .bind .compilation fun c c' states => ?_
  exact .pure ⟨aliased_alike _ (targets.keyed states) targets.base, paired, Sql.Expr.related_allOf (rel_append rows alike)⟩

end Rows

def Level.mapPaths (f : List String → List String) (level : Level) : Level :=
  { level with
    fields := mapOutputs f level.fields, filters := level.filters.map (Expr.mapPaths f)
    having := level.having.map (Expr.mapPaths f) }

section Levels

variable {f : List String → List String}

theorem Level.ofReduce_mapPaths (fields : List OutputField) (having : List Filter) (orderBy : List OrderBy)
    (r : Restriction) : Level.ofReduce (mapOutputs f fields) (having.map (Filter.mapPaths f)) orderBy (r.mapPaths f) =
      (Level.ofReduce fields having orderBy r).mapPaths f := by
  simp only [Level.ofReduce, Level.mapPaths, Restriction.mapPaths, map_map]
  rfl

theorem Level.ofProject_mapPaths (fields : List OutputField) (orderBy : List OrderBy) (r : Restriction) :
    Level.ofProject (mapOutputs f fields) orderBy (r.mapPaths f) = (Level.ofProject fields orderBy r).mapPaths f := by
  simp only [Level.ofProject, Level.mapPaths, Restriction.mapPaths, map_map]
  rfl

theorem Level.columns_mapPaths (level : Level) :
    (level.mapPaths f).columns = level.columns.map fun column => (column.1.mapPaths f, column.2) := by
  simp only [Level.columns, Level.mapPaths, mapOutputs_eq, filterMap_map, map_filterMap]
  refine filterMap_congr fun field _ => ?_
  cases field <;> rfl

theorem Level.dimensions_mapPaths (level : Level) :
    (level.mapPaths f).dimensions = level.dimensions.map (ExprField.mapPaths f) := by
  simp only [Level.dimensions, Level.mapPaths, mapOutputs_eq, filterMap_map, map_filterMap]
  refine filterMap_congr fun field _ => ?_
  cases field <;> rfl

theorem Level.hasNests_mapPaths (level : Level) : (level.mapPaths f).hasNests = level.hasNests := by
  simp only [Level.hasNests, Level.mapPaths, mapOutputs_eq, any_map]
  refine congrArg level.fields.any (funext fun field => ?_)
  cases field <;> rfl

end Levels

structure LevelParts.Alike (ρ : Sql.Spelling) (x y : LevelParts) : Prop where
  keys : List.Forall₂ (Sql.Expr.Alike ρ.labels) x.keys y.keys
  dimensions : List.Forall₂ (NamedAlike ρ) x.dimensions y.dimensions
  items : List.Forall₂ (Sql.SelectItem.Alike ρ) x.items y.items
  having : List.Forall₂ (Sql.Expr.Alike ρ.labels) x.having y.having
  conditions : List.Forall₂ (Sql.Expr.Alike ρ.labels) x.conditions y.conditions

theorem lookup_alike (name : String) (alike : List.Forall₂ (NamedAlike ρ) xs ys) :
    Option.Rel (Sql.Expr.Alike ρ.labels) (xs.lookup name) (ys.lookup name) := by
  induction alike with
  | nil => exact .none
  | @cons x y xs ys first rest ih =>
    obtain ⟨key, e⟩ := x
    obtain ⟨same, here⟩ := first
    dsimp only at same here
    subst same
    rw [lookup_cons, lookup_cons]
    split
    · exact .some here
    · exact ih

section Planned

variable {ρ : Sql.Spelling} {w : Wording} {p : Planner} {C : Compilation → Compilation → Prop} {t t' : Target}

variable {level : Level}

theorem levelItems_lockstep (targets : w.Targets C t t') (has : ∀ c ∈ level.columns, w.Has c.1.expr)
    (named : List.Forall₂ (NamedAlike w.spelling) dimensions dimensions') :
    Lockstep C (List.Forall₂ (Sql.SelectItem.Alike w.spelling)) (levelItems t dimensions level)
      (levelItems t' dimensions' (level.mapPaths w.paths)) := by
  unfold levelItems
  rw [Level.columns_mapPaths]
  refine .mapM_map fun column mem => ?_
  obtain ⟨field, measure⟩ := column
  dsimp only
  cases measure with
  | true => exact .bind (targets.root (has _ mem)) fun _ _ alike => .pure ⟨rfl, .inl alike⟩
  | false =>
    have found := lookup_alike field.name named
    have name : (field.mapPaths w.paths).name = field.name := rfl
    rw [name]
    generalize dimensions.lookup field.name = x, dimensions'.lookup field.name = y at *
    cases found with
    | none => exact .throw
    | some alike => exact .pure ⟨rfl, .inl alike⟩

theorem levelParts_lockstep (targets : w.Targets C t t') (keys : ∀ e ∈ parents, w.Has e)
    (columns : ∀ c ∈ level.columns, w.Has c.1.expr) (rows : ∀ e ∈ filters, w.Has e)
    (groups : ∀ e ∈ level.having, w.Has e) :
    Lockstep C (LevelParts.Alike w.spelling) (levelParts t parents filters level)
      (levelParts t' (parents.map (Expr.mapPaths w.paths)) (filters.map (Expr.mapPaths w.paths)) (level.mapPaths w.paths)) := by
  rw [levelParts_eq, levelParts_eq, Level.dimensions_mapPaths]
  refine .bind (.mapM_map fun e mem => targets.root (keys e mem)) fun parents parents' alikeKeys => ?_
  refine .bind (R := List.Forall₂ (NamedAlike w.spelling)) (.mapM_map fun field mem => ?_) fun dimensions dimensions' named => ?_
  · exact .bind (targets.root (columns (field, false) (dimension_column.mp mem))) fun _ _ alike => .pure ⟨rfl, alike⟩
  refine .bind (.modify fun c c' states => ?_) fun _ _ _ => ?_
  · have grouped : (level.mapPaths w.paths).grouped = level.grouped := rfl
    rw [grouped]
    split
    · exact targets.framed states named alikeKeys
    · exact states
  refine .bind (levelItems_lockstep targets columns named) fun items items' alikeItems => ?_
  refine .bind (.mapM_map fun e mem => targets.root (groups e mem)) fun having having' alikeGroups => ?_
  refine .bind (.mapM_map fun e mem => targets.root (rows e mem)) fun conditions conditions' alikeRows => ?_
  exact .pure ⟨alikeKeys, named, alikeItems, alikeGroups, alikeRows⟩

variable (belongs : w.Belongs ρ)

include belongs

theorem alike_of_select {q : Sql.Query} (alike : q.AlikeSelect w.spelling q') (ctes : q.ctes = [])
    (ctes' : q'.ctes = []) (unions : q.unions = []) (unions' : q'.unions = []) : q.Alike ρ q' := by
  refine .mk ?_ (by rw [ctes, ctes']; exact .nil) (by rw [unions, unions']; exact .nil)
  rcases belongs with is | is
  · exact .inl (is ▸ alike)
  · exact .inr (is ▸ alike)

theorem planUngroup_lockstep {frame : Frame} (frames : frame.Alike w.spelling frame')
    (alike : u.Alike w.spelling u') :
    Lockstep (Progress.Alike ρ) (Sql.Join.Alike w.spelling) (planUngroup frame u) (planUngroup frame' u') := by
  have items := rel_append (parentItems_alike alike.partition)
    (.cons (⟨rfl, .inl alike.value⟩ : Sql.SelectItem.Alike w.spelling (.named u.value ungroupColumn)
      (.named u'.value ungroupColumn)) .nil)
  have query : Sql.Query.Alike ρ
      { frame.query (parentItems u.partition ++ [.named u.value ungroupColumn]) with groupBy := u.partition }
      { frame'.query (parentItems u'.partition ++ [.named u'.value ungroupColumn]) with groupBy := u'.partition } :=
    alike_of_select belongs { frames.query items with groupBy := alike.partition } rfl rfl rfl rfl
  refine .bind (define_lockstep "ungroup" query) fun name name' same => .pure ?_
  subst same
  have matched := Sql.Expr.related_allOf (matched_alike alike.kept alike.partition)
  refine ⟨rfl, ⟨rfl, ?_⟩, .some ?_⟩
  · rw [alike.label]
    exact .some alike.kept
  · rw [alike.label]
    exact getD_alike matched (by simp [Sql.Expr.Alike])

variable (inner : p.PlansAlike ρ) {input input' : Input}
  (inputs : w.Inputs p.dialect input input')

include inner inputs

theorem planRows_lockstep (keys : ∀ e ∈ parents, w.Has e) (outer : ∀ e ∈ inherited, w.Has e) (has : level.All w.Has) :
    Lockstep (Progress.Alike ρ) (Sql.Query.Alike ρ) (planRows p input parents inherited level)
      (planRows p input' (parents.map (Expr.mapPaths w.paths)) (inherited.map (Expr.mapPaths w.paths))
        (level.mapPaths w.paths)) := by
  have filters : ∀ e ∈ inherited ++ level.filters, w.Has e := forall_mem_append.mpr ⟨outer, has.rows⟩
  have mapped : parents.map (Expr.mapPaths w.paths) ++ (level.mapPaths w.paths).columns.map (fun c => c.1.expr) ++
      (inherited.map (Expr.mapPaths w.paths) ++ (level.mapPaths w.paths).filters) ++ (level.mapPaths w.paths).having =
        (level.exprs parents inherited).map (Expr.mapPaths w.paths) := by
    simp only [Level.exprs, map_append, map_map, Level.columns_mapPaths]
    rfl
  have mappedFilters : inherited.map (Expr.mapPaths w.paths) ++ (level.mapPaths w.paths).filters =
      (inherited ++ level.filters).map (Expr.mapPaths w.paths) := (map_append ..).symm
  refine .bind (.liftExcept (mapped ▸ inputs.trees (has.exprs keys outer))) fun tree tree' targets => ?_
  obtain ⟨C, targets⟩ := targets
  rw [mappedFilters]
  refine .bind (.run targets.start (R := fun x y => x.1.Alike w.spelling y.1 ∧ x.2.Alike w.spelling y.2) ?_)
    fun result result' related => ?_
  · refine .bind (.compiling (levelParts_lockstep targets keys has.columns filters has.groups)) fun parts parts' alike => ?_
    exact .bind (planFrame_lockstep inner targets inputs alike.conditions) fun frame frame' frames => .pure ⟨alike, frames⟩
  · obtain ⟨⟨parts, frame⟩, compilation⟩ := result
    obtain ⟨⟨alike, frames⟩, states⟩ := related
    refine .bind (.mapM (targets.ungroups states) fun u u' => planUngroup_lockstep belongs frames)
      fun ungroups ungroups' joined => .pure ?_
    have select := frames.query (rel_append (parentItems_alike alike.keys) alike.items)
    refine alike_of_select belongs { select with
      joins := rel_append frames.joins joined
      groupBy := ?_
      having := Sql.Expr.related_allOf alike.having } rfl rfl rfl rfl
    have grouped : (level.mapPaths w.paths).grouped = level.grouped := rfl
    rw [grouped]
    split
    · refine rel_append alike.keys ?_
      exact forall₂_map_left_iff.mpr (forall₂_map_right_iff.mpr (alike.dimensions.imp fun _ _ => And.right))
    · exact .nil

omit belongs inner inputs in
theorem indexText_lockstep (d : Dialect) (type : AtomicType) (alike : column.Alike w.spelling.labels column') :
    Lockstep C (Sql.Expr.Alike w.spelling.labels) (indexText d type column) (indexText d type column') := by
  have text {e e' : Sql.Expr} (alike : e.Alike w.spelling.labels e') :
      Lockstep C (Sql.Expr.Alike w.spelling.labels) (asText d e) (asText d e') := .ofDialect (Sql.Expr.related_cast d .string false alike)
  have bound (function : String) : (Sql.Expr.fn function [column]).Alike w.spelling.labels (.fn function [column']) := by
    simp [Sql.Expr.Alike, Sql.AlikeList, Sql.Expr.fn, alike]
  unfold indexText
  split
  · exact text alike
  · refine .bind (text (bound "MIN")) fun least least' low => .bind (text (bound "MAX")) fun greatest greatest' high => .pure ?_
    simp [Sql.Expr.Alike, Sql.AlikeList, Sql.Expr.fn, Sql.Expr.string, low, high]

theorem planIndexField_lockstep {field : IndexField} (value : w.Has (.field field.path)) (weighed : w.Has weight)
    (rows : ∀ e ∈ filters, w.Has e) :
    Lockstep (Progress.Alike ρ) (Sql.Query.Alike ρ) (planIndexField p input weight filters field)
      (planIndexField p input' (weight.mapPaths w.paths) (filters.map (Expr.mapPaths w.paths)) (field.mapPath w.paths)) := by
  have exprs : ∀ e ∈ Expr.field field.path :: weight :: filters, w.Has e :=
    forall_mem_cons.mpr ⟨value, forall_mem_cons.mpr ⟨weighed, rows⟩⟩
  refine .bind (.liftExcept (inputs.trees exprs)) fun tree tree' targets => ?_
  obtain ⟨C, targets⟩ := targets
  refine .bind (.run targets.start (R := fun x y => x.1.AlikeSelect w.spelling y.1 ∧ x.1.ctes = [] ∧ y.1.ctes = [] ∧
      x.1.unions = [] ∧ y.1.unions = [] ∧ x.2.Alike w.spelling.labels y.2) ?_) fun result result' related => ?_
  · refine .bind (R := fun x y => x.1.Alike w.spelling.labels y.1 ∧ List.Forall₂ (Sql.SelectItem.Alike w.spelling) x.2.1 y.2.1 ∧
        List.Forall₂ (Sql.Expr.Alike w.spelling.labels) x.2.2 y.2.2) (.compiling ?_) fun compiled compiled' alike => ?_
    · refine .bind (targets.root value) fun column column' alikeColumn => ?_
      refine .bind (targets.root weighed) fun weight weight' alikeWeight => ?_
      refine .bind (.mapM_map fun e mem => targets.root (rows e mem)) fun conditions conditions' alikeRows => ?_
      refine .bind (indexText_lockstep p.dialect field.type alikeColumn) fun text text' alikeText => .pure ?_
      refine ⟨alikeColumn, .cons ?_ (.cons ⟨rfl, .inl alikeText⟩ (.cons ⟨rfl, .inl alikeWeight⟩ .nil)), alikeRows⟩
      exact ⟨rfl, .inr ⟨rfl, _, _, inputs.indexed field.path, rfl, rfl⟩⟩
    · obtain ⟨column, items, conditions⟩ := compiled
      obtain ⟨column', items', conditions'⟩ := compiled'
      obtain ⟨alikeColumn, alikeItems, alikeRows⟩ := alike
      have present : List.Forall₂ (Sql.Expr.Alike w.spelling.labels)
          (if indexesValues field.type then [column.isNotNull] else [])
          (if indexesValues field.type then [column'.isNotNull] else []) := by
        split
        · exact .cons (by simp [Sql.Expr.Alike, Sql.Expr.isNotNull, alikeColumn]) .nil
        · exact .nil
      refine .bind (planFrame_lockstep inner targets inputs (rel_append alikeRows present))
        fun frame frame' frames => .pure ⟨frames.query alikeItems, rfl, rfl, rfl, rfl, alikeColumn⟩
  · obtain ⟨⟨query, column⟩, _⟩ := result
    obtain ⟨⟨select, ctes, ctes', unions, unions', alikeColumn⟩, _⟩ := related
    refine .pure ?_
    rw [show (field.mapPath w.paths).type = field.type from rfl]
    by_cases indexed : indexesValues field.type = true
    · rw [if_pos indexed, if_pos indexed]
      exact alike_of_select belongs { select with groupBy := .cons alikeColumn .nil } ctes ctes' unions unions'
    · rw [if_neg indexed, if_neg indexed]
      exact alike_of_select belongs select ctes ctes' unions unions'

theorem planIndex_lockstep (values : ∀ f ∈ fields, w.Has (.field f.path))
    (weighed : w.Has (weight.getD standardWeight)) (rows : ∀ e ∈ r.filters.map Filter.expr, w.Has e) :
    Lockstep (Progress.Alike ρ) (Sql.Query.Alike ρ) (planIndex p input fields weight r)
      (planIndex p input' (fields.map (IndexField.mapPath w.paths)) (weight.map (Expr.mapPaths w.paths)) (r.mapPaths w.paths)) := by
  have weightMapped : (weight.map (Expr.mapPaths w.paths)).getD standardWeight =
      (weight.getD standardWeight).mapPaths w.paths := by
    cases weight with
    | none => exact congrArg (Expr.aggregate .count · none) inputs.root.symm
    | some e => rfl
  have filtersMapped : (r.mapPaths w.paths).filters.map Filter.expr =
      (r.filters.map Filter.expr).map (Expr.mapPaths w.paths) := by
    rw [Restriction.mapPaths, map_map, map_map]
    rfl
  unfold planIndex
  rw [weightMapped, filtersMapped, isEmpty_map]
  split
  · exact .bind (R := fun _ _ => False) .fault fun _ _ never => never.elim
  · refine .bind (.mapM_map fun field mem => planIndexField_lockstep belongs inner inputs (values field mem) weighed rows)
      fun parts parts' unions => ?_
    have union : Sql.Query.Alike ρ { Sql.Query.empty with unions := parts } { Sql.Query.empty with unions := parts' } :=
      .mk (.inr ⟨.nil, .none, .nil, .none, .nil, .none, rfl, rfl⟩) .nil unions
    refine .bind (define_lockstep "index" union) fun name name' same => .pure ?_
    subst same
    exact .mk (.inr (Sql.Query.alikeSelect_same _)) .nil .nil

end Planned

section Nests

variable {ρ : Sql.Spelling} {w : Wording} {p : Planner}

variable {d : Dialect} {e e' : Enclosure} {level : Level}

theorem Wording.Encloses.within (encloses : w.Encloses d e e') (has : level.All w.Has) :
    w.Encloses d (e.within level) (e'.within (level.mapPaths w.paths)) where
  input := encloses.input
  parents := by
    show e'.parents ++ _ = (e.parents ++ _).map _
    rw [encloses.parents, Level.dimensions_mapPaths, map_append, map_map, map_map]
    rfl
  inherited := by
    show e'.inherited ++ level.filters.map _ = (e.inherited ++ _).map _
    rw [encloses.inherited, map_append]
  has := encloses.has.within has

theorem Wording.Encloses.keyColumns (encloses : w.Encloses d e e') (level : Level) :
    e'.keyColumns (level.mapPaths w.paths) = e.keyColumns level := by
  rw [Enclosure.keyColumns, encloses.parents, length_map, Level.dimensions_mapPaths, map_map]
  rfl

def Unchanged (q q' : Sql.Query) : Prop := q = q' ∧ q.ctes = [] ∧ q.unions = []

theorem Unchanged.alike (unchanged : Unchanged q q') : q.Alike ρ q' := by
  obtain ⟨rfl, ctes, unions⟩ := unchanged
  refine .mk (.inr (Sql.Query.alikeSelect_same q)) ?_ ?_
  · rw [ctes]
    exact .nil
  · rw [unions]
    exact .nil

theorem nestItem_lockstep (keys : List String) (position : Nat) (nest : Nest) (rows : NestRows) :
    Lockstep (Progress.Alike ρ) Eq (nestItem p keys position nest rows) (nestItem p keys position (nest.mapPaths w.paths) rows) := by
  have schema : pipelineSchema (nest.mapPaths w.paths).stages = pipelineSchema nest.stages := by
    obtain ⟨_, stages, _⟩ := nest
    exact pipelineSchema_mapFirst stages
  have name : (nest.mapPaths w.paths).name = nest.name := by
    obtain ⟨_, stages, _⟩ := nest
    rfl
  rw [nestItem_eq, nestItem_eq, nestColumn, nestColumn, nestSource, nestSource, schema, name]
  exact .liftExcept (.refl (fun _ => rfl) _)

theorem chainedInput_mapPaths (f : List String → List String) (cte : String) (parents : Nat) (previous : Stage)
    (location : Location) :
    chainedInput cte parents (previous.mapPaths f) location = chainedInput cte parents previous location := by
  have limit : (previous.mapPaths f).restriction.limit = previous.restriction.limit := by cases previous <;> rfl
  unfold chainedInput
  rw [Stage.outputSchema_mapPaths, limit]

variable (inner : p.PlansAlike ρ)

include inner

theorem planCollect_lockstep (belongs : w.Belongs ρ) (encloses : w.Encloses p.dialect e e') (has : level.All w.Has)
    (both : Lockstep (Progress.Alike ρ) Eq columns columns') :
    Lockstep (Progress.Alike ρ) Unchanged (planCollect p e level columns) (planCollect p e' (level.mapPaths w.paths) columns') := by
  unfold planCollect
  rw [encloses.parents, encloses.inherited, length_map]
  refine .bind (planRows_lockstep belongs inner encloses.input encloses.has.parents encloses.has.inherited has) fun rows rows' alike => ?_
  refine .bind (define_lockstep "rows" alike) fun name name' same => ?_
  subst same
  refine .bind both fun items items' same => .pure ?_
  subst same
  exact ⟨rfl, rfl, rfl⟩

omit inner in
theorem defineNumbered_lockstep (encloses : w.Encloses d e e') (level : Level) (unchanged : Unchanged rows rows') :
    Lockstep (Progress.Alike ρ) Eq (defineNumbered p e level rows) (defineNumbered p e' (level.mapPaths w.paths) rows') := by
  obtain ⟨rfl, ctes, unions⟩ := unchanged
  unfold defineNumbered
  rw [encloses.parents, length_map]
  exact define_lockstep "nest" (Unchanged.alike ⟨rfl, ctes, unions⟩)

omit inner

mutual

theorem planColumns_lockstep {w : Wording} (inner : p.PlansAlike ρ)
    (belongs : w.Belongs ρ) {e e' : Enclosure}
    (encloses : w.Encloses p.dialect e e') {level : Level} (has : level.All w.Has) :
    ∀ (position : Nat) (fields : List OutputField), (∀ n, .nest n ∈ fields → w.HasFirst n.stages) →
      Lockstep (Progress.Alike ρ) Eq (planColumns p e level position fields)
        (planColumns p e' (level.mapPaths w.paths) position (mapOutputs w.paths fields))
  | _, [], _ => by
    exact .pure rfl
  | position, field :: rest, nests => by
    refine .bind (planColumn_lockstep inner belongs encloses has position field fun n is => nests n (is ▸ mem_cons_self))
      fun item item' same => ?_
    refine .bind (planColumns_lockstep inner belongs encloses has (position + 1) rest
      fun n mem => nests n (mem_cons_of_mem _ mem)) fun items items' sameItems => .pure ?_
    rw [same, sameItems]

theorem planColumn_lockstep {w : Wording} (inner : p.PlansAlike ρ)
    (belongs : w.Belongs ρ) {e e' : Enclosure}
    (encloses : w.Encloses p.dialect e e') {level : Level} (has : level.All w.Has) :
    ∀ (position : Nat) (field : OutputField), (∀ n, field = .nest n → w.HasFirst n.stages) →
      Lockstep (Progress.Alike ρ) Eq (planColumn p e level position field)
        (planColumn p e' (level.mapPaths w.paths) position (field.mapPaths w.paths))
  | _, .dimension _, _ | _, .measure _, _ => by
    exact .pure rfl
  | position, .nest n, nests => by
    rw [OutputField.mapPaths, planColumn, planColumn, encloses.keyColumns]
    refine .bind (planNest_lockstep inner belongs (encloses.within has) n (nests n rfl)) fun rows rows' same => ?_
    rw [same]
    exact nestItem_lockstep _ _ _ _

theorem planNest_lockstep {w : Wording} (inner : p.PlansAlike ρ)
    (belongs : w.Belongs ρ) {e e' : Enclosure}
    (encloses : w.Encloses p.dialect e e') : ∀ (n : Nest), w.HasFirst n.stages →
      Lockstep (Progress.Alike ρ) Eq (planNest p e n) (planNest p e' (n.mapPaths w.paths))
  | ⟨name, [], location⟩, _ => by
    exact .fault
  | ⟨name, first :: rest, location⟩, has => by
    rw [Nest.mapPaths, mapFirst, planNest, planNest, encloses.parents, length_map]
    refine .bind (planNestStage_lockstep inner belongs encloses name first (has first rfl)) fun rows rows' same => ?_
    rw [same]
    exact planNestStages_lockstep inner e.parents.length name location first rows' rest w.paths

theorem planNestStages_lockstep (inner : p.PlansAlike ρ)
    (parents : Nat) (name : String) (location : Location) :
    ∀ (previous : Stage) (rows : NestRows) (rest : List Stage) (f : List String → List String),
      Lockstep (Progress.Alike ρ) Eq (planNestStages p parents name location previous rows rest)
        (planNestStages p parents name location (previous.mapPaths f) rows rest)
  | _, rows, [], _ => by
    exact .pure rfl
  | previous, rows, stage :: rest, f => by
    have stages := planNestStage_lockstep inner (.inr rfl)
      (.self p.dialect ⟨chainedInput rows.cte parents previous location, chainedKeys parents, []⟩) name stage
      fun _ _ => trivial
    rw [show Wording.same.paths = id from rfl, Stage.mapPaths_id] at stages
    rw [planNestStages, planNestStages, chainedInput_mapPaths]
    refine .bind stages fun rows rows' same => ?_
    rw [same]
    have later := planNestStages_lockstep inner parents name location stage rows' rest id
    rwa [Stage.mapPaths_id] at later

theorem planNestStage_lockstep {w : Wording} (inner : p.PlansAlike ρ)
    (belongs : w.Belongs ρ) {e e' : Enclosure}
    (encloses : w.Encloses p.dialect e e') (name : String) : ∀ (stage : Stage), (∀ x, stage.ReadsInput x → w.Has x) →
      Lockstep (Progress.Alike ρ) Eq (planNestStage p e name stage) (planNestStage p e' name (stage.mapPaths w.paths))
  | .reduce fields having orderBy r, has => by
    have levels := Wording.hasLevel (.reduce fields having orderBy r) rfl has
    have columns := planColumns_lockstep inner belongs encloses levels 0 fields fun n mem => Wording.hasFirst_nest has
      (mem_filterMap.mpr ⟨_, mem, rfl⟩)
    rw [Stage.mapPaths, planNestStage, planNestStage, Level.ofReduce_mapPaths]
    refine .bind (planCollect_lockstep inner belongs encloses levels columns) fun rows rows' unchanged => ?_
    exact .bind (defineNumbered_lockstep encloses _ unchanged) fun _ _ same => .pure (same ▸ rfl)
  | .project fields orderBy r, has => by
    have levels := Wording.hasLevel (.project fields orderBy r) rfl has
    have columns := planColumns_lockstep inner belongs encloses levels 0 fields fun n mem => Wording.hasFirst_nest has
      (mem_filterMap.mpr ⟨_, mem, rfl⟩)
    rw [Stage.mapPaths, planNestStage, planNestStage, Level.ofProject_mapPaths]
    refine .bind (planCollect_lockstep inner belongs encloses levels columns) fun rows rows' unchanged => ?_
    exact .bind (defineNumbered_lockstep encloses _ unchanged) fun _ _ same => .pure (same ▸ rfl)
  | .index _ _ _, _ => by
    exact .fault

end

include inner

theorem planLevel_lockstep (belongs : w.Belongs ρ) (inputs : w.Inputs p.dialect input input') (has : level.All w.Has)
    (nests : ∀ n, .nest n ∈ level.fields → w.HasFirst n.stages) :
    Lockstep (Progress.Alike ρ) (Sql.Query.Alike ρ) (planLevel p input level) (planLevel p input' (level.mapPaths w.paths)) := by
  have encloses : w.Encloses p.dialect (.ofInput input) (.ofInput input') :=
    ⟨inputs, rfl, rfl, forall_mem_nil _, forall_mem_nil _⟩
  have cut {q q' : Sql.Query} (alike : q.Alike ρ q') : Sql.Query.Alike ρ
      { q with orderBy := orderTerms p.dialect .ofColumn level.orderBy, limit := level.limit }
      { q' with orderBy := orderTerms p.dialect .ofColumn level.orderBy, limit := level.limit } := by
    cases alike with
    | mk select ctes unions => exact .mk (select.imp ({ · with orderBy := rfl, limit := rfl }) ({ · with orderBy := rfl, limit := rfl })) ctes unions
  unfold planLevel
  rw [Level.hasNests_mapPaths]
  split
  · exact .bind (planCollect_lockstep inner belongs encloses has (planColumns_lockstep inner belongs encloses has 0 _ nests))
      fun _ _ unchanged => .pure (cut unchanged.alike)
  · exact .bind (planRows_lockstep belongs inner inputs (forall_mem_nil _) (forall_mem_nil _) has)
      fun _ _ alike => .pure (cut alike)

theorem planStage_lockstep (belongs : w.Belongs ρ) (inputs : w.Inputs p.dialect input input')
    (has : ∀ x, stage.ReadsInput x → w.Has x) :
    Lockstep (Progress.Alike ρ) (Sql.Query.Alike ρ) (planStage p input stage) (planStage p input' (stage.mapPaths w.paths)) := by
  have nests {n : Nest} (mem : .nest n ∈ stage.outputs) : w.HasFirst n.stages :=
    Wording.hasFirst_nest has (mem_filterMap.mpr ⟨_, mem, rfl⟩)
  cases stage with
  | reduce fields having orderBy r =>
    rw [Stage.mapPaths, planStage, planStage, Level.ofReduce_mapPaths]
    exact planLevel_lockstep inner belongs inputs (Wording.hasLevel (.reduce fields having orderBy r) rfl has) fun _ => nests
  | project fields orderBy r =>
    rw [Stage.mapPaths, planStage, planStage, Level.ofProject_mapPaths]
    exact planLevel_lockstep inner belongs inputs (Wording.hasLevel (.project fields orderBy r) rfl has) fun _ => nests
  | index fields weight r =>
    refine planIndex_lockstep belongs inner inputs (fun f mem => has _ (.own ?_)) (has _ (.own ?_))
      fun e mem => has e (.own ?_)
    · exact mem_append_left _ (mem_append_left _ (mem_map_of_mem mem))
    · exact mem_append_left _ (mem_append_right _ mem_cons_self)
    · exact mem_append_right _ mem

omit inner in
theorem planStages_cons (location : Location) (input : Input) (stage next : Stage) (rest : List Stage) :
    planStages p location input (stage :: next :: rest) = (do
      let name ← define "stage" (← planStage p input stage)
      planStages p location (.ofCte name stage.outputSchema location) (next :: rest)) := by
  rw [planStages]
  exact cons_ne_nil _ _

theorem planStages_lockstep (location : Location) : ∀ (stages : List Stage) {w : Wording} {input input' : Input},
    w.Belongs ρ → w.Inputs p.dialect input input' → w.HasFirst stages →
      Lockstep (Progress.Alike ρ) (Sql.Query.Alike ρ) (planStages p location input stages)
        (planStages p location input' (mapFirst w.paths stages))
  | [], _, _, _, _, _, _ => by
    exact .fault
  | [last], _, _, _, belongs, inputs, has => by
    exact planStage_lockstep inner belongs inputs (has last rfl)
  | stage :: next :: rest, w, input, input', belongs, inputs, has => by
    refine .bind (planStage_lockstep inner belongs inputs (has stage rfl)) fun select select' alike => ?_
    refine .bind (define_lockstep "stage" alike) fun name name' same => ?_
    rw [same, Stage.outputSchema_mapPaths]
    have later := planStages_lockstep location (next :: rest) (.inr rfl)
      (Wording.inputs_self p.dialect (.ofCte name' stage.outputSchema location)) fun _ _ _ _ => trivial
    rwa [show Wording.same.paths = id from rfl, mapFirst_id] at later

end Nests

theorem planWithin_lockstep (ρ : Sql.Spelling) (d : Dialect) : ∀ (depth : Nat) (q : Query),
    Lockstep (Progress.Alike ρ) (Sql.Query.Alike ρ) (planWithin d depth q) (planWithin d depth q)
  | 0, q => by
    exact .fault
  | depth + 1, q => by
    have inner : Planner.PlansAlike ρ ⟨d, planWithin d depth⟩ := planWithin_lockstep ρ d depth
    rw [planWithin, planPipeline]
    split
    · exact .fault
    · next first rest _ =>
      unfold sourceInput
      rw [bind_assoc]
      refine .bind (sourceRelation_lockstep inner q.source first.sample) fun relation relation' same => ?_
      rw [same]
      have stages := planStages_lockstep inner q.location (first :: rest) (.inr rfl)
        (Wording.inputs_self d ⟨relation', q.source.fields, q.source.primaryKey, q.source.filters.map Filter.expr⟩)
        fun _ _ _ _ => trivial
      rwa [show Wording.same.paths = id from rfl, mapFirst_id] at stages

end Plan

end SemanticLayer
