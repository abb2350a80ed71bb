import SemanticLayer.Proofs.Dialect.Covered
import SemanticLayer.Proofs.Plan.Accepted
import SemanticLayer.Proofs.Plan.Pieces

/-!
Grouped `SELECT`s. An aggregate may be combined with columns that are the same in all rows of a group. Which ones
these are is decided by what expressions come to: an expression has one value per group if its columns
stand in aggregates, or in parts that come to one of the keys of the group.
-/
namespace SemanticLayer.Plan

open List

def Refines {α : Type} (x y : CompileM α) : Prop := ∀ c a c', Gives x c a c' → Gives y c a c'

namespace Refines

variable {α β : Type}

theorem refl (x : CompileM α) : Refines x x := fun _ _ _ => id

theorem bind {x y : CompileM α} {f g : α → CompileM β} (first : Refines x y) (second : ∀ a, Refines (f a) (g a)) :
    Refines (x >>= f) (y >>= g) := by
  intro c b c' run
  obtain ⟨a, mid, here, there⟩ := gives_bind.mp run
  exact gives_bind.mpr ⟨a, mid, first c a mid here, second a mid b c' there⟩

theorem mapM {f g : α → CompileM β} {items : List α} (each : ∀ a ∈ items, Refines (f a) (g a)) :
    Refines (items.mapM f) (items.mapM g) := by
  induction items with
  | nil => exact refl _
  | cons a rest ih =>
    rw [mapM_cons, mapM_cons]
    refine bind (each a mem_cons_self) fun b => ?_
    exact bind (ih fun a mem => each a (mem_cons_of_mem _ mem)) fun bs => refl _

end Refines

section Deeper

variable {t : Target} {follow follow' : CompileAt}
  (le : ∀ place ns e, Refines (follow place ns e) (follow' place ns e))

include le

theorem compileField_refines : Refines (compileField follow place ns path) (compileField follow' place ns path) :=
  .bind (.refl _) fun _ => le _ _ _

theorem distinctKey_refines : Refines (distinctKey t follow path) (distinctKey t follow' path) := by
  refine .bind (.refl _) fun key => ?_
  cases key with
  | none => exact .refl _
  | some key => exact .bind (.refl _) fun ns => compileField_refines le

theorem compileAggregate_refines :
    Refines (compileAggregate t follow function path arg) (compileAggregate t follow' function path arg) := by
  have key : Refines (distinctKey t follow path) (distinctKey t follow' path) := distinctKey_refines le
  refine .bind (.refl _) fun c => ?_
  dsimp only
  split
  · exact .bind key fun _ => .refl _
  · split
    · exact .bind key fun _ => .refl _
    · exact .refl _
  · exact .bind key fun _ => .refl _
  · exact .bind key fun _ => .refl _
  · exact .refl _

/-- What compiling gives does not depend on how definitions are followed. -/
theorem compile_refines (e : Expr) : Refines (compile t follow place ns e) (compile t follow' place ns e) := by
  induction e using Expr.parts_induction with
  | step e ih =>
    cases operator : isOperator e with
    | true =>
      rw [compile_operator operator, compile_operator operator]
      exact .bind (.mapM ih) fun _ => .refl _
    | false =>
      cases e with
      | field path =>
        exact compileField_refines le
      | aggregate function locality arg =>
        rw [compile, compile, compileOption_eq, compileOption_eq]
        exact .bind (.bind (.mapM ih) fun _ => .refl _) fun _ => compileAggregate_refines le
      | filtered a condition =>
        refine .bind (ih condition (by simp [Expr.parts])) fun condition => ?_
        intro c x c' run
        obtain ⟨inner, filtered, rfl⟩ := gives_withFilter.mp run
        exact gives_withFilter.mpr ⟨inner, ih a (by simp [Expr.parts]) _ _ _ filtered, rfl⟩
      | ungroup kind a fields =>
        refine .bind (.refl _) fun c => ?_
        split
        · exact .refl _
        · split
          · exact .refl _
          · refine .bind (fun c x c' run => ?_) fun _ => .refl _
            obtain ⟨mid, within, rfl⟩ := gives_withoutFrame.mp run
            exact gives_withoutFrame.mpr ⟨mid, ih a (by simp [Expr.parts]) _ _ _ within, rfl⟩
      | _ => cases operator

omit le in
theorem compileWithin_refines (more : fuel ≤ fuel') :
    ∀ place ns e, Refines (t.compileWithin fuel place ns e) (t.compileWithin fuel' place ns e) := by
  induction fuel generalizing fuel' with
  | zero => exact fun _ _ _ _ _ _ run => (not_gives_throw run).elim
  | succ fuel ih =>
    cases fuel' with
    | zero => omega
    | succ fuel' => exact fun place ns e => compile_refines (ih (Nat.le_of_succ_le_succ more)) e

end Deeper

/-- An expression that has one value per group: its columns stand in aggregates, or in parts that come to keys. -/
inductive PerGroup (t : Target) (keys : List Sql.Expr) : List String → Namespace → Expr → Prop where
  | key {place : List String} {ns : Namespace} {e : Expr} {x : Sql.Expr} (comes : Comes (t.compileAt place ns e) x)
      (mem : x ∈ keys) : PerGroup t keys place ns e
  | aggregate : PerGroup t keys place ns (.aggregate function locality arg)
  | ungroup {place : List String} {ns : Namespace} {kind : UngroupKind} {e : Expr} {fields : List String} :
      PerGroup t keys place ns (.ungroup kind e fields)
  | filtered (inner : PerGroup t keys place ns e) :
      PerGroup t keys place ns (.filtered e condition)
  | field {place joins path : List String} {ns owner : Namespace} {d : Expr}
      (defined : definitionOf ns path = .ok (joins, owner, d)) (inner : PerGroup t keys (place ++ joins) owner d) :
      PerGroup t keys place ns (.field path)
  | operator (is : isOperator e = true)
      (own : ∀ name, e ≠ .column name) (parts : ∀ p ∈ e.parts, PerGroup t keys place ns p) :
      PerGroup t keys place ns e

section Covered

variable {t : Target} {keys : List Sql.Expr}

theorem aggregate_covered (run : Gives (compileAggregate t follow function path arg) c x c') :
    x.Covered (Sql.Expr.Grouped keys) := by
  have counted {y : Sql.Expr} {distinct : Bool} :
      (Sql.Expr.call "COUNT" [y] distinct).Covered (Sql.Expr.Grouped keys) :=
    Sql.Expr.covered_aggregate (by decide) _ _
  unfold compileAggregate at run
  rw [gives_get_bind] at run
  dsimp only at run
  split at run
  · obtain ⟨key, mid, _, run⟩ := gives_bind.mp run
    rw [(gives_pure.mp run).1]
    exact counted
  · split at run
    · obtain ⟨key, mid, _, run⟩ := gives_bind.mp run
      rw [(gives_pure.mp run).1]
      exact counted
    · rw [(gives_pure.mp run).1]
      exact Sql.Expr.covered_plainAggregate _ _
  · obtain ⟨key, value, _, rfl, _⟩ := keyedSum_inv run
    exact Sql.Expr.covered_sumDistinct _ _ _ _ _
  · obtain ⟨key, value, _, rfl, _⟩ := keyedSum_inv run
    exact Sql.Expr.covered_sumDistinct _ _ _ _ _
  · rw [(gives_pure.mp run).1]
    exact Sql.Expr.covered_plainAggregate _ _

theorem ungroup_covered {inner : CompileM Sql.Expr} (run : Gives (compileUngroup kind fields inner) c x c') :
    x.Covered (Sql.Expr.Grouped keys) := by
  unfold compileUngroup at run
  rw [gives_get_bind] at run
  split at run
  · exact (not_gives_throw run).elim
  · split at run
    · exact (not_gives_throw run).elim
    · obtain ⟨value, mid, _, run⟩ := gives_bind.mp run
      rw [gives_get_bind, gives_modify_bind, gives_pure] at run
      rw [run.1]
      exact Sql.Expr.covered_aggregate (by decide) _ _

theorem compileWithin_gives (run : Gives (t.compileWithin fuel place ns e) c x c') :
    ∃ less < fuel, Gives (compile t (t.compileWithin less) place ns e) c x c' := by
  cases fuel with
  | zero => exact (not_gives_throw run).elim
  | succ fuel => exact ⟨fuel, Nat.lt_succ_self fuel, run⟩

theorem PerGroup.covered (constant : PerGroup t keys place ns e) :
    ∀ {fuel c x c'}, fuel ≤ t.depth → Gives (t.compileWithin fuel place ns e) c x c' →
      x.Covered (Sql.Expr.Grouped keys) := by
  induction constant with
  | @key place ns e y comes mem =>
    intro fuel c x c' le run
    have same : Gives (t.compileAt place ns e) c x c' := compileWithin_refines le _ _ _ _ _ _ run
    have other := comes c
    simp only [Gives] at same other
    rw [same] at other
    cases other
    exact .here (.inl mem)
  | aggregate =>
    intro fuel c x c' le run
    obtain ⟨less, _, run⟩ := compileWithin_gives run
    obtain ⟨arg, mid, _, run⟩ := gives_bind.mp run
    exact aggregate_covered run
  | ungroup =>
    intro fuel c x c' le run
    obtain ⟨less, _, run⟩ := compileWithin_gives run
    exact ungroup_covered run
  | filtered _ ih =>
    intro fuel c x c' le run
    obtain ⟨less, lt, run⟩ := compileWithin_gives run
    obtain ⟨condition, mid, _, run⟩ := gives_bind.mp run
    obtain ⟨inner, run, _⟩ := gives_withFilter.mp run
    exact ih (Nat.le_trans lt le) run
  | field defined _ ih =>
    intro fuel c x c' le run
    obtain ⟨less, lt, run⟩ := compileWithin_gives run
    rw [compile] at run
    unfold compileField at run
    rw [defined, gives_ofExcept_bind] at run
    obtain ⟨found, is, run⟩ := run
    cases is
    exact ih (Nat.le_of_lt (Nat.lt_of_lt_of_le lt le)) run
  | operator is own _ ih =>
    intro fuel c x c' le run
    obtain ⟨less, lt, run⟩ := compileWithin_gives run
    rw [compile_operator is] at run
    obtain ⟨xs, mid, parts, run⟩ := gives_bind.mp run
    obtain ⟨_, covered⟩ := gives_mapM_each
      parts trivial
      fun p mem c y c' _ step => ⟨trivial, ih p mem (Nat.le_trans lt le) step⟩
    refine made_assemble (fun y mem => ?_) (fun name same => (own name same).elim)
      (fun _ _ => .node rfl (forall_mem_nil _)) (gives_ofDialect.mp run).1
    obtain ⟨_, _, holds⟩ := exists_of_forall₂ covered mem
    exact holds

end Covered

theorem measure_field {level : Level} (mem : (f, true) ∈ level.columns) : .measure f ∈ level.fields := by
  obtain ⟨output, given, is⟩ := mem_filterMap.mp mem
  cases output with
  | measure g => cases is; exact given
  | dimension | nest => cases is

theorem levelParts_inv (run : Gives (levelParts t parents filters level) c parts c') :
    List.Forall₂ (fun (column : ExprField × Bool) item => item.label = some column.1.name ∧
      if column.2 then ∃ c c', Gives (t.compileRoot column.1.expr) c item.expr c'
      else item.expr ∈ parts.dimensions.map Prod.snd) level.columns parts.items ∧
    List.Forall₂ (fun e x => ∃ c c', Gives (t.compileRoot e) c x c') level.having parts.having := by
  rw [levelParts_eq] at run
  obtain ⟨keys, _, _, rest⟩ := gives_bind.mp run
  obtain ⟨dimensions, _, _, rest⟩ := gives_bind.mp rest
  obtain ⟨_, _, _, rest⟩ := gives_bind.mp rest
  obtain ⟨items, _, itemized, rest⟩ := gives_bind.mp rest
  obtain ⟨having, _, restricted, rest⟩ := gives_bind.mp rest
  obtain ⟨conditions, _, _, rest⟩ := gives_bind.mp rest
  rw [(gives_pure.mp rest).1]
  constructor
  · refine (gives_mapM_each itemized trivial fun column mem c item c' _ step => ⟨trivial, ?_⟩).2
    obtain ⟨x, rfl, come⟩ := levelItem_inv step
    refine ⟨rfl, ?_⟩
    split at come
    · next measure => exact (if_pos measure).mpr ⟨c, c', come⟩
    · next dimension => exact (if_neg dimension).mpr (mem_map.mpr ⟨_, come.1, rfl⟩)
  · exact (gives_mapM_each restricted trivial
      fun e mem c x c' _ step => ⟨trivial, c, c', step⟩).2

/-- In the `SELECT` of a grouped level, every column that is read outside of aggregates stands in one of the keys
of the group, unless it comes with a measure or a condition on groups that has not one value per group. -/
theorem planRows_grouped {p : Planner} {input : Input} {parents inherited : List Expr} {level : Level}
    (grouped : level.grouped = true) {s s' : Progress} {select : Sql.Query}
    (planned : (planRows p input parents inherited level).run s = .ok (select, s')) :
    ∃ tree, treeFor input (parents ++ level.columns.map (fun (f, _) => f.expr) ++ (inherited ++ level.filters) ++
        level.having) = .ok tree ∧
      (∀ item ∈ select.items, item.expr.Covered (Sql.Expr.Grouped select.groupBy) ∨
        ∃ f, .measure f ∈ level.fields ∧ item.label = some f.name ∧
          ¬PerGroup ⟨p.dialect, tree⟩ select.groupBy [] tree.root f.expr) ∧
      ∀ condition ∈ select.having, condition.Covered (Sql.Expr.Grouped select.groupBy) ∨
        ∃ e ∈ level.having, ¬PerGroup ⟨p.dialect, tree⟩ select.groupBy [] tree.root e := by
  change Gives (planRows p input parents inherited level) s select s' at planned
  unfold planRows at planned
  obtain ⟨tree, start, lifted, rest⟩ := gives_bind.mp planned
  obtain ⟨isTree, _⟩ := gives_liftExcept.mp lifted
  refine ⟨tree, isTree, ?_⟩
  obtain ⟨⟨⟨parts, frame⟩, c⟩, mid, shared, widening⟩ := gives_bind.mp rest
  obtain ⟨ungroups, done, _, result⟩ := gives_bind.mp widening
  change Gives (_ : RowsM (LevelParts × Frame)) (Compilation.empty, _) (parts, frame) (c, mid) at shared
  rw [gives_compiling_bind] at shared
  obtain ⟨parts', after, compiled, framing⟩ := shared
  obtain ⟨frame', _, _, both⟩ := gives_bind.mp framing
  cases (gives_pure.mp both).1
  obtain ⟨items, having⟩ := levelParts_inv compiled
  cases (gives_pure.mp result).1
  simp only [grouped, if_true]
  constructor
  · intro item mem
    rcases List.mem_append.mp mem with mem | mem
    · exact .inl (.here (.inl (List.mem_append_left _ (parentItems_expr mem))))
    · obtain ⟨⟨f, measure⟩, column, label, come⟩ := exists_of_forall₂ items mem
      cases measure with
      | true =>
        obtain ⟨c, c', run⟩ := come
        by_cases constant : PerGroup ⟨p.dialect, tree⟩ (parts.keys ++ parts.dimensions.map Prod.snd) [] tree.root f.expr
        · exact .inl (constant.covered (Nat.le_refl _) run)
        · exact .inr ⟨f, measure_field column, label, constant⟩
      | false => exact .inl (.here (.inl (List.mem_append_right _ come)))
  · intro condition is
    by_cases constant : ∀ e ∈ level.having,
        PerGroup ⟨p.dialect, tree⟩ (parts.keys ++ parts.dimensions.map Prod.snd) [] tree.root e
    · refine .inl (Sql.Expr.made_allOf (fun x mem => ?_) condition is)
      obtain ⟨e, given, c, c', run⟩ := exists_of_forall₂ having mem
      exact (constant e given).covered (Nat.le_refl _) run
    · simp only [not_forall] at constant
      obtain ⟨e, given, loose⟩ := constant
      exact .inr ⟨e, given, loose⟩

open Elaborate (Inputs document Built)

def sales : Inputs :=
  ⟨"file:///sales.model", ⟨[("sales", .known [⟨"region", .string⟩, ⟨"price", .number⟩])], []⟩, fun _ => .duckdb, []⟩

def markup (key : String) : Document.Statement :=
  .query none
    ⟨.source (.table none "sales" default),
      [.stage ⟨[.groupBy [.reference ⟨[key], default⟩ []],
        .aggregate [.define ⟨⟨"marked", default⟩, ⟨.binary .add ⟨.aggregate .count none none, default⟩
          ⟨.field ⟨["price"], default⟩, default⟩, default⟩, default⟩]], default⟩], default⟩ default

def markupFields (key : String) (type : AtomicType) : List OutputField :=
  let location : Location := ⟨"file:///sales.model", default⟩
  [.dimension ⟨key, .field [key], type, location⟩,
    .measure ⟨"marked", .binary .add (.aggregate .count [] none) (.field ["price"]), .number, location⟩]

def markupQuery (key : String) (type : AtomicType) : Query :=
  let location : Location := ⟨"file:///sales.model", default⟩
  ⟨none, ⟨"sales", .table "sales" none,
      Namespace.ofColumns [⟨"region", .string⟩, ⟨"price", .number⟩] location, none, [], location⟩,
    [.reduce (markupFields key type) [] [⟨"marked", .desc⟩] ⟨[], none, none⟩], location⟩

def markupInput : Input := ⟨.table "sales", (markupQuery "price" .number).source.fields, none, []⟩

def markupLevel (key : String) (type : AtomicType) : Level :=
  .ofReduce (markupFields key type) [] [⟨"marked", .desc⟩] ⟨[], none, none⟩

def markupRows (key : String) : Sql.Query :=
  { Sql.Query.empty with
    items := [.named (.ofTable "base" key) key,
      .named (operation .add (.fn "COUNT" [.int 1]) (.ofTable "base" "price")) "marked"]
    source := some ⟨.table "sales", some "base"⟩, groupBy := [.ofTable "base" key] }

theorem markup_price_rows : (planRows ⟨.duckdb, planWithin .duckdb 0⟩ markupInput [] [] (markupLevel "price" .number)).run
    ⟨[], 0⟩ = .ok (markupRows "price", ⟨[], 0⟩) := by cbv

/-- Grouped by the price, every price that is read is the key of its group. -/
theorem markup_price_grouped : (markupLevel "price" .number).grouped = true ∧
    (planRows ⟨.duckdb, planWithin .duckdb 0⟩ markupInput [] [] (markupLevel "price" .number)).run ⟨[], 0⟩ =
      .ok (markupRows "price", ⟨[], 0⟩) ∧
    ∀ item ∈ (markupRows "price").items, item.expr.Covered (Sql.Expr.Grouped (markupRows "price").groupBy) := by
  refine ⟨rfl, markup_price_rows, fun item mem => ?_⟩
  obtain ⟨tree, isTree, items, _⟩ := planRows_grouped rfl markup_price_rows
  rcases items item mem with covered | ⟨f, given, _, loose⟩
  · exact covered
  · have isMarked : f.expr = .binary .add (.aggregate .count [] none) (.field ["price"]) := by
      simp only [markupLevel, Level.ofReduce, markupFields, List.mem_cons, List.not_mem_nil, or_false, reduceCtorEq,
        false_or, OutputField.measure.injEq] at given
      rw [given]
    have isBase : (.ok (.ofRoot markupInput.fields none) : Except Fault JoinTree) = .ok tree := by
      refine Eq.trans ?_ isTree
      cbv
    cases isBase
    rw [isMarked] at loose
    refine (loose (.operator rfl (by simp) fun part mem => ?_)).elim
    rcases List.mem_pair.mp mem with rfl | rfl
    · exact .aggregate
    · exact .key (fun c => rfl) List.mem_cons_self

theorem markup_recorded : (document sales ⟨[markup "region"]⟩).Records (markupQuery "region" .string) := by
  have queries : (document sales ⟨[markup "region"]⟩).queries = [.ok (markupQuery "region" .string)] := by cbv
  exact .inr (queries ▸ mem_cons_self)

/-- Grouped by the region, a price is read that may differ within the group, and nothing is reported. -/
theorem markup_region_loose : Built (document sales ⟨[markup "region"]⟩) ∧
    (document sales ⟨[markup "region"]⟩).diagnostics = [] ∧
    (document sales ⟨[markup "region"]⟩).Records (markupQuery "region" .string) ∧
    (planRows ⟨.duckdb, planWithin .duckdb 0⟩ markupInput [] [] (markupLevel "region" .string)).run ⟨[], 0⟩ =
      .ok (markupRows "region", ⟨[], 0⟩) ∧
    (markupQuery "region" .string).plan .duckdb none = .ok { markupRows "region" with
      orderBy := [⟨.ofColumn "marked", .desc, some .last⟩] } ∧
    ∃ item ∈ (markupRows "region").items,
      ¬item.expr.Covered (Sql.Expr.Grouped (markupRows "region").groupBy) := by
  refine ⟨.document _ _ nofun, by cbv, markup_recorded, by cbv, by cbv, _, List.mem_cons_of_mem _ List.mem_cons_self, ?_⟩
  have other : ∀ e : Sql.Expr, Sql.Expr.Grouped (markupRows "region").groupBy e →
      e = .ofTable "base" "region" ∨ ∃ function args distinct, e = .call function args distinct := by
    rintro e (mem | ⟨function, _, args, distinct, is⟩)
    · exact .inl (List.mem_singleton.mp mem)
    · exact .inr ⟨function, args, distinct, is⟩
  intro covered
  cases covered with
  | here holds => rcases other _ holds with is | ⟨_, _, _, is⟩ <;> cases is
  | node own parts =>
    have price : (Sql.Expr.ofTable "base" "price").Covered (Sql.Expr.Grouped (markupRows "region").groupBy) :=
      parts _ (List.mem_cons_of_mem _ List.mem_cons_self)
    cases price with
    | here holds => rcases other _ holds with is | ⟨_, _, _, is⟩ <;> simp [Sql.Expr.ofTable] at is
    | node own _ => cases own

end SemanticLayer.Plan
