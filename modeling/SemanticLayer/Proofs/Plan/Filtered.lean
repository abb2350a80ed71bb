import SemanticLayer.Proofs.Model.Meaning
import SemanticLayer.Proofs.Plan.Fuel
import SemanticLayer.Proofs.Sql.Symmetric

/-!
Filters of aggregates. Under filters an expression comes to one that has, over the rows of a group, the value that the
expression has without them over the rows at which all of them are true.
-/
namespace SemanticLayer

open List

namespace Sql

namespace Engine

variable {E : Engine} {group : List E.Scope} {row : E.Scope}

def passing (E : Engine) (conditions : List Expr) (group : List E.Scope) : List E.Scope :=
  group.filter fun row => conditions.all fun condition => E.holds (E.value group row condition)

theorem evalList_asCalls (es : List Expr) : E.evalList group row (listAsCalls es) = es.map (E.value group row) := by
  induction es with
  | nil => rfl
  | cons e rest ih => rw [listAsCalls, evalList, ih, map_cons, value]

theorem evalArms_asCalls (arms : List (Expr × Expr)) :
    E.evalArms group row (armsAsCalls arms) = arms.map fun arm => (E.value group row arm.1, E.value group row arm.2) := by
  induction arms with
  | nil => rfl
  | cons arm rest ih => rw [armsAsCalls, evalArms, ih, map_cons, value, value]

theorem value_plain (plain : function ∉ Expr.aggregateNames) : E.value group row (.call function args distinct) =
    if function = "COALESCE" then E.coalesce (args.map (E.value group row)) else E.call function (args.map (E.value group row)) := by
  have other : E.aggregate? function = none := by
    unfold aggregate?
    split
    all_goals first
      | rfl
      | exact (plain (by decide)).elim
  simp only [value, Expr.asCalls, eval, other, evalList_asCalls]

theorem value_choose (otherwise : Option Expr) : E.value group row (.choose none arms otherwise) =
    E.choose (otherwise.bind (E.value group row)) (arms.map fun arm => (E.value group row arm.1, E.value group row arm.2)) := by
  rw [← evalArms_asCalls]
  cases otherwise <;> rfl

theorem value_isIn : E.value group row (.isIn a values negated) =
    E.isIn (E.value group row a) (values.map (E.value group row)) negated := by
  rw [← evalList_asCalls]
  rfl

theorem value_sequence : E.value group row (.sequence es) = E.call "SEQUENCE" (es.map (E.value group row)) := by
  rw [← evalList_asCalls]
  rfl

theorem admits_allOf (conditions : List Expr) : E.admits group (Plan.allOf? conditions) row =
    conditions.all fun condition => E.holds (E.value group row condition) :=
  holds_allOf (fun a b => by rw [Plan.operation, value_binary, value_parenthesized, value_parenthesized]) conditions

end Engine

namespace Expr

/-- One expression has over the rows of a group the value that the other has over those that pass. -/
def Restricts (filters : List Expr) (x y : Expr) : Prop :=
  ∀ (E : Engine) (group : List E.Scope) (row : E.Scope), E.value group row x = E.value (E.passing filters group) row y

variable {filters : List Expr} {E : Engine} {group : List E.Scope} {row : E.Scope}

theorem Restricts.values (group : List E.Scope) (row : E.Scope) (each : Forall₂ (Restricts filters) xs ys) :
    xs.map (E.value group row) = ys.map (E.value (E.passing filters group) row) := by
  induction each with
  | nil => rfl
  | cons first _ ih => rw [map_cons, map_cons, first E group row, ih]

theorem Restricts.arms {xs ys : List (Expr × Expr)}
    (each : Forall₂ (fun x y => Restricts filters x.1 y.1 ∧ Restricts filters x.2 y.2) xs ys) :
    (xs.map fun arm => (E.value group row arm.1, E.value group row arm.2)) =
      ys.map fun arm => (E.value (E.passing filters group) row arm.1, E.value (E.passing filters group) row arm.2) := by
  induction each with
  | nil => rfl
  | cons first _ ih => rw [map_cons, map_cons, first.1 E group row, first.2 E group row, ih]

instance : Congruent .duckdb (Restricts filters) where
  held related E group row := by
    rw [Engine.value_parenthesized, Engine.value_parenthesized]
    exact related E group row
  raw _ _ _ _ := rfl
  literal _ _ _ _ := rfl
  call each plain E group row := by rw [Engine.value_plain plain, Engine.value_plain plain, Restricts.values group row each]
  cast related E group row := by rw [Engine.value_cast, Engine.value_cast, related]
  unary _ related E group row := congrArg (E.unary _) (related E group row)
  binary _ left right E group row := congrArg₂ (E.binary _) (left E group row) (right E group row)
  isNull _ related E group row := congrArg (E.isNull · _) (related E group row)
  isIn _ related each E group row := by rw [Engine.value_isIn, Engine.value_isIn, related, Restricts.values group row each]
  choose each last E group row := by
    rw [Engine.value_choose, Engine.value_choose, Restricts.arms each]
    congr 1
    cases last with
    | none => rfl
    | some related => exact related E group row
  sequence _ each E group row := by rw [Engine.value_sequence, Engine.value_sequence, Restricts.values group row each]

theorem restricts_aggregate (is : function ∈ aggregateNames) (picks : ∀ (E : Engine) (group : List E.Scope) (row : E.Scope),
      E.admits group x row = ((filters.all fun f => E.holds (E.value group row f)) &&
        E.admits (E.passing filters group) y row)) (related : Restricts filters a b) :
    Restricts filters (call function [Plan.guarded x a] distinct) (call function [Plan.guarded y b] distinct) := by
  intro E group row
  obtain ⟨aggregate, found⟩ : ∃ aggregate, E.aggregate? function = some aggregate := by
    simp only [aggregateNames, mem_cons, not_mem_nil, or_false] at is
    rcases is with rfl | rfl | rfl | rfl | rfl <;> exact ⟨_, rfl⟩
  have guarded (group : List E.Scope) (condition : Option Expr) (e : Expr) (r : E.Scope) :
      E.value group r (Plan.guarded condition e) = if E.admits group condition r then E.value group r e else none :=
    Engine.value_matching r e
  refine (Engine.value_aggregate row function found ?_).trans (Engine.value_aggregate row function found rfl).symm
  show _ = (group.filter _).filterMap _
  rw [filterMap_filter]
  refine filterMap_congr fun r _ => ?_
  rw [guarded, guarded, picks, related]
  cases filters.all fun f => E.holds (E.value group r f) <;> rfl

theorem guards_under (each : Forall₂ (Restricts filters) xs ys) :
    Guards (Restricts filters) (Restricts filters) (Plan.allOf? (filters ++ xs)) (Plan.allOf? ys) := by
  have picks (E : Engine) (group : List E.Scope) (row : E.Scope) : E.admits group (Plan.allOf? (filters ++ xs)) row =
      ((filters.all fun f => E.holds (E.value group row f)) && E.admits (E.passing filters group) (Plan.allOf? ys) row) := by
    rw [Engine.admits_allOf, Engine.admits_allOf, all_append]
    congr 1
    have values := congrArg (List.all · E.holds) (Restricts.values group row each)
    simpa only [all_map, Function.comp_def] using values
  refine ⟨fun is => restricts_aggregate is picks, fun {a a' b b'} key value => ?_⟩
  refine restricts_aggregate (x := some _) (y := some _) (by decide) (fun E group row => ?_) key
  rw [Engine.admits_present, Engine.admits_present, picks, value]
  exact Bool.and_left_comm _ _ _

end Expr

end Sql

namespace Plan

/-- An expression over some fields in which nothing is widened, nor in the definitions that it leads to. -/
structure Unwidened (ns : Namespace) (e : Expr) : Prop where
  level : ∃ l, e.level? (Names.of ns) = some l
  plain : ¬Expr.Leads (fun test e => e.any test) Expr.isUngroup ns e

namespace Unwidened

theorem part (unwidened : Unwidened ns e) (mem : p ∈ e.parts) : Unwidened ns p where
  level := by
    obtain ⟨l, level⟩ := unwidened.level
    obtain ⟨l', leveled, _⟩ := Expr.level_parts level p mem
    exact ⟨l', leveled⟩
  plain leads := unwidened.plain <| by
    cases leads with
    | here holds => exact .here (Expr.any_part mem holds)
    | definition refers defined leads => exact .definition (Expr.any_part mem refers) defined leads

theorem of_scalar (sound : FieldsSound ns) (level : e.level? (Names.of ns) = some .scalar) : Unwidened ns e where
  level := ⟨_, level⟩
  plain leads := by
    induction leads with
    | here holds => exact Bool.eq_false_iff.mp (Expr.scalar_plain level) holds
    | definition refers defined _ ih =>
      obtain ⟨_, named, scalar⟩ := Expr.refers_level level refers
      cases scalar rfl
      obtain ⟨_, _, _, _, _, _, sound', defined', leveled⟩ := sound.definition named
      cases defined.symm.trans defined'
      exact ih sound' leveled

end Unwidened

/-- Compiling under some filters and under conditions, and under conditions alone. -/
def Under (filters xs ys : List Sql.Expr) (c d : Compilation) : Prop := c.filters = filters ++ xs ∧ d.filters = ys

section Compile

variable {t : Target} {follow : CompileAt} {place : List String} {ns : Namespace} {filters : List Sql.Expr}

/-- What an action gives under filters restricts what it gives without them. -/
def Restricted (filters : List Sql.Expr) (action : CompileM Sql.Expr) : Prop :=
  ∀ {xs ys}, Forall₂ (Sql.Expr.Restricts filters) xs ys →
    Lockstep (Under filters xs ys) (Sql.Expr.Restricts filters) action action

theorem Restricted.ofExcept {r : Except Fault α} {f : α → CompileM Sql.Expr} (each : ∀ a, r = .ok a → Restricted filters (f a)) :
    Restricted filters (CompileM.ofExcept r >>= f) := by
  cases r with
  | error => exact fun _ _ _ _ => .error
  | ok a => exact each a rfl

section

variable (root : FieldsSound t.tree.root) (keyed : ∀ name ∈ t.tree.key, (Names.of t.tree.root).level [name] = some .scalar)
  (follows : ∀ {place ns e}, t.tree.root.within? place = some ns → Unwidened ns e → Restricted filters (follow place ns e))

include root follows

theorem compileField_restricted (within : t.tree.root.within? place = some ns) (unwidened : Unwidened ns (.field path)) :
    Restricted filters (compileField follow place ns path) := by
  refine Restricted.ofExcept fun found defined => ?_
  obtain ⟨l, level⟩ := unwidened.level
  obtain ⟨within', leveled⟩ := definition_within root within defined level
  exact follows within' ⟨⟨l, leveled⟩, fun leads => unwidened.plain (.definition (Expr.field_refersTo path) defined leads)⟩

include keyed

theorem distinctKey_restricted (path : List String) : Restricted filters (distinctKey t follow path) := by
  refine Restricted.ofExcept fun key isKey => ?_
  cases key with
  | none =>
    refine fun _ => .bind (.modify fun _ _ states => states) fun _ _ _ => .pure fun _ _ _ => rfl
  | some key =>
    refine Restricted.ofExcept fun ns found => compileField_restricted root follows (fieldsAt_within found) (.of_scalar ?_ ?_)
    · exact root.within (fieldsAt_within found)
    · exact keyAt_level root keyed isKey found

theorem compile_restricted (within : t.tree.root.within? place = some ns) (unwidened : Unwidened ns e) :
    Restricted filters (compile t follow place ns e) := by
  induction e using Expr.parts_induction with
  | step e ih =>
    have parts : ∀ p ∈ e.parts, Restricted filters (compile t follow place ns p) := fun p mem => ih p mem (unwidened.part mem)
    intro xs ys each
    cases operator : isOperator e with
    | true =>
      rw [compile_operator operator]
      refine .bind (.mapM (forall₂_same.mpr fun p mem => parts p mem each) fun _ _ both => both) fun _ _ related => .ofDialect ?_
      exact assemble_agree _ (fun _ _ _ _ _ => rfl) (fun _ _ _ _ _ => rfl) related
    | false =>
      cases e with
      | field path =>
        exact compileField_restricted root follows within unwidened each
      | aggregate function locality arg =>
        obtain ⟨_, level⟩ := unwidened.level
        obtain ⟨_, _, argued, _⟩ := Expr.aggregate_level level
        refine option_lockstep ?_ fun given related => compileAggregate_lockstep
          (distinctKey_restricted root keyed follows _ each) (fun states => ?_) rfl rfl rfl (by rwa [given]) related
        · cases arg with
          | none => exact .none
          | some a => exact .some (parts a mem_cons_self each)
        · rw [states.1, states.2]
          exact Sql.Expr.guards_under each
      | filtered a condition =>
        refine (parts condition (by simp [Expr.parts]) each).bind fun x y related => ?_
        refine (parts a (by simp [Expr.parts]) (rel_append each (.cons related .nil))).withFilter (fun states => ?_)
          fun before _ => before
        exact ⟨by rw [states.1, append_assoc], by rw [states.2]⟩
      | ungroup kind a fields => exact (unwidened.plain (.here (by simp [Expr.any, Expr.isUngroup]))).elim
      | _ => cases operator

end

theorem compileWithin_restricted (root : FieldsSound t.tree.root)
    (keyed : ∀ name ∈ t.tree.key, (Names.of t.tree.root).level [name] = some .scalar) :
    ∀ (fuel : Nat) {place ns e}, t.tree.root.within? place = some ns → Unwidened ns e →
      Restricted filters (t.compileWithin fuel place ns e)
  | 0, _, _, _, _, _ => fun _ => .throw
  | fuel + 1, _, _, _, within, unwidened => by
    exact compile_restricted root keyed (compileWithin_restricted root keyed fuel) within unwidened

section

variable (root : FieldsSound t.tree.root) (keyed : ∀ name ∈ t.tree.key, (Names.of t.tree.root).level [name] = some .scalar)
  (within : t.tree.root.within? place = some ns)

include root keyed within

/-- An expression under the filters of a state, and alone. -/
theorem compileAt_restricts (unwidened : Unwidened ns e) (c : Compilation) :
    Agree (fun y x => Sql.Expr.Restricts c.filters y.1 x.1 ∧ y.2.filters = c.filters) (outcome (t.compileAt place ns e) c)
      (outcome (t.compileAt place ns e) .empty) := by
  have states : Under c.filters [] [] c .empty := ⟨(append_nil _).symm, rfl⟩
  refine (compileWithin_restricted root keyed t.depth within unwidened .nil states).imp fun y x both => ⟨both.1, ?_⟩
  rw [both.2.1, append_nil]

end

end Compile

end Plan

end SemanticLayer
