import SemanticLayer.Proofs.Dialect.Neat
import SemanticLayer.Proofs.Dialect.Operands
import SemanticLayer.Proofs.Plan.JoinTree
import SemanticLayer.Proofs.Plan.Runs

/-!
Operators are compiled by compiling their parts and putting them together. Nothing is lost on the way, and nothing
comes in; and scalar expressions come to the same in every state.
-/
namespace SemanticLayer.Plan

open List

def assemble (d : Dialect) (place : List String) : Expr → List Sql.Expr → Except Unsupported Sql.Expr
  | .column name, _ => .ok (.ofTable (aliasOf place) name)
  | .literal l, _ => .ok (Dialect.literal l)
  | .unary op _, [a] => .ok (compileUnary op a)
  | .binary op _ _, [a, b] => .ok (compileBinary op a b)
  | .choose _ _, xs => .ok (.choose none (armsOf xs).1 (armsOf xs).2)
  | .cast _ type safe, [a] => d.cast a type safe
  | .truncate _ unit type, [a] => .ok (d.timeTruncate a unit type)
  | .extract _ unit, [a] => .ok (d.timeExtract a unit)
  | .offset _ _ unit type subtract, [a, b] => .ok (d.timeOffset a subtract b unit type)
  | .isNull _ negated, [a] => .ok (.isNull a.parenthesized negated)
  | .isIn _ _ negated, a :: values => .ok (.isIn a.parenthesized values negated)
  | .call function _, args => .ok (.fn function.sqlName args)
  | _, _ => .ok d.now

def isOperator : Expr → Bool
  | .field _ | .aggregate _ _ _ | .filtered _ _ | .ungroup _ _ _ => false
  | _ => true

section Operators

variable {t t' : Target} {follow follow' : CompileAt} {place path path' : List String} {ns : Namespace}

theorem compileOption_eq (e : Option Expr) :
    compileOption t follow place ns e = do
      return (← e.toList.mapM (compile t follow place ns)).head? := by
  cases e <;> simp [compileOption]

theorem compileList_eq (es : List Expr) :
    compileList t follow place ns es = es.mapM (compile t follow place ns) := by
  induction es with
  | nil => simp [compileList]
  | cons e rest ih => simp [compileList, ih]

theorem compileArms_eq {β : Type} (arms : List (Expr × Expr)) (otherwise : Option Expr)
    (k : List (Sql.Expr × Sql.Expr) → Option Sql.Expr → CompileM β) :
    (do
      let arms ← compileArms t follow place ns arms
      let otherwise ← compileOption t follow place ns otherwise
      k arms otherwise) =
      (arms.flatMap (fun arm => [arm.1, arm.2]) ++ otherwise.toList).mapM (compile t follow place ns) >>=
        fun xs => k (armsOf xs).1 (armsOf xs).2 := by
  induction arms generalizing k with
  | nil => cases otherwise <;> simp [compileArms, compileOption, armsOf]
  | cons arm rest ih =>
    simp only [compileArms, bind_assoc, flatMap_cons, cons_append, mapM_cons]
    congr; funext condition
    congr; funext value
    exact ih fun arms otherwise => k ((condition, value) :: arms) otherwise

theorem compile_operator (operator : isOperator e = true) :
    compile t follow place ns e = e.parts.mapM (compile t follow place ns) >>= fun xs =>
      CompileM.ofDialect (assemble t.dialect place e xs) := by
  have done {x : Sql.Expr} : (CompileM.ofDialect (.ok x) : CompileM Sql.Expr) = pure x := rfl
  cases e with
  | field | aggregate | filtered | ungroup => cases operator
  | choose arms otherwise =>
    rw [compile, compileArms_eq arms otherwise fun arms otherwise =>
      pure (Sql.Expr.choose none arms otherwise)]
    rfl
  | isIn a values negated =>
    simp [compile, Expr.parts, compileList_eq, assemble, done]
  | call function args => simp [compile, Expr.parts, compileList_eq, assemble, done]
  | _ => simp [compile, Expr.parts, assemble, done]

theorem compileAggregate_lockstep {C : Compilation → Compilation → Prop} {R : Sql.Expr → Sql.Expr → Prop} {d : Dialect}
    [congruent : Sql.Expr.Congruent d R] (key : Lockstep C R (distinctKey t follow path) (distinctKey t' follow' path'))
    (guards : ∀ {c c'}, C c c' → Sql.Expr.Guards R R (allOf? c.filters) (allOf? c'.filters))
    (dialect : t'.dialect = t.dialect) (fans : t'.tree.fansOut path' = t.tree.fansOut path)
    (root : path'.isEmpty = path.isEmpty) (argued : arg.isSome = true ∨ function = .count) (related : Option.Rel R arg arg') :
    Lockstep C R (compileAggregate t follow function path arg) (compileAggregate t' follow' function path' arg') := by
  refine .bind .get fun c c' states => ?_
  have guards := guards states
  rw [dialect, fans, root]
  have plain (counts : function ≠ .count) :
      Lockstep (m := CompileM) C R (pure (Dialect.plainAggregate function (arg.map (guarded (allOf? c.filters)))))
        (pure (Dialect.plainAggregate function (arg'.map (guarded (allOf? c'.filters))))) := by
    cases related with
    | none => exact (counts (argued.resolve_left nofun)).elim
    | some related => exact .pure (Sql.Expr.related_plainAggregate function fun is => guards.aggregate is related)
  have one (condition : Option Sql.Expr) :
      (condition.map fun c => .caseWhen c (.int 1)).getD (.int 1) = guarded condition (.int 1) := by
    cases condition <;> rfl
  cases function.isFanoutSensitive && t.tree.fansOut path with
  | true =>
    cases function with
    | count => exact key.bind fun _ _ same => .pure (guards.aggregate (by decide) same)
    | sum | avg =>
      refine key.bind fun _ _ same => ?_
      cases related with
      | none => exact .throw
      | some related => exact .pure (Sql.Expr.related_sumDistinct _ _ same related guards)
    | _ => exact plain nofun
  | false =>
    cases function with
    | count =>
      cases path.isEmpty with
      | true =>
        refine .pure (Sql.Expr.related_plainAggregate _ fun is => ?_)
        rw [one, one]
        exact guards.aggregate is (congruent.literal nofun)
      | false => exact key.bind fun _ _ same => .pure (guards.aggregate (by decide) same)
    | _ => exact plain nofun

theorem option_lockstep {C : Compilation → Compilation → Prop} {R : Sql.Expr → Sql.Expr → Prop}
    {S : α → β → Prop} {f : Option Sql.Expr → CompileM α} {g : Option Sql.Expr → CompileM β} {arg arg' : Option Expr}
    (each : Option.Rel (fun a b => Lockstep C R (compile t follow place ns a) (compile t' follow' place' ns' b)) arg arg')
    (later : ∀ {x y}, x.isSome = arg.isSome → Option.Rel R x y → Lockstep C S (f x) (g y)) :
    Lockstep C S (compileOption t follow place ns arg >>= f) (compileOption t' follow' place' ns' arg' >>= g) := by
  cases each with
  | none =>
    exact later rfl .none
  | some both =>
    rw [compileOption, compileOption, bind_assoc, bind_assoc]
    refine both.bind fun x y related => ?_
    exact later rfl (.some related)

end Operators

theorem armsOf_related {R : Sql.Expr → Sql.Expr → Prop} (related : List.Forall₂ R xs ys) :
    List.Forall₂ (fun x y => R x.1 y.1 ∧ R x.2 y.2) (armsOf xs).1 (armsOf ys).1 ∧
      Option.Rel R (armsOf xs).2 (armsOf ys).2 := by
  fun_induction armsOf xs generalizing ys with
  | case1 condition value rest ih =>
    rcases related with _ | ⟨first, _ | ⟨second, related⟩⟩
    obtain ⟨arms, last⟩ := ih related
    exact ⟨.cons ⟨first, second⟩ arms, last⟩
  | case2 last =>
    rcases related with _ | ⟨first, _ | _⟩
    exact ⟨.nil, .some first⟩
  | case3 =>
    cases related
    exact ⟨.nil, .none⟩

/-- Parts that are related are put together to expressions that are. -/
theorem assemble_agree {R : Sql.Expr → Sql.Expr → Prop} {d' : Dialect} [congruent : Sql.Expr.Congruent d' R] (d : Dialect)
    (column : ∀ name, e = .column name → R (.ofTable (aliasOf place) name) (.ofTable (aliasOf g) name))
    (number : ∀ text, e = .number text → R (.literal (.number text)) (.literal (.number text)))
    (related : List.Forall₂ R xs ys) : Agree R (assemble d place e xs) (assemble d g e ys) := by
  have now : Agree R (.ok d.now : Except Unsupported _) (.ok d.now) := .ok (Sql.Expr.related_now d)
  -- an operator with too few or too many parts is never compiled, and comes to the time of day
  cases e with
  | column name => exact .ok (column name rfl)
  | literal l => exact .ok (Sql.Expr.related_literal fun text same => number text (congrArg Expr.literal same))
  | choose arms otherwise =>
    obtain ⟨arms, last⟩ := armsOf_related related
    exact .ok (congruent.choose arms last)
  | call function args => exact .ok (congruent.call related (by cases function <;> decide))
  | isIn a values negated =>
    rcases related with _ | ⟨first, rest⟩
    · exact now
    · exact .ok (congruent.isIn (Sql.Expr.node_isIn Sql.Expr.strength_parenthesized) (congruent.held first) rest)
  | unary | cast | truncate | extract | isNull =>
    rcases related with _ | ⟨first, _ | ⟨second, rest⟩⟩
    on_goal 2 => first
      | exact .ok (Sql.Expr.related_compileUnary _ first)
      | exact Sql.Expr.related_cast d _ _ first
      | exact .ok (Sql.Expr.related_timeTruncate d _ _ first)
      | exact .ok (Sql.Expr.related_timeExtract d _ first)
      | exact .ok (congruent.isNull (Sql.Expr.node_isNull Sql.Expr.strength_parenthesized) (congruent.held first))
    all_goals exact now
  | binary | offset =>
    rcases related with _ | ⟨first, _ | ⟨second, _ | ⟨third, rest⟩⟩⟩
    on_goal 3 => first
      | exact .ok (Sql.Expr.related_compileBinary _ first second)
      | exact .ok (Sql.Expr.related_timeOffset d _ _ _ first second)
    all_goals exact now
  | field | aggregate | filtered | ungroup | now => exact now

theorem made_assemble {d' : Dialect} [Sql.Expr.Closed d' P] (made : ∀ y ∈ xs, P y)
    (column : ∀ name, e = .column name → P (.column (some (aliasOf place)) name))
    (number : ∀ text, e = .number text → P (.literal (.number text))) (is : assemble d place e xs = .ok x) : P x := by
  obtain ⟨_, _, holds⟩ :=
    (assemble_agree (R := fun x _ => P x) (g := place) d column number (forall₂_same.mpr made)).found is
  exact holds

theorem occurs_assemble (operator : isOperator e = true) (length : xs.length = e.parts.length)
    (is : assemble d place e xs = .ok y) (mem : x ∈ xs) : x.Occurs y := by
  cases e with
  | field | aggregate | filtered | ungroup => cases operator
  | column | literal | now =>
    cases length_eq_zero_iff.mp length
    cases mem
  | unary op a =>
    obtain ⟨a, rfl⟩ := length_eq_one_iff.mp length
    cases is
    cases mem_singleton.mp mem
    exact Sql.Expr.occurs_compileUnary op
  | binary op a b =>
    obtain ⟨a, b, rfl⟩ := length_eq_two.mp length
    cases is
    obtain ⟨left, right⟩ := Sql.Expr.occurs_compileBinary (a := a) op
    rcases mem_pair.mp mem with rfl | rfl
    · exact left
    · exact right
  | choose arms otherwise =>
    cases is
    refine .part ?_ .here
    rw [← parts_armsOf xs] at mem
    exact mem
  | cast a type safe =>
    obtain ⟨a, rfl⟩ := length_eq_one_iff.mp length
    cases mem_singleton.mp mem
    exact Sql.Expr.occurs_dialectCast is
  | truncate a unit type =>
    obtain ⟨a, rfl⟩ := length_eq_one_iff.mp length
    cases is
    cases mem_singleton.mp mem
    exact Sql.Expr.occurs_timeTruncate d unit type
  | extract a unit =>
    obtain ⟨a, rfl⟩ := length_eq_one_iff.mp length
    cases is
    cases mem_singleton.mp mem
    exact Sql.Expr.occurs_timeExtract d unit
  | offset a b unit type subtract =>
    obtain ⟨a, b, rfl⟩ := length_eq_two.mp length
    cases is
    obtain ⟨base, amount⟩ := Sql.Expr.occurs_timeOffset (a := a) d subtract unit type
    rcases mem_pair.mp mem with rfl | rfl
    · exact base
    · exact amount
  | isNull a negated =>
    obtain ⟨a, rfl⟩ := length_eq_one_iff.mp length
    cases is
    cases mem_singleton.mp mem
    exact .part mem_cons_self Sql.Expr.occurs_parenthesized
  | isIn a values negated =>
    cases xs with
    | nil => cases mem
    | cons first rest =>
      cases is
      rcases mem_cons.mp mem with rfl | mem
      · exact .part mem_cons_self Sql.Expr.occurs_parenthesized
      · exact .part (mem_cons_of_mem _ mem) .here
  | call function args =>
    cases is
    exact .arg mem .here

def Steady {α : Type} (action : CompileM α) (Q : α → Prop) : Prop :=
  ∀ c a c', Gives action c a c' → c' = c ∧ Q a ∧ ∀ other, Gives action other a other

namespace Steady

variable {α β : Type} {Q : α → Prop} {R : β → Prop}

theorem ofExcept {r : Except Fault α} (holds : ∀ a, r = .ok a → Q a) : Steady (CompileM.ofExcept r) Q := by
  intro c a c' run
  obtain ⟨is, rfl⟩ := gives_ofExcept.mp run
  exact ⟨rfl, holds a is, fun other => gives_ofExcept.mpr ⟨is, rfl⟩⟩

theorem ofDialect {r : Except Unsupported α} (holds : ∀ a, r = .ok a → Q a) :
    Steady (CompileM.ofDialect r) Q := by
  intro c a c' run
  obtain ⟨is, rfl⟩ := gives_ofDialect.mp run
  exact ⟨rfl, holds a is, fun other => gives_ofDialect.mpr ⟨is, rfl⟩⟩

variable {f : α → CompileM β}

theorem bind {x : CompileM α} (first : Steady x Q) (second : ∀ a, Q a → Steady (f a) R) : Steady (x >>= f) R := by
  intro c b c' run
  obtain ⟨a, mid, here, there⟩ := gives_bind.mp run
  obtain ⟨rfl, holds, anywhere⟩ := first c a mid here
  obtain ⟨rfl, last, everywhere⟩ := second a holds mid b c' there
  exact ⟨rfl, last, fun other => gives_bind.mpr ⟨a, other, anywhere other, everywhere other⟩⟩

theorem pure {a : α} (holds : Q a) : Steady (Pure.pure a) Q := by
  intro c a' c' run
  obtain ⟨rfl, rfl⟩ := gives_pure.mp run
  exact ⟨rfl, holds, fun other => gives_pure.mpr ⟨rfl, rfl⟩⟩

theorem weaken {x : CompileM α} {S : α → Prop} (steady : Steady x Q) (le : ∀ a, Q a → S a) : Steady x S := by
  intro c a c' run
  obtain ⟨same, holds, anywhere⟩ := steady c a c' run
  exact ⟨same, le a holds, anywhere⟩

theorem mapM {S : α → β → Prop} : ∀ {items : List α},
    (∀ a ∈ items, Steady (f a) (S a)) → Steady (items.mapM f) (List.Forall₂ S items)
  | [], _ => by
    exact pure .nil
  | a :: rest, each => by
    rw [mapM_cons]
    refine bind (each a mem_cons_self) fun b here => ?_
    exact bind (mapM fun a mem => each a (mem_cons_of_mem _ mem)) fun bs later => pure (.cons here later)

theorem mapM_all {items : List α} (each : ∀ a ∈ items, Steady (f a) R) :
    Steady (items.mapM f) fun bs => ∀ b ∈ bs, R b := by
  refine (mapM each).weaken fun bs all b mem => ?_
  obtain ⟨_, _, holds⟩ := exists_of_forall₂ all mem
  exact holds

end Steady

end SemanticLayer.Plan
