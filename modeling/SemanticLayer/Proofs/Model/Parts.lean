import SemanticLayer.Proofs.Model.Names

/-!
Expressions as nodes with parts. Most nodes are operators: all that matters is which parts they have and what
is made of them.
-/
namespace SemanticLayer

open List

def Plan.armsOf {α : Type} : List α → List (α × α) × Option α
  | condition :: value :: rest => ((condition, value) :: (armsOf rest).1, (armsOf rest).2)
  | [last] => ([], some last)
  | [] => ([], none)

section Arms

open Plan (armsOf)

variable {α β : Type}

theorem armsOf_parts (arms : List (α × α)) (otherwise : Option α) :
    armsOf (arms.flatMap (fun arm => [arm.1, arm.2]) ++ otherwise.toList) = (arms, otherwise) := by
  induction arms with
  | nil => cases otherwise <;> rfl
  | cons arm rest ih => rw [flatMap_cons, append_assoc, cons_append, singleton_append, armsOf, ih]

theorem parts_armsOf (xs : List α) :
    (armsOf xs).1.flatMap (fun arm => [arm.1, arm.2]) ++ (armsOf xs).2.toList = xs := by
  fun_induction armsOf xs with
  | case1 condition value rest ih => rw [flatMap_cons, append_assoc, ih, cons_append, singleton_append]
  | _ => rfl

theorem armsOf_map (f : α → β) (xs : List α) :
    armsOf (xs.map f) = ((armsOf xs).1.map fun arm => (f arm.1, f arm.2), (armsOf xs).2.map f) := by
  fun_induction armsOf xs with
  | case1 condition value rest ih => rw [map_cons, map_cons, armsOf, ih]; rfl
  | _ => rfl

end Arms

namespace Expr

open Level (both both_some both_eq_some)

def parts : Expr → List Expr
  | .literal _ | .column _ | .field _ | .now => []
  | .unary _ a | .cast a _ _ | .truncate a _ _ | .extract a _ | .isNull a _ | .ungroup _ a _ => [a]
  | .binary _ a b | .filtered a b | .offset a b _ _ _ => [a, b]
  | .aggregate _ _ arg => arg.toList
  | .choose arms otherwise => arms.flatMap (fun arm => [arm.1, arm.2]) ++ otherwise.toList
  | .isIn a values _ => a :: values
  | .call _ args => args

def isName : Expr → Bool
  | .column _ | .field _ => true
  | _ => false

def isOperation : Expr → Bool
  | .column _ | .field _ | .aggregate .. | .filtered .. | .ungroup .. => false
  | _ => true

theorem part_size {e : Expr} (mem : p ∈ e.parts) : sizeOf p < sizeOf e := by
  cases e with
  | literal | column | field | now => cases mem
  | unary | cast | truncate | extract | isNull | ungroup =>
    cases mem_singleton.mp mem
    simp only [unary.sizeOf_spec, cast.sizeOf_spec, truncate.sizeOf_spec, extract.sizeOf_spec,
      isNull.sizeOf_spec, ungroup.sizeOf_spec]
    omega
  | binary | filtered | offset =>
    simp only [parts, mem_cons, not_mem_nil, or_false] at mem
    rcases mem with rfl | rfl <;> simp <;> omega
  | aggregate function locality arg =>
    cases arg with
    | none => cases mem
    | some a =>
      cases mem_singleton.mp mem
      simp
      omega
  | choose arms otherwise =>
    rcases mem_append.mp mem with mem | mem
    · obtain ⟨⟨a, b⟩, given, inside⟩ := mem_flatMap.mp mem
      have smaller := sizeOf_lt_of_mem given
      simp only [mem_cons, not_mem_nil, or_false] at inside
      rcases inside with rfl | rfl <;> simp at smaller ⊢ <;> omega
    · cases otherwise with
      | none => cases mem
      | some a =>
        cases mem_singleton.mp mem
        simp
        omega
  | isIn a values _ =>
    rcases mem_cons.mp mem with rfl | mem
    · simp
      omega
    · have smaller := sizeOf_lt_of_mem mem
      simp
      omega
  | call function args =>
    have smaller := sizeOf_lt_of_mem (show p ∈ args from mem)
    simp
    omega

/-- What holds of an expression once it holds of its parts holds of all expressions. -/
theorem parts_induction {P : Expr → Prop} (step : ∀ e : Expr, (∀ p ∈ e.parts, P p) → P e) (e : Expr) : P e :=
  step e fun p mem =>
    have := part_size mem
    parts_induction step p
termination_by sizeOf e

section Tests

variable {test : Expr → Bool}

theorem anyList_eq (es : List Expr) : anyList test es = es.any (any test) := by
  induction es with
  | nil => rfl
  | cons e rest ih => rw [anyList, ih, any_cons]

theorem anyOption_eq (e : Option Expr) : anyOption test e = e.toList.any (any test) := by
  cases e with
  | none => rfl
  | some e => rw [anyOption, Option.toList_some, any_cons, any_nil, Bool.or_false]

theorem anyArm_eq (arms : List (Expr × Expr)) :
    anyArm test arms = (arms.flatMap fun arm => [arm.1, arm.2]).any (any test) := by
  induction arms with
  | nil => rfl
  | cons arm rest ih => rw [anyArm, ih, flatMap_cons, any_append]; simp

theorem any_parts (e : Expr) : e.any test = (test e || e.parts.any (any test)) := by
  rw [any.eq_def]
  cases e <;> simp [parts, anyList_eq, anyOption_eq, anyArm_eq]

theorem any_part {e : Expr} (mem : p ∈ e.parts) (holds : p.any test = true) : e.any test = true := by
  rw [any_parts, Bool.or_eq_true]
  exact .inr (any_eq_true.mpr ⟨p, mem, holds⟩)

end Tests

inductive Occurs (x : Expr) : Expr → Prop where
  | here : Occurs x x
  | part {p e : Expr} (mem : p ∈ e.parts) (inside : Occurs x p) : Occurs x e

def Columns (P : String → Prop) (e : Expr) : Prop := ∀ name, (column name).Occurs e → P name

theorem Columns.part {e : Expr} (columns : e.Columns P) (mem : p ∈ e.parts) :
    p.Columns P := fun name occurs => columns name (.part mem occurs)

def Numbers (N : String → Prop) (e : Expr) : Prop := ∀ text, (number text).Occurs e → N text

theorem Numbers.part {e : Expr} (numbers : e.Numbers N) (mem : p ∈ e.parts) : p.Numbers N :=
  fun text occurs => numbers text (.part mem occurs)

theorem numbers_leaf (leaf : e.parts = []) (other : ∀ text, number text ≠ e) : e.Numbers N := by
  intro text occurs
  cases occurs with
  | here => exact (other text rfl).elim
  | part mem _ =>
    rw [leaf] at mem
    cases mem

theorem columns_field : (field path).Columns P := by
  intro name occurs
  cases occurs with
  | part mem _ => cases mem

section Levels

variable {n m : Names}

theorem both_scalar (a : Option Level) : both a (some .scalar) = a := by
  rcases a with _ | _ | _ <;> rfl

theorem both_assoc (a b c : Option Level) : both (both a b) c = both a (both b c) := by
  rcases a with _ | _ | _ <;> cases b <;> cases c <;> rfl

theorem levelList_append (as bs : List Expr) : levelList n (as ++ bs) = both (levelList n as) (levelList n bs) := by
  induction as with
  | nil => cases h : levelList n bs <;> simp [h] <;> rfl
  | cons e rest ih => rw [cons_append, levelList, levelList, ih, both_assoc]

theorem levelOption_eq (e : Option Expr) : levelOption n e = levelList n e.toList := by
  cases e with
  | none => rfl
  | some e => exact (both_scalar _).symm

theorem levelArms_eq (arms : List (Expr × Expr)) :
    levelArms n arms = levelList n (arms.flatMap fun arm => [arm.1, arm.2]) := by
  induction arms with
  | nil => rfl
  | cons arm rest ih =>
    rw [levelArms, ih, flatMap_cons, levelList_append, levelList, levelList, levelList, both_scalar]

theorem level?_operation {e : Expr} (operation : e.isOperation = true) : e.level? n = levelList n e.parts := by
  cases e with
  | column | field | aggregate | filtered | ungroup => cases operation
  | choose => rw [level?, parts, levelList_append, levelArms_eq, levelOption_eq]
  | isIn | call | literal | now => rw [level?]; rfl
  | _ => simp only [level?, parts, levelList, both_scalar]

theorem levelList_imp (each : ∀ e ∈ es, ∀ {l}, e.level? n = some l → e.level? m = some l)
    (level : levelList n es = some l) : levelList m es = some l := by
  induction es generalizing l with
  | nil => exact level
  | cons e rest ih =>
    rw [forall_mem_cons] at each
    rw [levelList] at level ⊢
    obtain ⟨x, y, first, second, rfl⟩ := both_eq_some level
    rw [each.1 first, ih each.2 second, both_some]

theorem level?_mono (le : n ≤ m) (e : Expr) (level : e.level? n = some l) : e.level? m = some l := by
  induction e using parts_induction generalizing l with
  | step e ih =>
    cases e with
    | column name =>
      obtain ⟨rfl, stored⟩ := column_level level
      rw [level?, if_pos (le.2.2 name stored)]
    | field path => exact le.1 path l level
    | aggregate function locality arg =>
      obtain ⟨rfl, joined, argument, scalar⟩ := aggregate_level level
      rw [levelOption_eq] at scalar
      have scalar' : levelList m arg.toList = some .scalar := levelList_imp ih scalar
      have joined' := le.2.1 locality joined
      rcases argument with argument | argument <;> simp [level?, levelOption_eq, joined', argument, scalar']
    | filtered a condition =>
      obtain ⟨rfl, first, second⟩ := filtered_level level
      simp [level?, ih a (by simp [parts]) first, ih condition (by simp [parts]) second]
    | ungroup kind a fields =>
      obtain ⟨rfl, inner⟩ := ungroup_level level
      simp [level?, ih a (by simp [parts]) inner]
    | _ =>
      rw [level?_operation rfl] at level ⊢
      exact levelList_imp ih level

def Covers (n : Names) (l : Level) (es : List Expr) : Prop :=
  ∀ p ∈ es, ∃ l', p.level? n = some l' ∧ (l = .scalar → l' = .scalar)

theorem covers_sup (first : Covers n x as) (second : Covers n y bs) : Covers n (x.sup y) (as ++ bs) := by
  intro p mem
  rcases mem_append.mp mem with mem | mem
  · obtain ⟨l, level, scalar⟩ := first p mem
    cases x <;> simp_all [Level.sup]
  · obtain ⟨l, level, scalar⟩ := second p mem
    cases x <;> simp_all [Level.sup]

theorem covers_single (level : a.level? n = some l) : Covers n l [a] := by
  intro p mem
  cases mem_singleton.mp mem
  exact ⟨l, level, id⟩

theorem covers_option (level : levelOption n e = some l) : Covers n l e.toList := by
  cases e with
  | none => exact nofun
  | some e => exact covers_single level

theorem covers_list (level : levelList n es = some l) : Covers n l es := by
  induction es generalizing l with
  | nil => exact forall_mem_nil _
  | cons e rest ih =>
    obtain ⟨x, y, first, second, rfl⟩ := both_eq_some level
    exact covers_sup (covers_single first) (ih second)

/-- The parts of an expression with a level have one, and those of a scalar expression are scalar. -/
theorem level_parts {e : Expr} (level : e.level? n = some l) : Covers n l e.parts := by
  cases e with
  | column | field => exact nofun
  | filtered a condition =>
    obtain ⟨rfl, first, second⟩ := filtered_level level
    exact covers_sup (covers_single first) (covers_single second)
  | ungroup =>
    obtain ⟨rfl, inner⟩ := ungroup_level level
    exact covers_single inner
  | aggregate function locality arg =>
    obtain ⟨rfl, _, _, argument⟩ := aggregate_level level
    intro p mem
    obtain ⟨l, level, _⟩ := covers_option argument p mem
    exact ⟨l, level, nofun⟩
  | _ =>
    rw [level?_operation rfl] at level
    exact covers_list level

end Levels

end Expr

end SemanticLayer
