import Mathlib.Algebra.BigOperators.Field
import Mathlib.Algebra.Order.Field.Rat
import SemanticLayer.Proofs.Sql.Semantics

/-!
Symmetric sums and averages are exact: under exact arithmetic each key counts once, with the value that its rows have,
however often a join repeats them.
-/
namespace SemanticLayer.Sql

open List

mutual

/-- The forms that are left to an engine, as calls of functions of their own. -/
def Expr.asCalls : Expr → Expr
  | .binary op a b => .binary op a.asCalls b.asCalls
  | .unary op a => .unary op a.asCalls
  | .call function args distinct => .call function (listAsCalls args) distinct
  | .choose none arms otherwise => .choose none (armsAsCalls arms) (optionAsCalls otherwise)
  | .isIn a values negated => .isIn a.asCalls (listAsCalls values) negated
  | .isNull a negated => .isNull a.asCalls negated
  | .paren a => .paren a.asCalls
  | .nullSafeEq a b => .fn "IS NOT DISTINCT FROM" [a.asCalls, b.asCalls]
  | .cast a type kind => .fn kind.keyword [a.asCalls, .string type]
  | .sequence parts => .fn "SEQUENCE" (listAsCalls parts)
  | .raw text => .fn "TEXT" [.string text]
  | e => e

def optionAsCalls : Option Expr → Option Expr
  | none => none
  | some e => some e.asCalls

def listAsCalls : List Expr → List Expr
  | [] => []
  | e :: rest => e.asCalls :: listAsCalls rest

def armsAsCalls : List (Expr × Expr) → List (Expr × Expr)
  | [] => []
  | (condition, value) :: rest => (condition.asCalls, value.asCalls) :: armsAsCalls rest

end

namespace Engine

def value (E : Engine) (group : List E.Scope) (row : E.Scope) (e : Expr) : E.Value := E.eval group row e.asCalls

/-- An engine that computes exactly with rational numbers; a cast does not change them. -/
structure Exact (E : Engine) (num : ℚ → E.Datum) : Prop where
  inj : Function.Injective num
  int : ∀ n, E.int n = num n
  count : ∀ n, E.count n = num n
  sum : ∀ numbers : Multiset ℚ, E.sum (numbers.map num) = num numbers.sum
  add : ∀ a b, E.operate .add (num a) (num b) = some (num (a + b))
  sub : ∀ a b, E.operate .sub (num a) (num b) = some (num (a - b))
  div : ∀ a b, b ≠ 0 → E.operate .div (num a) (num b) = some (num (a / b))
  cast : ∀ v type, E.call "CAST" [v, type] = v
  nullIf : ∀ v w, E.call "NULLIF" [v, w] = if v = w then none else v

def admits (E : Engine) (group : List E.Scope) (filter : Option Expr) (row : E.Scope) : Bool :=
  filter.all fun condition => E.holds (E.value group row condition)

section Pieces

variable {E : Engine} {num : ℚ → E.Datum} {group : List E.Scope} {filter : Option Expr} {keyOf : E.Scope → E.Datum}

def keys (E : Engine) (group : List E.Scope) (filter : Option Expr) (keyOf : E.Scope → E.Datum) : Finset E.Datum :=
  ((group.filter (E.admits group filter)).map keyOf).toFinset

/-- What the pieces of a symmetric sum are over the rows of a group: rows of one key have one amount, and neither the
hashes nor the hashes with the amounts of two keys are the same. -/
structure Pieces (E : Engine) (num : ℚ → E.Datum) (group : List E.Scope) (s : Dialect.SymmetricSum) (key value : Expr)
    (keyOf : E.Scope → E.Datum) (amount : E.Datum → Option ℚ) (hash : E.Datum → ℚ) : Prop where
  key : ∀ r ∈ group, E.value group r key = some (keyOf r)
  value : ∀ r ∈ group, E.value group r value = (amount (keyOf r)).map num
  hashed : ∀ r ∈ group, E.value group r s.hash = some (num (hash (keyOf r)))
  scaled : ∀ r ∈ group, E.value group r s.value = some (num ((amount (keyOf r)).getD 0 * s.scale.getD 1))
  scale : s.scale ≠ some 0
  apart : Set.InjOn hash {k | ∃ r ∈ group, keyOf r = k}
  sumsApart : Set.InjOn (fun k => hash k + (amount k).getD 0 * s.scale.getD 1) {k | ∃ r ∈ group, keyOf r = k}

theorem value_cast (r : E.Scope) (a : Expr) (type : String) (kind : Dialect.CastKind) :
    E.value group r (.cast a type kind) = E.call kind.keyword [E.value group r a, some (E.string type)] := by
  cases kind <;> rfl

theorem value_binary (r : E.Scope) (op : BinaryOp) (a b : Expr) :
    E.value group r (.binary op a b) = E.binary op (E.value group r a) (E.value group r b) := rfl

theorem value_parenthesized (r : E.Scope) (e : Expr) : E.value group r e.parenthesized = E.value group r e := by
  unfold Expr.parenthesized
  split <;> rfl

theorem value_matching (r : E.Scope) (x : Expr) : E.value group r (Dialect.SymmetricSum.matching filter x) =
    if E.admits group filter r then E.value group r x else none := by
  cases filter <;> rfl

theorem value_aggregate (row : E.Scope) (function : String) {aggregate : List E.Datum → E.Value}
    (is : E.aggregate? function = some aggregate) (rows : (group.filterMap fun r => E.value group r x) = values) :
    E.value group row (.call function [x] distinct) = aggregate (if distinct then values.dedup else values) := by
  rw [← rows]
  simp only [value, Expr.asCalls, eval, is]
  rfl

theorem filterMap_matching (filter : Option Expr) {x : Expr} {f : E.Scope → E.Datum} (each : ∀ r ∈ group, E.value group r x = some (f r)) :
    (group.filterMap fun r => E.value group r (Dialect.SymmetricSum.matching filter x)) =
      (group.filter (E.admits group filter)).map f := by
  rw [← filterMap_eq_map, filterMap_filter]
  refine filterMap_congr fun r mem => ?_
  rw [value_matching, each r mem]
  rfl

theorem sum_distinct (exact : E.Exact num) {x : Expr} {g : E.Datum → ℚ}
    (each : ∀ r ∈ group, E.value group r x = some (num (g (keyOf r))))
    (apart : Set.InjOn g {k | ∃ r ∈ group, keyOf r = k}) (filter : Option Expr) (row : E.Scope) :
    E.value group row (.sumDistinct (Dialect.SymmetricSum.matching filter x)) =
      if E.keys group filter keyOf = ∅ then none else some (num (∑ k ∈ E.keys group filter keyOf, g k)) := by
  have image : ((group.filter (E.admits group filter)).map fun r => num (g (keyOf r))).toFinset =
      (E.keys group filter keyOf).image (num ∘ g) := by
    ext
    simp [keys]
  have injective : Set.InjOn (num ∘ g) (E.keys group filter keyOf) := by
    refine exact.inj.comp_injOn (apart.mono fun k mem => ?_)
    obtain ⟨r, given, same⟩ := mem_map.mp (mem_toFinset.mp mem)
    exact ⟨r, (mem_filter.mp given).1, same⟩
  have values : E.sum ((group.filter (E.admits group filter)).map fun r => num (g (keyOf r))).dedup =
      num (∑ k ∈ E.keys group filter keyOf, g k) := by
    rw [← toFinset_val, image, Finset.image_val_of_injOn injective, ← Multiset.map_map, exact.sum]
    rfl
  rw [Expr.sumDistinct, value_aggregate row "SUM" rfl (filterMap_matching filter each), if_pos rfl, present, values]
  simp [keys]

theorem count_distinct {x : Expr} (each : ∀ r ∈ group, E.value group r x = some (keyOf r)) (row : E.Scope) :
    E.value group row (.countDistinct (.caseWhen condition x)) = some (E.count (E.keys group (some condition) keyOf).card) := by
  refine (value_aggregate row "COUNT" rfl (filterMap_matching (some condition) each)).trans ?_
  rw [if_pos rfl, keys, card_toFinset]

variable {s : Dialect.SymmetricSum} {key value : Expr} {amount : E.Datum → Option ℚ} {hash : E.Datum → ℚ}

theorem value_total (exact : E.Exact num) (pieces : E.Pieces num group s key value keyOf amount hash)
    (filter : Option Expr) (row : E.Scope) : E.value group row (s.total filter) = if E.keys group filter keyOf = ∅ then none
      else some (num (∑ k ∈ E.keys group filter keyOf, (amount k).getD 0)) := by
  have sums : ∀ r ∈ group, E.value group r (.binary .add s.hash s.value) =
      some (num (hash (keyOf r) + (amount (keyOf r)).getD 0 * s.scale.getD 1)) := by
    intro r mem
    rw [value_binary, pieces.hashed r mem, pieces.scaled r mem]
    exact exact.add _ _
  have withValue := sum_distinct exact sums pieces.sumsApart filter row
  have withoutValue := sum_distinct exact pieces.hashed pieces.apart filter row
  have difference : E.value group row (.plainCast (.binary .sub
      (.sumDistinct (Dialect.SymmetricSum.matching filter (.binary .add s.hash s.value)))
      (.sumDistinct (Dialect.SymmetricSum.matching filter s.hash))) s.resultType) =
      if E.keys group filter keyOf = ∅ then none
        else some (num ((∑ k ∈ E.keys group filter keyOf, (amount k).getD 0) * s.scale.getD 1)) := by
    rw [Expr.plainCast, value_cast, show Dialect.CastKind.keyword .cast = "CAST" from rfl, exact.cast, value_binary, withValue,
      withoutValue]
    split
    · rfl
    · show E.operate .sub _ _ = _
      rw [exact.sub, Finset.sum_add_distrib, add_sub_cancel_left, Finset.sum_mul]
  unfold Dialect.SymmetricSum.total
  cases scaled : s.scale with
  | none => simpa [scaled] using difference
  | some scale =>
    have nonzero : (scale : ℚ) ≠ 0 := fun zero => pieces.scale (by rw [scaled, Int.cast_eq_zero.mp zero])
    rw [value_binary, difference, show E.value group row (.int scale) = some (E.int scale) from rfl, exact.int]
    split
    · rfl
    · show E.operate .div _ _ = _
      rw [exact.div _ _ nonzero, scaled, Option.getD_some, mul_div_cancel_right₀ _ nonzero]

theorem admits_present (r : E.Scope) (value : Expr) : E.admits group (some (Dialect.SymmetricSum.present value filter)) r =
    ((E.value group r value).isSome && E.admits group filter r) := by
  have given : E.holds (E.value group r value.isNotNull) = (E.value group r value).isSome := by
    show E.holds (E.isNull (E.value group r value) true) = _
    cases E.value group r value <;> simp [holds, isNull, E.isTrue_bool]
  cases filter with
  | none => simpa [admits, Dialect.SymmetricSum.present] using given
  | some condition =>
    simp only [admits, Option.all_some, Dialect.SymmetricSum.present, Expr.and, value_binary, holds_and, given,
      value_parenthesized]

end Pieces

abbrev rational : Engine where
  Datum := ℚ
  decEq := inferInstance
  bool b := if b then 1 else 0
  isTrue q := q == 1
  isTrue_bool b := by cases b <;> rfl
  int n := n
  string s := s.length
  number _ := none
  float _ := none
  date _ := none
  timestamp _ := none
  operate
    | .add, a, b => some (a + b)
    | .sub, a, b => some (a - b)
    | .mul, a, b => some (a * b)
    | .div, a, b => if b = 0 then none else some (a / b)
    | _, _, _ => none
  negate q := some (-q)
  call
    | "NULLIF", [v, w] => if v = w then none else v
    | _, args => args.head?.join
  count n := n
  sum := Multiset.sum
  avg s := s.sum / s.card
  min _ := 0
  max _ := 0

theorem rational_exact : rational.Exact id where
  inj := Function.injective_id
  int _ := rfl
  count _ := rfl
  sum numbers := congrArg _ (Multiset.map_id numbers)
  add _ _ := rfl
  sub _ _ := rfl
  div _ _ nonzero := if_neg nonzero
  cast _ _ := rfl
  nullIf _ _ := rfl

def measured : List rational.Scope :=
  ([(1, some 5, some 0), (1, some 5, some 1), (2, none, some 1), (3, some 7, none)] : List (ℚ × Option ℚ × Option ℚ)).map
    fun (key, amount, passes) => [("t", [("key", some key), ("amount", amount), ("passes", passes)])]

end Engine

end SemanticLayer.Sql
