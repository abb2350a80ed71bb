import SemanticLayer.Proofs.Sql.Parts
import SemanticLayer.Sql.Layout

/-!
Reading the text of an expression back. Between brackets an expression is a row of operands and operators,
and a reader groups them by the strength of the operators, from the left where strengths are equal. A row is
grouped in at most one way, and it gives back the expression that was written if each operator holds its
operands tightly enough.
-/
namespace SemanticLayer.Sql

open List

/-- How tightly an operator holds its operands; a larger number is tighter. -/
def BinaryOp.strength : BinaryOp → Nat
  | or => 1
  | and => 2
  | eq | ne | lt | gt | lte | gte | like | notLike => 4
  | add | sub | concat => 5
  | mul | div | mod => 6

def UnaryOp.strength : UnaryOp → Nat
  | not => 3
  | neg => 7

def operandStrength : Nat := 8

/-- Operators after their operand. A text that starts with a sign is one, together with what it adds. -/
inductive Trailing where
  | isNull (negated : Bool)
  | isIn (values : List Expr) (negated : Bool)
  | text (text : String)

def Trailing.strength : Trailing → Nat
  | isNull _ | isIn _ _ => 4
  | text _ => 5

inductive Between where
  | binary (op : BinaryOp)
  | nullSafeEq
  | text (text : String)

def Between.strength : Between → Nat
  | binary op => op.strength
  | nullSafeEq => 4
  | text _ => 5

def isShift (text : String) : Bool :=
  match text.toList with
  | ' ' :: sign :: ' ' :: _ => sign == '+' || sign == '-'
  | _ => false

def isSign (text : String) : Bool := text == " + " || text == " - "

/-- What an expression is to a reader: an operator with its operands, or an operand. -/
inductive Form where
  | operand
  | leading (op : UnaryOp) (x : Expr)
  | trailing (x : Expr) (op : Trailing)
  | between (left : Expr) (op : Between) (right : Expr)

def Form.strength : Form → Nat
  | operand => operandStrength
  | leading op _ => op.strength
  | trailing _ op => op.strength
  | between _ op _ => op.strength

/-- Calls, brackets and `CASE` are operands, whatever stands in them. -/
def Expr.form (d : Dialect) : Expr → Form
  | .binary op left right =>
    if op = .concat ∧ d.conventions.concatOperator = false then .operand else .between left (.binary op) right
  | .unary op x => .leading op x
  | .nullSafeEq left right => .between left .nullSafeEq right
  | .isNull x negated => .trailing x (.isNull negated)
  | .isIn x values negated => if values.isEmpty then .operand else .trailing x (.isIn values negated)
  | .sequence [x, .raw text] => if isShift text then .trailing x (.text text) else .operand
  | .sequence [left, .raw text, right] => if isSign text then .between left (.text text) right else .operand
  | _ => .operand

def Expr.strength (d : Dialect) (e : Expr) : Nat := (e.form d).strength

def Trailing.apply (x : Expr) : Trailing → Expr
  | isNull negated => .isNull x negated
  | isIn values negated => .isIn x values negated
  | text shift => .sequence [x, .raw shift]

def Between.apply (left right : Expr) : Between → Expr
  | binary op => .binary op left right
  | nullSafeEq => .nullSafeEq left right
  | text sign => .sequence [left, .raw sign, right]

section Forms

variable {d : Dialect} {e x left right : Expr}

theorem form_leading (is : e.form d = .leading op x) : e = .unary op x := by
  unfold Expr.form at is
  split at is
  case h_2 => cases is; rfl
  all_goals first
    | cases is
    | split at is <;> cases is

theorem form_trailing (is : e.form d = .trailing x op) : e = op.apply x := by
  unfold Expr.form at is
  split at is
  case h_4 => cases is; rfl
  all_goals first
    | cases is
    | split at is <;> cases is <;> rfl

theorem form_between (is : e.form d = .between left op right) : e = op.apply left right := by
  unfold Expr.form at is
  split at is
  case h_3 => cases is; rfl
  all_goals first
    | cases is
    | split at is <;> cases is <;> rfl

theorem mem_parts_leading (is : e.form d = .leading op x) : x ∈ e.parts := by
  rw [form_leading is]
  exact mem_cons_self

theorem mem_parts_trailing (is : e.form d = .trailing x op) : x ∈ e.parts := by
  rw [form_trailing is]
  cases op <;> exact mem_cons_self

theorem mem_parts_between (is : e.form d = .between left op right) : left ∈ e.parts ∧ right ∈ e.parts := by
  rw [form_between is]
  cases op <;> simp [Between.apply, Expr.parts]

theorem size_leading (is : e.form d = .leading op x) : sizeOf x < sizeOf e := by
  rw [form_leading is]
  simp only [Expr.unary.sizeOf_spec]
  omega

theorem size_trailing (is : e.form d = .trailing x op) : sizeOf x < sizeOf e := by
  rw [form_trailing is]
  cases op <;> simp [Trailing.apply] <;> omega

theorem size_between (is : e.form d = .between left op right) : sizeOf left < sizeOf e ∧ sizeOf right < sizeOf e := by
  rw [form_between is]
  cases op <;> simp [Between.apply] <;> omega

end Forms

inductive Item where
  | operand (e : Expr)
  | leading (op : UnaryOp)
  | trailing (op : Trailing)
  | between (op : Between)

def Item.strength : Item → Nat
  | operand _ => operandStrength
  | leading op => op.strength
  | trailing op => op.strength
  | between op => op.strength

def Expr.items (d : Dialect) (e : Expr) : List Item :=
  match is : e.form d with
  | .operand => [.operand e]
  | .leading op x => .leading op :: x.items d
  | .trailing x op => x.items d ++ [.trailing op]
  | .between left op right => left.items d ++ .between op :: right.items d
termination_by sizeOf e
decreasing_by
  · exact size_leading is
  · exact size_trailing is
  · exact (size_between is).1
  · exact (size_between is).2

/-- How a reader groups a row: an operator takes what is beside it, up to the next one that is looser. To the
left it also takes operators that are as strong as itself. -/
inductive Groups (d : Dialect) : List Item → Expr → Prop where
  | operand {e : Expr} (is : e.form d = .operand) : Groups d [.operand e] e
  | leading {e x : Expr} {op : UnaryOp} {row : List Item} (is : e.form d = .leading op x)
      (inner : Groups d row x) (holds : ∀ item ∈ row, op.strength ≤ item.strength) :
      Groups d (.leading op :: row) e
  | trailing {e x : Expr} {op : Trailing} {row : List Item} (is : e.form d = .trailing x op)
      (inner : Groups d row x) (holds : ∀ item ∈ row, op.strength ≤ item.strength) :
      Groups d (row ++ [.trailing op]) e
  | between {e x y : Expr} {op : Between} {left right : List Item} (is : e.form d = .between x op y)
      (first : Groups d left x) (second : Groups d right y)
      (before : ∀ item ∈ left, op.strength ≤ item.strength)
      (after : ∀ item ∈ right, op.strength < item.strength) : Groups d (left ++ .between op :: right) e

section Reading

variable {d : Dialect} {e x y : Expr} {row left right : List Item}

theorem groups_nonempty (groups : Groups d row e) : row ≠ [] := by
  cases groups <;> simp

theorem leading_ne_between (op : UnaryOp) (other : Between) : op.strength ≠ other.strength := by
  cases other with
  | binary other => cases op <;> cases other <;> decide
  | nullSafeEq => cases op <;> decide
  | text sign => cases op <;> simp [UnaryOp.strength, Between.strength]

theorem leading_ne_trailing (op : UnaryOp) (other : Trailing) : op.strength ≠ other.strength := by
  cases op <;> cases other <;> simp [UnaryOp.strength, Trailing.strength]

theorem leading_alone {after : List Item} (same : .leading op :: rest = before ++ item :: after)
    (nonempty : before ≠ []) (holds : ∀ item ∈ rest, op.strength ≤ item.strength)
    (held : ∀ other ∈ before, item.strength ≤ other.strength) : op.strength = item.strength := by
  cases before with
  | nil => exact (nonempty rfl).elim
  | cons first before =>
    obtain ⟨rfl, rfl⟩ := same
    have one := holds item (by simp)
    have other := held (.leading op) mem_cons_self
    exact Nat.le_antisymm one other

theorem same_split {item' : Item} {after : List Item} (same : before ++ item :: after = before' ++ item' :: after')
    (held : ∀ other ∈ before, item.strength ≤ other.strength)
    (holds : ∀ other ∈ after, item.strength < other.strength)
    (held' : ∀ other ∈ before', item'.strength ≤ other.strength)
    (holds' : ∀ other ∈ after', item'.strength < other.strength) :
    before = before' ∧ item = item' ∧ after = after' := by
  rcases append_eq_append_iff.mp same with ⟨middle, rfl, rest⟩ | ⟨middle, rfl, rest⟩
  · cases middle with
    | nil => simpa using rest
    | cons first middle =>
      obtain ⟨rfl, rfl⟩ := rest
      have one := held' item (by simp)
      have other := holds item' (by simp)
      omega
  · cases middle with
    | nil => simpa [eq_comm] using rest
    | cons first middle =>
      obtain ⟨rfl, rfl⟩ := rest
      have one := held item' (by simp)
      have other := holds' item (by simp)
      omega

/-- A row is grouped in one way only. -/
theorem groups_unique (groups : Groups d row x) : ∀ {y}, Groups d row y → x = y := by
  induction groups with
  | @operand e is =>
    intro y other
    generalize same : [Item.operand e] = row at other
    cases other with
    | operand => cases same; rfl
    | leading => cases same
    | trailing _ inner =>
      have nonempty := groups_nonempty inner
      simp [singleton_eq_append_iff] at same
    | between => simp [singleton_eq_append_iff] at same
  | @leading e x op row is inner holds ih =>
    intro y other
    generalize same : Item.leading op :: row = items at other
    cases other with
    | operand => cases same
    | leading is' inner' holds' =>
      cases same
      rw [form_leading is, form_leading is', ih inner']
    | @trailing _ _ op' _ is' inner' holds' =>
      exact (leading_ne_trailing op op' (leading_alone same (groups_nonempty inner') holds holds')).elim
    | @between _ _ _ op' _ _ is' first second before after =>
      exact (leading_ne_between op op' (leading_alone same (groups_nonempty first) holds before)).elim
  | @trailing e x op row is inner holds ih =>
    intro y other
    generalize same : row ++ [Item.trailing op] = items at other
    cases other with
    | operand =>
      have nonempty := groups_nonempty inner
      simp [append_eq_singleton_iff] at same
    | @leading _ _ op' _ is' inner' holds' =>
      exact (leading_ne_trailing op' op (leading_alone same.symm (groups_nonempty inner) holds' holds)).elim
    | trailing is' inner' holds' =>
      obtain ⟨rfl, last, _⟩ := same_split same holds nofun holds' nofun
      cases last
      rw [form_trailing is, form_trailing is', ih inner']
    | between is' first second before after =>
      obtain ⟨_, impossible, _⟩ := same_split same holds nofun before after
      cases impossible
  | @between e x y op left right is first second before after first_ih second_ih =>
    intro z other
    generalize same : left ++ Item.between op :: right = items at other
    cases other with
    | operand => simp [append_eq_singleton_iff] at same
    | @leading _ _ op' _ is' inner' holds' =>
      exact (leading_ne_between op' op (leading_alone same.symm (groups_nonempty first) holds' before)).elim
    | trailing is' inner' holds' =>
      obtain ⟨_, impossible, _⟩ := same_split same before after holds' nofun
      cases impossible
    | between is' first' second' before' after' =>
      obtain ⟨rfl, middle, rfl⟩ := same_split same before after before' after'
      cases middle
      rw [form_between is, form_between is', first_ih first', second_ih second']

theorem items_operand (is : e.form d = .operand) : e.items d = [.operand e] := by
  rw [Expr.items]
  split <;> simp_all

theorem items_leading (is : e.form d = .leading op x) : e.items d = .leading op :: x.items d := by
  rw [Expr.items]
  split <;> simp_all

theorem items_trailing (is : e.form d = .trailing x op) : e.items d = x.items d ++ [.trailing op] := by
  rw [Expr.items]
  split <;> simp_all

theorem items_between (is : e.form d = .between x op y) : e.items d = x.items d ++ .between op :: y.items d := by
  rw [Expr.items]
  split <;> simp_all

/-- The loosest operator of a row is the one that holds all of it. -/
theorem strength_least (groups : Groups d row e) : ∀ item ∈ row, e.strength d ≤ item.strength := by
  cases groups with
  | operand is =>
    intro item mem
    cases mem_singleton.mp mem
    simp [Expr.strength, is, Form.strength, Item.strength]
  | leading is _ holds =>
    simp only [Expr.strength, is, forall_mem_cons]
    exact ⟨Nat.le_refl _, holds⟩
  | trailing is _ holds =>
    simp only [Expr.strength, is, forall_mem_append, forall_mem_singleton]
    exact ⟨holds, Nat.le_refl _⟩
  | between is _ _ before after =>
    simp only [Expr.strength, is, forall_mem_append, forall_mem_cons]
    exact ⟨before, Nat.le_refl _, fun item mem => Nat.le_of_lt (after item mem)⟩

theorem strength_met (groups : Groups d row e) : ∃ item ∈ row, item.strength = e.strength d := by
  cases groups with
  | operand is => exact ⟨_, mem_cons_self, by simp [Expr.strength, is, Form.strength, Item.strength]⟩
  | leading is => exact ⟨_, mem_cons_self, by simp [Expr.strength, is, Form.strength, Item.strength]⟩
  | trailing is =>
    exact ⟨_, mem_append_right _ mem_cons_self, by
      simp [Expr.strength, is, Form.strength, Item.strength]⟩
  | between is =>
    exact ⟨_, mem_append_right _ mem_cons_self, by
      simp [Expr.strength, is, Form.strength, Item.strength]⟩

def Expr.Fits (d : Dialect) (e : Expr) : Prop :=
  match e.form d with
  | .operand => True
  | .leading op x => op.strength ≤ x.strength d
  | .trailing x op => op.strength ≤ x.strength d
  | .between left op right => op.strength ≤ left.strength d ∧ op.strength < right.strength d

theorem fits_operand (is : e.form d = .operand) : e.Fits d := by simp only [Expr.Fits, is]

theorem fits_leading (is : e.form d = .leading op x) :
    e.Fits d ↔ op.strength ≤ x.strength d := by simp only [Expr.Fits, is]

theorem fits_trailing (is : e.form d = .trailing x op) :
    e.Fits d ↔ op.strength ≤ x.strength d := by simp only [Expr.Fits, is]

theorem fits_between (is : e.form d = .between x op y) :
    e.Fits d ↔ op.strength ≤ x.strength d ∧ op.strength < y.strength d := by simp only [Expr.Fits, is]

theorem fits_of_groups (groups : Groups d row e) : e.Fits d := by
  cases groups with
  | operand is => exact fits_operand is
  | leading is inner holds =>
    obtain ⟨item, mem, same⟩ := strength_met inner
    rw [fits_leading is, ← same]
    exact holds item mem
  | trailing is inner holds =>
    obtain ⟨item, mem, same⟩ := strength_met inner
    rw [fits_trailing is, ← same]
    exact holds item mem
  | between is first second before after =>
    obtain ⟨item, mem, same⟩ := strength_met first
    obtain ⟨item', mem', same'⟩ := strength_met second
    rw [fits_between is, ← same, ← same']
    exact ⟨before item mem, after item' mem'⟩

/-- If all operators hold their operands, the row of an expression is grouped to the expression. -/
theorem groups_of_fits (d : Dialect) (e : Expr) (fits : e.Each (Expr.Fits d)) : Groups d (e.items d) e := by
  have here := fits.here
  have parts := (Expr.each_iff.mp fits).2
  cases is : e.form d with
  | operand =>
    rw [items_operand is]
    exact .operand is
  | leading op x =>
    have inner := groups_of_fits d x (parts x (mem_parts_leading is))
    rw [fits_leading is] at here
    rw [items_leading is]
    exact .leading is inner fun item mem => Nat.le_trans here (strength_least inner item mem)
  | trailing x op =>
    have inner := groups_of_fits d x (parts x (mem_parts_trailing is))
    rw [fits_trailing is] at here
    rw [items_trailing is]
    exact .trailing is inner fun item mem => Nat.le_trans here (strength_least inner item mem)
  | between left op right =>
    have first := groups_of_fits d left (parts left (mem_parts_between is).1)
    have second := groups_of_fits d right (parts right (mem_parts_between is).2)
    rw [fits_between is] at here
    rw [items_between is]
    exact .between is first second (fun item mem => Nat.le_trans here.1 (strength_least first item mem))
      fun item mem => Nat.lt_of_lt_of_le here.2 (strength_least second item mem)
termination_by sizeOf e
decreasing_by
  · exact size_leading is
  · exact size_trailing is
  · exact (size_between is).1
  · exact (size_between is).2

/-- The text of an expression and of everything in it is read as what was written, and as nothing else. -/
def Expr.ReadsBack (d : Dialect) (e : Expr) : Prop := e.Each fun x => ∀ y, Groups d (x.items d) y ↔ y = x

theorem readsBack_iff : e.ReadsBack d ↔ e.Each (Expr.Fits d) := by
  constructor
  · intro reads x occurs
    exact fits_of_groups ((reads x occurs x).mpr rfl)
  · intro fits x occurs y
    have groups := groups_of_fits d x fun z inside => fits z (inside.trans occurs)
    constructor
    · exact fun other => groups_unique other groups
    · rintro rfl
      exact groups

def Expr.bare? : Expr → Option Expr
  | .isNull x true => some x
  | .nullSafeEq x _ => some x
  | .sequence [x, .raw text] => if isShift text then some x else none
  | _ => none

def Expr.Sturdy (d : Dialect) (e : Expr) : Prop :=
  (∀ x ∈ e.bare?, e.strength d ≤ x.strength d) → e.Fits d

theorem Expr.Fits.sturdy (fits : e.Fits d) : e.Sturdy d := fun _ => fits

theorem form_shift (shift : isShift text = true) :
    (Expr.sequence [x, .raw text]).form d = .trailing x (.text text) := by
  rw [Expr.form, if_pos shift]

theorem Expr.Fits.bare (fits : e.Fits d) (is : e.bare? = some x) : e.strength d ≤ x.strength d := by
  unfold Expr.bare? at is
  split at is
  · cases is
    exact (fits_trailing rfl).mp fits
  · cases is
    exact ((fits_between rfl).mp fits).1
  · split at is
    · next shift =>
      cases is
      rw [Expr.strength, form_shift shift]
      exact (fits_trailing (form_shift shift)).mp fits
    · cases is
  · cases is

/-- Where all operators are sturdy, only operands that are taken bare can be torn apart. -/
theorem readsBack_of_sturdy (sturdy : e.Each (Expr.Sturdy d)) :
    e.ReadsBack d ↔ ∀ y : Expr, y.Occurs e → ∀ x ∈ y.bare?, y.strength d ≤ x.strength d := by
  rw [readsBack_iff]
  constructor
  · exact fun fits y occurs x is => (fits y occurs).bare is
  · exact fun held y occurs => sturdy y occurs (held y occurs)

end Reading

def Trailing.tokens (d : Dialect) : Trailing → List Token
  | isNull negated => [.space, .symbol (if negated then "IS NOT NULL" else "IS NULL")]
  | isIn values negated =>
    (if negated then [.space, .symbol "NOT"] else []) ++ spaced "IN" ++ [.symbol "("] ++
      exprListTokens d values ++ [.symbol ")"]
  | text shift => [.raw shift]

def Between.tokens : Between → List Token
  | binary op => [.space] ++ op.tokens ++ [.space]
  | nullSafeEq => [.space, .nullSafeEq, .space]
  | text sign => [.raw sign]

def Item.tokens (d : Dialect) : Item → List Token
  | operand e => e.tokens d
  | leading op => op.tokens
  | trailing op => op.tokens d
  | between op => op.tokens

theorem trailing_tokens {e : Expr} (is : e.form d = .trailing x op) : e.tokens d = x.tokens d ++ op.tokens d := by
  have same := form_trailing is
  subst same
  cases op with
  | isNull negated => rw [Trailing.apply, Expr.tokens, Trailing.tokens]
  | isIn values negated =>
    have nonempty : values.isEmpty = false := by
      cases h : values.isEmpty with
      | false => rfl
      | true => simp [Trailing.apply, Expr.form, h] at is
    rw [Trailing.apply, Expr.tokens, if_neg (by simp [nonempty]), Trailing.tokens]
    simp only [List.append_assoc]
  | text shift => simp [Trailing.apply, Trailing.tokens, Expr.tokens, sequenceTokens]

theorem between_tokens {e : Expr} (is : e.form d = .between left op right) :
    e.tokens d = left.tokens d ++ op.tokens ++ right.tokens d := by
  have same := form_between is
  subst same
  cases op with
  | binary op =>
    have written : ¬(op = .concat ∧ d.conventions.concatOperator = false) := by
      intro called
      simp [Between.apply, Expr.form, called] at is
    rw [Between.apply, Expr.tokens, if_neg written, Between.tokens]
    simp only [List.append_assoc]
  | nullSafeEq => rw [Between.apply, Expr.tokens, Between.tokens]
  | text sign => simp [Between.apply, Between.tokens, Expr.tokens, sequenceTokens]

theorem tokens_items (d : Dialect) (e : Expr) : e.tokens d = (e.items d).flatMap (Item.tokens d) := by
  cases is : e.form d with
  | operand => simp [items_operand is, Item.tokens]
  | leading op x =>
    have inner := tokens_items d x
    rw [items_leading is, flatMap_cons, ← inner, form_leading is]
    rfl
  | trailing x op =>
    have inner := tokens_items d x
    rw [items_trailing is, flatMap_append, ← inner, trailing_tokens is]
    simp [Item.tokens]
  | between left op right =>
    have first := tokens_items d left
    have second := tokens_items d right
    rw [items_between is, flatMap_append, flatMap_cons, ← first, ← second, between_tokens is]
    simp [Item.tokens]
termination_by sizeOf e
decreasing_by
  · exact size_leading is
  · exact size_trailing is
  · exact (size_between is).1
  · exact (size_between is).2

end SemanticLayer.Sql
