import SemanticLayer.Elaborate.Typed
import SemanticLayer.Plan.JoinTree
import SemanticLayer.Proofs.Model.Slots

/-!
What the names of an expression may stand for, and the level that the expression has then. Names can be
added without changing the level of an expression, so a definition that was written against a namespace
keeps its level when the namespace is extended.
-/
namespace SemanticLayer

open List

section Outcome

variable {x : Except ε α}

theorem bind_eq_ok {f : α → Except ε β} (h : x >>= f = .ok b) : ∃ a, x = .ok a ∧ f a = .ok b := by
  cases x with
  | error e => cases h
  | ok a => exact ⟨a, rfl, h⟩

theorem map_eq_ok {f : α → β} (h : x.map f = .ok b) : ∃ a, x = .ok a ∧ f a = b := by
  cases x <;> cases h
  exact ⟨_, rfl, rfl⟩

end Outcome

/-- What expressions can refer to: fields, each with its level, joins, and stored columns. -/
structure Names where
  level : List String → Option Level
  joins : List String → Bool
  columns : String → Bool

instance : LE Names where
  le n m := (∀ path l, n.level path = some l → m.level path = some l) ∧
    (∀ path, n.joins path = true → m.joins path = true) ∧
    ∀ name, n.columns name = true → m.columns name = true

theorem Names.le_refl (n : Names) : n ≤ n := ⟨fun _ _ h => h, fun _ h => h, fun _ h => h⟩

theorem Names.le_trans {k : Names} (first : n ≤ m) (second : m ≤ k) : n ≤ k :=
  ⟨fun path l h => second.1 path l (first.1 path l h), fun path h => second.2.1 path (first.2.1 path h),
    fun name h => second.2.2 name (first.2.2 name h)⟩

namespace Level

def sup : Level → Level → Level
  | .scalar, l => l
  | .aggregate, _ => .aggregate

def both (a b : Option Level) : Option Level := do return (← a).sup (← b)

theorem both_some (x y : Level) : both (some x) (some y) = some (x.sup y) := rfl

theorem both_eq_some (h : both a b = some l) : ∃ x y, a = some x ∧ b = some y ∧ x.sup y = l := by
  cases a with
  | none => cases h
  | some x =>
    cases b with
    | none => cases h
    | some y => exact ⟨x, y, rfl, rfl, Option.some.inj h⟩

end Level

namespace Expr

open Level (both)

def column? : Expr → Option String
  | .column name => some name
  | _ => none

theorem column?_eq_some {e : Expr} (h : e.column? = some name) : e = .column name := by
  cases e <;> cases h
  rfl

mutual

/-- The level of an expression whose names are all known, if its parts may stand where they do. -/
def level? (n : Names) : Expr → Option Level
  | .literal _ | .now => some .scalar
  | .column name => if n.columns name then some .scalar else none
  | .field path => n.level path
  | .unary _ a | .cast a _ _ | .truncate a _ _ | .extract a _ | .isNull a _ => level? n a
  | .binary _ a b | .offset a b _ _ _ => both (level? n a) (level? n b)
  | .aggregate function locality arg =>
    if n.joins locality && (arg.isSome || function == .count) && levelOption n arg == some .scalar
    then some .aggregate else none
  | .filtered a condition =>
    if level? n a == some .aggregate && level? n condition == some .scalar then some .aggregate else none
  | .choose arms otherwise => both (levelArms n arms) (levelOption n otherwise)
  | .isIn a values _ => both (level? n a) (levelList n values)
  | .ungroup _ a _ => if level? n a == some .aggregate then some .aggregate else none
  | .call _ args => levelList n args

def levelOption (n : Names) : Option Expr → Option Level
  | none => some .scalar
  | some e => level? n e

def levelList (n : Names) : List Expr → Option Level
  | [] => some .scalar
  | e :: rest => both (level? n e) (levelList n rest)

def levelArms (n : Names) : List (Expr × Expr) → Option Level
  | [] => some .scalar
  | (condition, value) :: rest =>
    both (both (level? n condition) (level? n value)) (levelArms n rest)

end

theorem column_level (h : (Expr.column name).level? n = some l) : l = .scalar ∧ n.columns name = true := by
  rw [level?] at h
  split at h
  · next stored => exact ⟨(Option.some.inj h).symm, stored⟩
  · cases h

theorem aggregate_level (h : (Expr.aggregate function locality arg).level? n = some l) :
    l = .aggregate ∧ n.joins locality = true ∧ (arg.isSome = true ∨ function = .count) ∧
      levelOption n arg = some .scalar := by
  rw [level?] at h
  split at h
  · next ok =>
    simp only [Bool.and_eq_true, Bool.or_eq_true, beq_iff_eq] at ok
    exact ⟨(Option.some.inj h).symm, ok.1.1, ok.1.2, ok.2⟩
  · cases h

theorem filtered_level (h : (Expr.filtered a condition).level? n = some l) :
    l = .aggregate ∧ a.level? n = some .aggregate ∧ condition.level? n = some .scalar := by
  rw [level?] at h
  split at h
  · next ok =>
    simp only [Bool.and_eq_true, beq_iff_eq] at ok
    exact ⟨(Option.some.inj h).symm, ok⟩
  · cases h

theorem ungroup_level (h : (Expr.ungroup kind a fields).level? n = some l) :
    l = .aggregate ∧ a.level? n = some .aggregate := by
  rw [level?] at h
  split at h
  · next ok => exact ⟨(Option.some.inj h).symm, by simpa using ok⟩
  · cases h

end Expr

namespace FieldDef

def level? : FieldDef → Option Level
  | dimension _ => some .scalar
  | measure _ => some .aggregate
  | _ => none

def column? : FieldDef → Option String
  | dimension f => f.expr.column?
  | _ => none

theorem column?_eq_some {f : FieldDef} {name : String} (h : f.column? = some name) :
    ∃ x, f = .dimension x ∧ x.expr = .column name := by
  cases f with
  | dimension x => exact ⟨x, rfl, Expr.column?_eq_some h⟩
  | _ => cases h

def inner? (f : FieldDef) : Option Namespace := f.join?.map fun join => join.source.fields

theorem inner?_eq_some {inner : Namespace} {f : FieldDef} (h : f.inner? = some inner) :
    ∃ join, f = .join join ∧ join.source.fields = inner := by
  obtain ⟨join, found, same⟩ := Option.map_eq_some_iff.mp h
  cases f <;> cases found
  exact ⟨join, rfl, same⟩

end FieldDef

namespace Namespace

def within? : Namespace → List String → Option Namespace
  | ns, [] => some ns
  | ns, name :: rest => ((ns.lookup? name).bind FieldDef.inner?).bind fun inner => within? inner rest

def field? (ns : Namespace) (path : List String) : Option FieldDef :=
  path.getLast?.bind fun last => (ns.within? path.dropLast).bind fun owner => owner.lookup? last

def stores (ns : Namespace) (column : String) : Bool :=
  ns.entries.any fun slot => ((ns.lookup? slot.name).bind FieldDef.column?) == some column

end Namespace

def Names.of (ns : Namespace) : Names :=
  ⟨fun path => (ns.field? path).bind FieldDef.level?, fun path => (ns.within? path).isSome, ns.stores⟩

namespace Namespace

variable {ns : Namespace}

theorem stores_iff : ns.stores column = true ↔ ∃ name f, ns.lookup? name = some f ∧ f.column? = some column := by
  unfold stores
  rw [any_eq_true]
  constructor
  · rintro ⟨slot, _, stored⟩
    obtain ⟨f, found, is⟩ := Option.bind_eq_some_iff.mp (by simpa using stored)
    exact ⟨slot.name, f, found, is⟩
  · rintro ⟨name, f, found, is⟩
    obtain ⟨slot, mem, same, _⟩ := Slots.slot_of_lookup? found
    exact ⟨slot, mem, by simp [same, found, is]⟩

theorem within?_append (ns : Namespace) (path rest : List String) :
    ns.within? (path ++ rest) = (ns.within? path).bind fun inner => inner.within? rest := by
  induction path generalizing ns with
  | nil => rfl
  | cons name path ih =>
    simp only [cons_append, within?]
    cases (ns.lookup? name).bind FieldDef.inner? with
    | none => rfl
    | some inner => exact ih inner

theorem within?_cons_inv {inner : Namespace} (within : ns.within? (name :: rest) = some inner) :
    ∃ j, ns.lookup? name = some (.join j) ∧ within? j.source.fields rest = some inner := by
  obtain ⟨fields, joined, there⟩ := Option.bind_eq_some_iff.mp within
  obtain ⟨f, here, isInner⟩ := Option.bind_eq_some_iff.mp joined
  obtain ⟨j, rfl, rfl⟩ := FieldDef.inner?_eq_some isInner
  exact ⟨j, here, there⟩

theorem within?_cons (found : ns.lookup? name = some (.join j)) :
    ns.within? (name :: rest) = within? j.source.fields rest := by
  simp [within?, found, FieldDef.inner?, FieldDef.join?]

theorem within?_join (within : ns.within? place = some parent) (found : parent.lookup? name = some (.join j)) :
    ns.within? (place ++ [name]) = some j.source.fields := by
  rw [within?_append, within]
  exact within?_cons found

theorem field?_snoc (ns : Namespace) (path : List String) (last : String) :
    ns.field? (path ++ [last]) = (ns.within? path).bind fun owner => owner.lookup? last := by
  simp [field?]

theorem level_single (ns : Namespace) (name : String) :
    (Names.of ns).level [name] = (ns.lookup? name).bind FieldDef.level? := rfl

def crosses : Namespace → List String → Bool
  | _, [] => false
  | ns, name :: rest =>
    match ns.lookup? name with
    | some (.join j) => j.relationship.isMany || crosses j.source.fields rest
    | _ => false

theorem crosses_append {ns owner : Namespace} (within : ns.within? place = some owner) (rest : List String) :
    ns.crosses (place ++ rest) = (ns.crosses place || owner.crosses rest) := by
  induction place generalizing ns with
  | nil =>
    cases within
    rfl
  | cons name place ih =>
    obtain ⟨j, found, within⟩ := within?_cons_inv within
    simp [crosses, found, ih within, Bool.or_assoc]

theorem resolved_spec (h : resolveWith Slots.lookup? walked ns path = .ok r) :
    ∃ last, path = r.joinPath ++ [last] ∧ ns.within? r.joinPath = some r.owner ∧
      r.owner.lookup? last = some r.field ∧ r.crossesMany = ns.crosses r.joinPath := by
  induction path generalizing ns walked r with
  | nil => cases h
  | cons name rest ih =>
    cases rest with
    | nil =>
      rw [resolveWith] at h
      split at h
      · next field found =>
        cases h
        exact ⟨name, rfl, rfl, found, rfl⟩
      · cases h
    | cons next rest =>
      rw [resolveWith] at h
      · split at h
        · cases h
        · next join found =>
          obtain ⟨inner, hr, ⟨⟩⟩ := bind_eq_ok h
          obtain ⟨last, same, within, field, crosses⟩ := ih hr
          refine ⟨last, ?_, (within?_cons found).trans within, field, ?_⟩
          · simp [Resolved.under, same]
          · simp [Resolved.under, Resolved.crossesMany, Namespace.crosses, found, ← crosses]
        · cases h
      · simp

theorem resolved_of_within {owner : Namespace} (found : owner.lookup? last = some field) :
    ∀ (path walked : List String) (ns : Namespace),
    ns.within? path = some owner → ∃ r, resolveWith Slots.lookup? walked ns (path ++ [last]) = .ok r ∧
      r.joinPath = path ∧ r.owner = owner ∧ r.field = field
  | [], walked, ns, h => by
    cases h
    exact ⟨⟨[], [], owner, field⟩, by simp [resolveWith, found], rfl, rfl, rfl⟩
  | name :: rest, walked, ns, h => by
    obtain ⟨join, here, within⟩ := within?_cons_inv h
    obtain ⟨r, resolved, path, owned, same⟩ :=
      resolved_of_within found rest (walked ++ [name]) join.source.fields within
    refine ⟨r.under join name, ?_, by simp [Resolved.under, path], owned, same⟩
    have longer : rest ++ [last] ≠ [] := by simp
    rw [cons_append, resolveWith]
    · simp only [here, resolved]
      rfl
    · exact longer

theorem resolveWith_lookup (h : resolveWith Slots.get? walked ns path = .ok r) :
    resolveWith Slots.lookup? walked ns path = .ok r := by
  induction path generalizing ns walked r with
  | nil => cases h
  | cons name rest ih =>
    cases rest with
    | nil =>
      rw [resolveWith] at h ⊢
      split at h
      · next field found =>
        rw [Slots.lookup?_of_get? found]
        exact h
      · cases h
    | cons next rest =>
      rw [resolveWith] at h ⊢
      · split at h
        · cases h
        · next join found =>
          obtain ⟨inner, hr, h⟩ := bind_eq_ok h
          simp only [Slots.lookup?_of_get? found, ih hr]
          exact h
        · cases h
      all_goals simp

theorem resolveDefined_of_resolve (h : ns.resolve path = .ok r) :
    ns.resolveDefined path = .ok r := resolveWith_lookup h

/-- The path of a dimension or of a measure, and no other, has a definition, in the namespace that it belongs to. -/
theorem definitionOf_iff :
    Plan.definitionOf ns path = .ok (joins, owner, d) ↔ ∃ last x, path = joins ++ [last] ∧ ns.within? joins = some owner ∧
      (owner.lookup? last = some (.dimension x) ∨ owner.lookup? last = some (.measure x)) ∧ d = x.expr := by
  constructor
  · intro defined
    obtain ⟨r, h, defined⟩ := bind_eq_ok defined
    obtain ⟨last, split, within, found, _⟩ := resolved_spec h
    split at defined
    · next x is =>
      cases defined
      exact ⟨last, x, split, within, .inl (is ▸ found), rfl⟩
    · next x is =>
      cases defined
      exact ⟨last, x, split, within, .inr (is ▸ found), rfl⟩
    · cases defined
  · rintro ⟨last, x, rfl, within, found, rfl⟩
    unfold Plan.definitionOf resolveDefined
    rcases found with found | found
    all_goals
      obtain ⟨r, resolved, rfl, rfl, same⟩ := resolved_of_within found joins [] ns within
      rw [resolved]
      simp only [bind, Except.bind, same]
      rfl

theorem definitionOf_of_level (h : (Names.of ns).level path = some l) :
    ∃ place last owner field f, path = place ++ [last] ∧ ns.within? place = some owner ∧
      owner.lookup? last = some field ∧ field.level? = some l ∧
      (field = .dimension f ∨ field = .measure f) ∧
      Plan.definitionOf ns path = .ok (place, owner, f.expr) := by
  obtain ⟨field, found, leveled⟩ := Option.bind_eq_some_iff.mp h
  obtain ⟨last, ends, found⟩ := Option.bind_eq_some_iff.mp found
  obtain ⟨owner, within, found⟩ := Option.bind_eq_some_iff.mp found
  have split : path = path.dropLast ++ [last] := by
    rw [List.getLast?_eq_some_iff] at ends
    obtain ⟨start, rfl⟩ := ends
    simp
  cases field with
  | dimension f =>
    exact ⟨_, last, owner, _, f, split, within, found, leveled, .inl rfl,
      definitionOf_iff.mpr ⟨last, f, split, within, .inl found, rfl⟩⟩
  | measure f =>
    exact ⟨_, last, owner, _, f, split, within, found, leveled, .inr rfl,
      definitionOf_iff.mpr ⟨last, f, split, within, .inr found, rfl⟩⟩
  | join | view | nested => cases leveled

theorem level_of_definition (defined : Plan.definitionOf ns path = .ok (joins, owner, d)) :
    ∃ l, (Names.of ns).level path = some l := by
  obtain ⟨last, x, rfl, within, found, _⟩ := definitionOf_iff.mp defined
  show ∃ l, (ns.field? (joins ++ [last])).bind FieldDef.level? = some l
  rw [field?_snoc, within]
  rcases found with found | found
  · exact ⟨.scalar, by simp [found, FieldDef.level?]⟩
  · exact ⟨.aggregate, by simp [found, FieldDef.level?]⟩

theorem joinFrom_of_within {owner : Namespace} (found : owner.lookup? last = some (.join join)) :
    ∀ (path walked : List String) (ns : Namespace),
    ns.within? path = some owner → Plan.joinFrom walked ns (path ++ [last]) = .ok join
  | [], walked, ns, h => by
    cases h
    simp [Plan.joinFrom, found]
  | name :: rest, walked, ns, h => by
    obtain ⟨outer, here, within⟩ := within?_cons_inv h
    have tail := joinFrom_of_within found rest (walked ++ [name]) outer.source.fields within
    rw [cons_append, Plan.joinFrom]
    cases hr : rest ++ [last] with
    | nil => simp at hr
    | cons next more =>
      rw [hr] at tail
      simp only [here, tail]

theorem join_of_within {inner : Namespace} (nonempty : path ≠ []) (h : ns.within? path = some inner) :
    ∃ place last owner join, path = place ++ [last] ∧ ns.within? place = some owner ∧
      owner.lookup? last = some (.join join) ∧ join.source.fields = inner ∧
      ∀ walked, Plan.joinFrom walked ns path = .ok join := by
  obtain ⟨place, last, rfl⟩ := (eq_nil_or_concat' path).resolve_left nonempty
  rw [within?_append] at h
  obtain ⟨owner, within, joined⟩ := Option.bind_eq_some_iff.mp h
  obtain ⟨join, found, same⟩ := within?_cons_inv joined
  exact ⟨place, last, owner, join, rfl, within, found, Option.some_inj.mp same,
    fun walked => joinFrom_of_within found place walked ns within⟩

/-- Every field of one namespace is a field of the other, with the same level and the same fields behind
it, and stands for the same column. -/
def Extends (ns wider : Namespace) : Prop :=
  ∀ name f, ns.lookup? name = some f →
    ∃ g, wider.lookup? name = some g ∧ g.level? = f.level? ∧ g.inner? = f.inner? ∧ g.column? = f.column?

theorem Extends.refl (ns : Namespace) : ns.Extends ns := fun _ f found => ⟨f, found, rfl, rfl, rfl⟩

theorem Extends.trans {a : Namespace} (first : a.Extends b) (second : b.Extends c) : a.Extends c := by
  intro name f found
  obtain ⟨g, found, level, inner, column⟩ := first name f found
  obtain ⟨k, found, level', inner', column'⟩ := second name g found
  exact ⟨k, found, level'.trans level, inner'.trans inner, column'.trans column⟩

theorem within?_extends {inner : Namespace} (wide : ns.Extends wider) (h : ns.within? (name :: rest) = some inner) :
    wider.within? (name :: rest) = some inner := by
  rw [within?] at h ⊢
  obtain ⟨joined, isJoin, within⟩ := Option.bind_eq_some_iff.mp h
  obtain ⟨f, found, isInner⟩ := Option.bind_eq_some_iff.mp isJoin
  obtain ⟨g, found', _, same, _⟩ := wide name f found
  simp only [found', Option.bind_some, same, isInner]
  exact within

theorem names_le (wide : ns.Extends wider) : Names.of ns ≤ Names.of wider := by
  refine ⟨?_, ?_, ?_⟩
  · intro path l h
    obtain ⟨field, found, leveled⟩ := Option.bind_eq_some_iff.mp h
    rcases eq_nil_or_concat' path with rfl | ⟨place, last, rfl⟩
    · cases found
    · rw [field?_snoc] at found
      obtain ⟨owner, within, here⟩ := Option.bind_eq_some_iff.mp found
      show (wider.field? (place ++ [last])).bind FieldDef.level? = some l
      rw [field?_snoc]
      cases place with
      | nil =>
        cases within
        obtain ⟨g, found', same, _⟩ := wide last field here
        simp [within?, found', same, leveled]
      | cons name rest => simp [within?_extends wide within, here, leveled]
  · intro path h
    obtain ⟨inner, within⟩ := Option.isSome_iff_exists.mp h
    show (wider.within? path).isSome = true
    cases path with
    | nil => rfl
    | cons name rest => rw [within?_extends wide within]; rfl
  · intro column stored
    obtain ⟨name, f, found, is⟩ := stores_iff.mp stored
    obtain ⟨g, found', _, _, same⟩ := wide name f found
    exact stores_iff.mpr ⟨name, g, found', same.trans is⟩

end Namespace

end SemanticLayer
