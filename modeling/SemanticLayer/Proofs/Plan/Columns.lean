import SemanticLayer.Proofs.Plan.Operators
import SemanticLayer.Proofs.Plan.Reading

/-!
The columns that scalar expressions and conditions of joins come to: just those that they mention, each under the
alias of the joins that lead to it.
-/
namespace SemanticLayer

open List

def Expr.ColumnsAt (place : List String) (ns : Namespace) (e : Expr) (table : Option String) (name : String) : Prop :=
  ∃ rest, e.Mentions ns rest name ∧ table = some (Plan.aliasOf (place ++ rest))

/-- The columns that the condition of a join comes to, with the joins that lead to them from its parent. -/
inductive Join.Mentions (parent : Namespace) (name : String) (j : Join) : List String → String → Prop where
  | correlation (is : j.correlation.condition? = some e)
      (inner : e.Mentions parent rest column) : j.Mentions parent name rest column
  | key {e : Expr} {key : String} {rest : List String} {column : String} (is : j.correlation = .key e)
      (isKey : j.source.primaryKey = some key)
      (inner : (Expr.field [key]).Mentions j.source.fields rest column) :
      j.Mentions parent name (name :: rest) column
  | filter {f : Filter} {rest : List String} {column : String} (mem : f ∈ j.source.filters)
      (inner : f.expr.Mentions j.source.fields rest column) : j.Mentions parent name (name :: rest) column

def Join.ColumnsAt (place : List String) (parent : Namespace) (name : String) (j : Join) (table : Option String)
    (column : String) : Prop :=
  ∃ rest, j.Mentions parent name rest column ∧ table = some (Plan.aliasOf (place ++ rest))

/-- The numbers of what can be reached in a namespace: definitions, conditions of joins, and filters of joined
sources. -/
structure Namespace.Numbers (ns : Namespace) (N : String → Prop) : Prop where
  definition : ∀ {place inner path joins owner d}, ns.within? place = some inner →
    Plan.definitionOf inner path = .ok (joins, owner, d) → d.Numbers N
  condition : ∀ {place parent name j}, ns.within? place = some parent → parent.lookup? name = some (.join j) →
    ∀ e ∈ j.correlation.condition?, e.Numbers N
  restriction : ∀ {place parent name j}, ns.within? place = some parent → parent.lookup? name = some (.join j) →
    ∀ f ∈ j.source.filters, f.expr.Numbers N

theorem Namespace.Numbers.any {ns : Namespace} : ns.Numbers fun _ => True :=
  ⟨fun _ _ _ _ => trivial, fun _ _ _ _ _ _ => trivial, fun _ _ _ _ _ _ => trivial⟩

theorem Flat.numbers (flat : Flat ns) : ns.Numbers N where
  definition {place inner path joins owner d} within defined := by
    obtain ⟨rfl, rfl⟩ := flat.joinless.within within
    obtain ⟨_, column, rfl⟩ := flat.definition defined
    exact Expr.numbers_leaf rfl nofun
  condition within found := by
    obtain ⟨rfl, rfl⟩ := flat.joinless.within within
    exact (flat.joinless _ _ found).elim
  restriction within found := by
    obtain ⟨rfl, rfl⟩ := flat.joinless.within within
    exact (flat.joinless _ _ found).elim

namespace Sql.Expr

variable {d : Dialect} {N : String → Prop} {A : Option String → String → Prop} {x : Expr}

structure Exactly (d : Dialect) (N : String → Prop) (A : Option String → String → Prop) (x : Expr) : Prop where
  neat : x.Neat d N A
  reads : ∀ {table name}, A table name → (column table name).Occurs x

structure Jointly (d : Dialect) (N : String → Prop) (A : Option String → String → Prop) (xs : List Expr) : Prop where
  neat : ∀ x ∈ xs, x.Neat d N A
  reads : ∀ {table name}, A table name → ∃ x ∈ xs, (column table name).Occurs x

theorem occurs_allOf (mem : x ∈ xs) (is : Plan.allOf? xs = some y) : x.Occurs y := by
  cases xs with
  | nil => cases mem
  | cons first rest =>
    cases is
    induction rest generalizing first x with
    | nil =>
      cases mem_singleton.mp mem
      exact .here
    | cons next rest ih =>
      obtain ⟨left, right⟩ := occurs_operation (a := first) .and
      rcases mem_cons.mp mem with rfl | mem
      · exact left.trans (ih _ mem_cons_self)
      rcases mem_cons.mp mem with rfl | mem
      · exact right.trans (ih _ mem_cons_self)
      · exact ih _ (mem_cons_of_mem _ mem)

theorem Jointly.allOf (jointly : Jointly d N A xs) (is : Plan.allOf? xs = some x) : x.Exactly d N A where
  neat := Sql.Expr.made_allOf jointly.neat x is
  reads reads := by
    obtain ⟨y, mem, occurs⟩ := jointly.reads reads
    exact occurs.trans (occurs_allOf mem is)

end Sql.Expr

namespace Plan

section Scalars

variable {root ns : Namespace} {place : List String} {N : String → Prop}

theorem definition_within (sound : FieldsSound root) (within : root.within? place = some ns)
    (defined : definitionOf ns path = .ok (joins, owner, d))
    (level : (Expr.field path).level? (Names.of ns) = some l) :
    root.within? (place ++ joins) = some owner ∧ d.level? (Names.of owner) = some l := by
  obtain ⟨joins', _, owner', d', _, inner, _, defined', level⟩ := (sound.within within).definition level
  rw [defined] at defined'
  cases defined'
  refine ⟨?_, level⟩
  rw [Namespace.within?_append, within]
  exact inner

theorem columnsAt_field (defined : definitionOf ns path = .ok (joins, owner, d)) :
    (Expr.field path).ColumnsAt place ns = d.ColumnsAt (place ++ joins) owner := by
  funext table name
  apply propext
  constructor
  · rintro ⟨_, mentions, rfl⟩
    cases mentions with
    | @field _ _ _ _ rest _ _ defined' inner =>
      rw [defined] at defined'
      cases defined'
      exact ⟨rest, inner, by rw [List.append_assoc]⟩
    | part mem _ => cases mem
  · rintro ⟨rest, inner, rfl⟩
    exact ⟨joins ++ rest, .field defined inner, by rw [List.append_assoc]⟩

theorem exactly_assemble (operator : isOperator e = true) (numbers : e.Numbers N)
    (parts : List.Forall₂ (fun p x => x.Exactly d N (p.ColumnsAt place ns)) e.parts xs)
    (is : assemble d place e xs = .ok y) : y.Exactly d N (e.ColumnsAt place ns) := by
  constructor
  · refine made_assemble (fun x mem => ?_) (fun name same => ?_) (fun text same => ?_) is
    · obtain ⟨p, given, exactly⟩ := exists_of_forall₂ parts mem
      refine exactly.neat.mono ?_
      rintro table name ⟨rest, mentions, rfl⟩
      exact ⟨rest, .part given mentions, rfl⟩
    · subst same
      exact Sql.Expr.each_column.mpr ⟨[], .column, by rw [append_nil]⟩
    · exact Sql.Expr.each_literal.mpr (numbers text (same ▸ .here))
  · rintro table name ⟨rest, mentions, rfl⟩
    cases mentions with
    | column =>
      cases is
      rw [append_nil]
      exact .here
    | field => cases operator
    | part mem inner =>
      obtain ⟨x, given, exactly⟩ := exists_of_forall₂ parts.flip mem
      exact (exactly.reads ⟨rest, inner, rfl⟩).trans (occurs_assemble operator parts.length_eq.symm is given)

/-- A scalar expression comes to the same in every state. It reads just what it mentions, and aggregates nothing. -/
theorem scalar_exactly {t : Target} (sound : FieldsSound t.tree.root) (own : t.tree.root.Numbers N) :
    ∀ (fuel : Nat) {place : List String} {ns : Namespace} {e : Expr}, t.tree.root.within? place = some ns →
    e.level? (Names.of ns) = some .scalar → e.Numbers N → Steady (t.compileWithin fuel place ns e) fun x =>
      x.Exactly t.dialect N (e.ColumnsAt place ns) ∧ x.Plain
  | 0, place, ns, e, _, _, _ => by
    intro c a c' run
    exact (not_gives_throw run).elim
  | fuel + 1, place, ns, e, within, level, numbers => by
    rw [Target.compileWithin]
    induction e using Expr.parts_induction with
    | step e ih =>
      cases operator : isOperator e with
      | true =>
        rw [compile_operator operator]
        refine .bind (.mapM (S := fun p x => x.Exactly t.dialect N (p.ColumnsAt place ns) ∧ x.Plain) fun p mem => ?_)
          fun xs parts => .ofDialect fun x is => ⟨?_, ?_⟩
        · obtain ⟨l, partLevel, scalar⟩ := Expr.level_parts level p mem
          exact ih p mem (scalar rfl ▸ partLevel) (numbers.part mem)
        · exact exactly_assemble operator numbers (parts.imp fun _ _ => And.left) is
        · refine made_assemble (fun x mem => ?_) (fun _ _ => Sql.Expr.each_column.mpr nofun)
            (fun _ _ => Sql.Expr.each_literal.mpr nofun) is
          obtain ⟨_, _, _, plain⟩ := exists_of_forall₂ parts mem
          exact plain
      | false =>
        cases e with
        | field path =>
          refine .bind (.ofExcept fun _ is => is) ?_
          rintro ⟨joins, owner, d⟩ defined
          obtain ⟨within', level'⟩ := definition_within sound within defined level
          rw [columnsAt_field defined]
          exact scalar_exactly sound own fuel within' level' (own.definition within defined)
        | aggregate => cases (Expr.aggregate_level level).1
        | filtered => cases (Expr.filtered_level level).1
        | ungroup => cases (Expr.ungroup_level level).1
        | _ => cases operator

end Scalars

section Joins

variable {t : Target} {place : List String} {parent : Namespace} {name : String} {j : Join} {N : String → Prop}

theorem conditions_jointly
    (filters : List.Forall₂ (fun f x => x.Exactly t.dialect N (f.expr.ColumnsAt (place ++ [name]) j.source.fields))
      j.source.filters ys) (neat : ∀ x ∈ xs, x.Neat t.dialect N (j.ColumnsAt place parent name))
    (reads : ∀ {rest column}, j.Mentions parent name rest column →
      (∃ x ∈ xs, (Sql.Expr.column (some (aliasOf (place ++ rest))) column).Occurs x) ∨
        ∃ f ∈ j.source.filters, ∃ inner, rest = name :: inner ∧ f.expr.Mentions j.source.fields inner column) :
    Sql.Expr.Jointly t.dialect N (j.ColumnsAt place parent name) (xs ++ ys) := by
  constructor
  · refine forall_mem_append.mpr ⟨neat, fun y mem => ?_⟩
    obtain ⟨f, given, exactly⟩ := exists_of_forall₂ filters mem
    refine exactly.neat.mono ?_
    rintro table column ⟨rest, mentions, rfl⟩
    exact ⟨name :: rest, .filter given mentions, by rw [List.append_assoc, singleton_append]⟩
  · rintro table column ⟨rest, mentions, rfl⟩
    rcases reads mentions with ⟨x, mem, occurs⟩ | ⟨f, given, inner, rfl, mentioned⟩
    · exact ⟨x, mem_append_left _ mem, occurs⟩
    · obtain ⟨y, mem, exactly⟩ := exists_of_forall₂ filters.flip given
      exact ⟨y, mem_append_right _ mem,
        exactly.reads ⟨inner, mentioned, by rw [List.append_assoc, singleton_append]⟩⟩

theorem joinConditions_exactly (sound : FieldsSound t.tree.root) (own : t.tree.root.Numbers N)
    (within : t.tree.root.within? place = some parent) (found : parent.lookup? name = some (.join j)) :
    Steady (joinConditions t (place ++ [name]) j)
      (Sql.Expr.Jointly t.dialect N (j.ColumnsAt place parent name)) := by
  have inner : t.tree.root.within? (place ++ [name]) = some j.source.fields := Namespace.within?_join within found
  obtain ⟨source, correlated⟩ := (sound.within within).joined found
  unfold Join.Correlated at correlated
  cases source with
  | mk _ _ _ key filtered _ =>
    have filters : Steady (j.source.filters.mapM fun f => t.compileAt (place ++ [name]) j.source.fields f.expr)
        (List.Forall₂ (fun f x => x.Exactly t.dialect N (f.expr.ColumnsAt (place ++ [name]) j.source.fields))
          j.source.filters) := .mapM fun f mem =>
            (scalar_exactly sound own _ inner (filtered f mem) (own.restriction within found f mem)).weaken fun _ => And.left
    unfold joinConditions
    rw [dropLast_concat]
    refine .bind (.ofExcept (Q := fun ns => ns = parent) fun ns is => ?_) ?_
    · have same := fieldsAt_within is
      rw [within] at same
      exact (Option.some.inj same).symm
    rintro _ rfl
    have numbers := own.condition within found
    cases condition : j.correlation with
    | key e =>
      rw [condition] at correlated numbers
      obtain ⟨level, isKey⟩ := correlated
      obtain ⟨keyName, is⟩ := Option.isSome_iff_exists.mp isKey
      simp only [is]
      refine .bind (scalar_exactly sound own _ within level (numbers e rfl)) fun left first => ?_
      refine .bind (scalar_exactly sound own _ inner (by rw [Expr.level?]; exact key keyName is) (Expr.numbers_leaf rfl fun _ is => by cases is))
        fun right second => ?_
      rw [pure_bind]
      refine .bind filters fun ys rest => .pure (conditions_jointly rest ?_ ?_)
      · intro x mem
        cases mem_singleton.mp mem
        refine Sql.Expr.made_operation .eq (first.1.neat.mono ?_) (second.1.neat.mono ?_)
        · rintro table column ⟨rest, mentions, rfl⟩
          exact ⟨rest, .correlation (by rw [condition]; rfl) mentions, rfl⟩
        · rintro table column ⟨rest, mentions, rfl⟩
          exact ⟨name :: rest, .key condition is mentions, by rw [List.append_assoc, singleton_append]⟩
      · intro rest column mentions
        obtain ⟨onLeft, onRight⟩ := Sql.Expr.occurs_operation .eq
        cases mentions with
        | correlation isCondition mentions =>
          rw [condition] at isCondition
          cases isCondition
          exact .inl ⟨_, mem_singleton_self _, (first.1.reads ⟨rest, mentions, rfl⟩).trans onLeft⟩
        | @key _ _ rest _ _ isKey mentions =>
          rw [is] at isKey
          cases isKey
          refine .inl ⟨_, mem_singleton_self _, (second.1.reads ⟨rest, mentions, ?_⟩).trans onRight⟩
          rw [List.append_assoc, singleton_append]
        | filter mem mentions => exact .inr ⟨_, mem, _, rfl, mentions⟩
    | on e =>
      rw [condition] at correlated numbers
      refine .bind (scalar_exactly sound own _ within correlated (numbers e rfl)) fun x exactly => ?_
      rw [pure_bind]
      refine .bind filters fun ys rest => .pure (conditions_jointly rest ?_ ?_)
      · intro y mem
        cases mem_singleton.mp mem
        refine exactly.1.neat.mono ?_
        rintro table column ⟨rest, mentions, rfl⟩
        exact ⟨rest, .correlation (by rw [condition]; rfl) mentions, rfl⟩
      · intro rest column mentions
        cases mentions with
        | correlation isCondition mentions =>
          rw [condition] at isCondition
          cases isCondition
          exact .inl ⟨x, mem_singleton_self _, exactly.1.reads ⟨rest, mentions, rfl⟩⟩
        | key isKey _ _ =>
          rw [condition] at isKey
          cases isKey
        | filter mem mentions => exact .inr ⟨_, mem, _, rfl, mentions⟩
    | free =>
      dsimp only
      rw [pure_bind]
      refine .bind filters fun ys rest => .pure (conditions_jointly rest (forall_mem_nil _) ?_)
      intro rest column mentions
      cases mentions with
      | correlation isCondition _ =>
        rw [condition] at isCondition
        cases isCondition
      | key isKey _ _ =>
        rw [condition] at isKey
        cases isKey
      | filter mem mentions => exact .inr ⟨_, mem, _, rfl, mentions⟩

end Joins

end Plan

end SemanticLayer
