import SemanticLayer.Proofs.Dialect.Neat
import SemanticLayer.Proofs.Sql.Dataflow

/-!
What the expression of a nest is made of: a query over the rows of the nest, or text around columns of these
rows where the dialect has a form of its own. Either way it makes a record of the fields of each row.
-/
namespace SemanticLayer

open List

def Dialect.NestSource.Reads (n : Dialect.NestSource) (table : Option String) (name : String) : Prop :=
  table = none ∨ table = some n.label ∧ (name ∈ n.fields ∨ name = n.orderColumn)

namespace Sql

open Dialect (NestSource commaSeparated)

theorem mem_commaSeparated (mem : e ∈ commaSeparated es) : e ∈ es ∨ e = .raw ", " := by
  induction es with
  | nil => cases mem
  | cons first rest ih =>
    cases rest with
    | nil => exact .inl mem
    | cons next rest =>
      rw [commaSeparated] at mem
      · rcases mem_cons.mp mem with rfl | mem
        · exact .inl mem_cons_self
        rcases mem_cons.mp mem with rfl | mem
        · exact .inr rfl
        exact (ih mem).imp_left (mem_cons_of_mem _)
      · nofun

section Neat

variable {d : Dialect} {N : String → Prop} {n : NestSource} {e : Expr}

theorem neat_nestColumn (mem : field ∈ n.fields) : (n.column field).Neat d N n.Reads :=
  Expr.each_column.mpr (.inr ⟨rfl, .inl mem⟩)

theorem neat_orderTerm : n.orderTerm.Neat d N n.Reads := Expr.each_column.mpr (.inr ⟨rfl, .inr rfl⟩)

theorem neat_text (long : 3 < parts.length) (each : ∀ x ∈ parts, x.Neat d N A) : (Expr.sequence parts).Neat d N A :=
  Expr.each_sequence.mpr ⟨Expr.node_long long, each⟩

/-- What collects the rows of a nest is put together from columns of these rows. -/
theorem nest_made {P : Expr → Prop} [closed : Expr.Closed d P]
    (columns : ∀ {table name}, n.Reads table name → P (.column table name))
    (built : d.nest n = .ok (n.select aggregate)) : P aggregate := by
  have raw (text : String) : P (.raw text) := closed.node rfl Expr.node_raw (by simp) (forall_mem_nil _)
  have order : P n.orderTerm := columns (.inr ⟨rfl, .inr rfl⟩)
  have value {field : String} (given : field ∈ n.fields) : P (n.column field) := columns (.inr ⟨rfl, .inl given⟩)
  have text {parts : List Expr} (long : 3 < parts.length) (each : ∀ x ∈ parts, P x) : P (.sequence parts) :=
    closed.node rfl (Expr.node_long long) (by simp) each
  have pairs (name : String) (plain : name ∉ Expr.aggregateNames := by decide) : P (.fn name n.keysAndValues) := by
    refine closed.node rfl (Expr.node_call plain) (fun _ _ _ is => by cases is; exact plain) fun x mem => ?_
    obtain ⟨field, given, mem⟩ := mem_flatMap.mp mem
    simp only [mem_cons, not_mem_nil, or_false] at mem
    rcases mem with rfl | rfl
    · exact closed.node rfl (Expr.node_literal.mpr fun _ is => by cases is) (by simp [Expr.string]) (forall_mem_nil _)
    · exact value given
  cases d with
  | duckdb =>
    cases built
    refine text (by simp) fun x mem => ?_
    simp only [mem_append, mem_cons, not_mem_nil, or_false] at mem
    rcases mem with (rfl | mem) | rfl | rfl | rfl
    · exact raw _
    · rcases mem_commaSeparated mem with mem | rfl
      · obtain ⟨field, given, rfl⟩ := mem_map.mp mem
        refine closed.node rfl (Expr.node_triple rfl rfl) (by simp) ?_
        simpa [Expr.parts, Expr.ofColumn, raw, value given] using columns (.inl rfl)
      · exact raw _
    · exact raw _
    · exact order
    · exact raw _
  | postgres | snowflake =>
    cases built
    refine text (by simp) fun x mem => ?_
    simp only [mem_cons, not_mem_nil, or_false] at mem
    rcases mem with rfl | rfl | rfl | rfl | rfl
    on_goal 2 => exact pairs _
    all_goals first | exact raw _ | exact order
  | bigquery | mysql => cases built

theorem nest_neat (built : d.nest n = .ok e) : (∃ aggregate, e = n.select aggregate ∧ aggregate.Neat d N n.Reads) ∨
    ∀ A, (∀ table name, n.Reads table name → A table name) → (∀ x ∈ n.predicate, x.Neat d N A) → e.Neat d N A := by
  have order : n.orderTerm.Neat d N n.Reads := neat_orderTerm
  cases d with
  | duckdb | postgres | snowflake =>
    cases built
    exact .inl ⟨_, rfl, nest_made (fun reads => Expr.each_column.mpr reads) rfl⟩
  | bigquery =>
    cases built
    refine .inr fun A le rows => neat_text (by simp; omega) fun x mem => ?_
    simp only [mem_append, mem_cons, not_mem_nil, or_false] at mem
    rcases mem with (((rfl | mem) | rfl | rfl | rfl | rfl) | mem) | rfl | rfl | rfl
    · simp
    · rcases mem_commaSeparated mem with mem | rfl
      · obtain ⟨field, given, rfl⟩ := mem_map.mp mem
        exact (neat_nestColumn given).mono le
      · simp
    · simp
    · exact Expr.each_column.mpr (le _ _ (.inl rfl))
    · simp
    · exact Expr.each_column.mpr (le _ _ (.inl rfl))
    · split at mem
      · next predicate is =>
        simp only [mem_cons, not_mem_nil, or_false] at mem
        rcases mem with rfl | rfl
        · simp
        · exact rows x is
      · cases mem
    · simp
    · exact order.mono le
    · simp
  | mysql => cases built

end Neat

section Text

variable {d : Dialect} {N : String → Prop} {n : NestSource} {e : Expr}

theorem quiet_of_neat (neat : e.Neat d N A) (labelled : ∀ name, ¬A none name) : e.Quiet := by
  intro text inside t spells
  obtain ⟨name, occurs⟩ := spells.occurs
  exact labelled name (neat _ (occurs.trans inside))

theorem quiet_nestColumn : (n.column field).Quiet := by
  simp [NestSource.column, Expr.ofTable]

theorem bare_commaSeparated (each : ∀ x ∈ es, x.bareName? = none) :
    (commaSeparated es).filterMap Expr.bareName? = [] := by
  refine filterMap_eq_nil_iff.mpr fun x mem => ?_
  rcases mem_commaSeparated mem with mem | rfl
  · exact each x mem
  · rfl

theorem bareName?_of_neat (neat : e.Neat d N A) (labelled : ∀ name, ¬A none name) : e.bareName? = none := by
  cases is : e.bareName? with
  | none => rfl
  | some name =>
    unfold Expr.bareName? at is
    split at is
    · exact (labelled _ neat.here).elim
    · cases is

theorem text_spells (each : ∀ x ∈ restriction, x.Quiet ∧ x.bareName? = none) {text : Expr}
    (inside : text.Occurs (.sequence ([.raw "ARRAY(SELECT AS STRUCT "] ++
      commaSeparated (n.fields.map n.column) ++ [.raw " FROM ", .ofColumn n.cte, .raw " AS ", .ofColumn n.label] ++
      restriction ++ [.raw " ORDER BY ", n.orderTerm, .raw ")"]))) (spells : text.Spells t) :
    t = ⟨.cte n.cte, some n.label⟩ := by
  cases inside with
  | here =>
    obtain ⟨name, label, inside, rfl⟩ := spells.bare
    have bare : (commaSeparated (n.fields.map n.column)).filterMap Expr.bareName? = [] := by
      refine bare_commaSeparated fun x mem => ?_
      obtain ⟨field, _, rfl⟩ := mem_map.mp mem
      rfl
    have plain : restriction.filterMap Expr.bareName? = [] :=
      filterMap_eq_nil_iff.mpr fun x mem => (each x mem).2
    simp only [filterMap_append, bare, plain] at inside
    have same : [name, label] = [n.cte, n.label] := inside.eq_of_length rfl
    cases same
    rfl
  | @part p _ mem inside =>
    have quiet : p.Quiet := by
      simp only [Expr.parts, mem_append, mem_cons, not_mem_nil, or_false] at mem
      rcases mem with (((rfl | mem) | rfl | rfl | rfl | rfl) | mem) | rfl | rfl | rfl
      · simp
      · rcases mem_commaSeparated mem with mem | rfl
        · obtain ⟨field, _, rfl⟩ := mem_map.mp mem
          exact quiet_nestColumn
        · simp
      · simp
      · simp [Expr.ofColumn]
      · simp
      · simp [Expr.ofColumn]
      · exact (each p mem).1
      · simp
      · exact quiet_nestColumn
      · simp
    exact (quiet text inside t spells).elim

theorem quiet_keysAndValues : (Expr.fn function n.keysAndValues).Quiet := by
  refine Expr.each_call.mpr ⟨fun t => Expr.spells_call, fun x mem => ?_⟩
  obtain ⟨field, _, mem⟩ := mem_flatMap.mp mem
  simp only [mem_cons, not_mem_nil, or_false] at mem
  rcases mem with rfl | rfl
  · simp [Expr.string]
  · exact quiet_nestColumn

theorem nest_spells (built : d.nest n = .ok e) : (∃ aggregate, e = n.select aggregate ∧ aggregate.Quiet) ∨
    (∃ parts, e = .sequence parts) ∧ ((∀ x ∈ n.predicate, x.Neat d N fun table _ => table ≠ none) →
      ∀ (text : Expr) (t : TableRef), text.Occurs e → text.Spells t → t = ⟨.cte n.cte, some n.label⟩) := by
  have order : n.orderTerm.Quiet := quiet_nestColumn
  cases d with
  | duckdb =>
    cases built
    have bare : (commaSeparated (n.fields.map fun field =>
        Expr.sequence [.ofColumn field, .raw " := ", n.column field])).filterMap Expr.bareName? = [] := by
      refine bare_commaSeparated fun x mem => ?_
      obtain ⟨field, _, rfl⟩ := mem_map.mp mem
      rfl
    refine .inl ⟨_, rfl, Expr.each_sequence.mpr ⟨Expr.quiet_of_few ?_, fun x mem => ?_⟩⟩
    · rw [filterMap_append, filterMap_append, bare]
      exact Nat.zero_lt_two
    · simp only [mem_append, mem_cons, not_mem_nil, or_false] at mem
      rcases mem with (rfl | mem) | rfl | rfl | rfl
      · simp
      · rcases mem_commaSeparated mem with mem | rfl
        · obtain ⟨field, _, rfl⟩ := mem_map.mp mem
          have value : (n.column field).Quiet := quiet_nestColumn
          refine Expr.each_sequence.mpr ⟨Expr.quiet_of_few Nat.one_lt_two, ?_⟩
          simpa [Expr.ofColumn] using value
        · simp
      · simp
      · exact order
      · simp
  | postgres | snowflake =>
    cases built
    refine .inl ⟨_, rfl, Expr.each_sequence.mpr ⟨Expr.quiet_of_few Nat.zero_lt_two, fun x mem => ?_⟩⟩
    simp only [mem_cons, not_mem_nil, or_false] at mem
    rcases mem with rfl | rfl | rfl | rfl | rfl
    · simp
    · exact quiet_keysAndValues
    · simp
    · exact order
    · simp
  | bigquery =>
    cases built
    refine .inr ⟨⟨_, rfl⟩, fun rows text t inside spells => ?_⟩
    refine text_spells (fun x mem => ?_) inside spells
    split at mem
    · next predicate is =>
      simp only [mem_cons, not_mem_nil, or_false] at mem
      rcases mem with rfl | rfl
      · exact ⟨by simp, rfl⟩
      · have labelled : ∀ _ : String, ¬(none : Option String) ≠ none := fun _ other => other rfl
        exact ⟨quiet_of_neat (rows x is) labelled, bareName?_of_neat (rows x is) labelled⟩
    · cases mem
  | mysql => cases built

end Text

section Collected

def Expr.keyed (label : String) : List Expr → List String
  | .literal (.string key) :: .column (some table) name :: rest =>
    if table = label ∧ name = key then key :: Expr.keyed label rest else []
  | _ => []

def Expr.packed (label : String) : Expr → List String
  | .sequence [.column none key, .raw " := ", .column (some table) name] =>
    if table = label ∧ name = key then [key] else []
  | .call _ args _ => Expr.keyed label args
  | _ => []

def Expr.selected : List Expr → Option (String × List String)
  | .raw " FROM " :: .column none cte :: _ => some (cte, [])
  | .column (some _) name :: rest => (Expr.selected rest).map (Prod.map id (name :: ·))
  | _ :: rest => Expr.selected rest
  | [] => none

/-- The `WITH` query whose rows an expression collects, and the fields that it makes of each row. -/
def Expr.collected? : Expr → Option (String × List String)
  | .subquery q =>
    match q.items, q.source with
    | [⟨.sequence parts, none⟩], some ⟨.cte cte, some label⟩ => some (cte, parts.flatMap (Expr.packed label))
    | _, _ => none
  | .sequence (.raw "ARRAY(SELECT AS STRUCT " :: rest) => Expr.selected rest
  | _ => none

variable {d : Dialect} {n : NestSource} {e : Expr}

theorem flatMap_commaSeparated {α : Type} {f : Expr → List α} (plain : f (.raw ", ") = []) (es : List Expr) :
    (commaSeparated es).flatMap f = es.flatMap f := by
  fun_induction commaSeparated es with
  | case1 | case2 => rfl
  | case3 e rest _ ih => simp [plain, ih]

theorem packed_fields : (n.fields.map fun field => Expr.sequence [.ofColumn field, .raw " := ", n.column field]).flatMap
    (Expr.packed n.label) = n.fields := by
  induction n.fields with
  | nil => rfl
  | cons field rest ih => simpa [Expr.packed, Expr.ofColumn, NestSource.column, Expr.ofTable] using ih

theorem keyed_fields : Expr.keyed n.label n.keysAndValues = n.fields := by
  unfold NestSource.keysAndValues
  induction n.fields with
  | nil => rfl
  | cons field rest ih => simpa [Expr.keyed, Expr.string, NestSource.column, Expr.ofTable] using ih

theorem selected_fields (rest : List Expr) : ∀ fields : List String,
    Expr.selected (commaSeparated (fields.map n.column) ++ .raw " FROM " :: .ofColumn n.cte :: rest) =
      some (n.cte, fields)
  | [] => rfl
  | [_] => rfl
  | field :: next :: fields => by
    have later := selected_fields rest (next :: fields)
    have skip (rest : List Expr) : Expr.selected (.raw ", " :: rest) = Expr.selected rest := by simp [Expr.selected]
    show (Expr.selected (.raw ", " :: (commaSeparated ((next :: fields).map n.column) ++ _))).map (Prod.map id _) = _
    rw [skip, later]
    rfl

theorem nest_collected (built : d.nest n = .ok e) : e.collected? = some (n.cte, n.fields) := by
  cases d with
  | duckdb =>
    cases built
    simp [NestSource.select, Expr.collected?, flatMap_commaSeparated (f := Expr.packed n.label) rfl, packed_fields, Expr.packed, NestSource.orderTerm, Expr.ofTable]
  | postgres | snowflake =>
    cases built
    simp [NestSource.select, Expr.collected?, Expr.packed, Expr.fn, keyed_fields, NestSource.orderTerm, Expr.ofTable]
  | bigquery => 
    cases built
    simpa [Expr.collected?] using selected_fields _ n.fields
  | mysql => cases built

end Collected

end Sql

end SemanticLayer
