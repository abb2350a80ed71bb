import SemanticLayer.Proofs.Plan.Accepted
import SemanticLayer.Proofs.Plan.Reading
import SemanticLayer.Proofs.Sql.Joined

/-!
What `count()` counts. Joined rows repeat the rows of a relation, by joins beside it and by joins on the way to it.
The former are noticed, and keys are counted once; the latter are not.
-/
namespace SemanticLayer

open List hiding count

namespace Sql.Engine

variable (E : Engine)

def tracedTo (db : E.Database) (q : Query) (count : Nat) : List E.Traced :=
  (q.joins.take count).foldl (E.traceJoin db) (E.traceSource db q.source)

def rowsAt (label : String) (rows : List E.Traced) : List Nat := rows.filterMap (E.position label)

/-- An expression that tells the rows under an alias apart, and is null where there is none. -/
structure Identifies (rows : List E.Traced) (label : String) (key : Expr) : Prop where
  present : ∀ group, ∀ t ∈ rows, (E.eval group (E.untraced t) key).isSome = (E.position label t).isSome
  apart : ∀ group, ∀ t ∈ rows, ∀ t' ∈ rows,
    E.eval group (E.untraced t) key = E.eval group (E.untraced t') key ↔ E.position label t = E.position label t'

variable {E} {db : E.Database} {q : Query}

theorem tracedTo_all : E.tracedTo db q q.joins.length = E.traced db q := by
  rw [tracedTo, take_length, traced]

theorem tracedTo_succ (is : q.joins[i]? = some join) :
    E.tracedTo db q (i + 1) = E.traceJoin db (E.tracedTo db q i) join := by
  rw [tracedTo, take_add_one, is, foldl_append]
  rfl

section

variable (source : q.source = some table)

include source

theorem tracedTo_labels (i : Nat) :
    ∀ t ∈ E.tracedTo db q i, t.map Prod.fst =
      table.label.getD "" :: (q.joins.take i).map fun join => join.table.label.getD "" := by
  induction i with
  | zero =>
    intro t mem
    rw [tracedTo, source] at mem
    obtain ⟨row, _, rfl⟩ := mem_map.mp mem
    rfl
  | succ i ih =>
    cases is : q.joins[i]? with
    | none =>
      have same : q.joins.take (i + 1) = q.joins.take i := by rw [take_add_one, is]; simp
      rw [tracedTo, same]
      exact ih
    | some join =>
      rw [tracedTo_succ is, take_add_one, is]
      intro t mem
      rw [traceJoin_labels ih t mem]
      simp

theorem nodup_base : (E.rowsAt (table.label.getD "") (E.tracedTo db q 0)).Nodup := by
  have positions : E.rowsAt (table.label.getD "") (E.tracedTo db q 0) =
      (E.numbered (E.rowsOf db table.relation)).map Prod.fst := by
    rw [rowsAt, tracedTo, source, take_zero, foldl_nil, traceSource, filterMap_map,
      ← filterMap_eq_map]
    refine filterMap_congr fun row _ => ?_
    simp [position]
  rw [positions, numbered_fst]
  exact nodup_range

theorem traced_base :
    ∀ t ∈ E.traced db q, ∃ row rest, t = (table.label.getD "", some row) :: rest := by
  have start : ∀ t ∈ E.traceSource db q.source, ∃ row rest, t = (table.label.getD "", some row) :: rest := by
    intro t mem
    rw [source] at mem
    obtain ⟨row, _, rfl⟩ := mem_map.mp mem
    exact ⟨row, [], rfl⟩
  unfold traced
  generalize E.traceSource db q.source = rows at start
  induction q.joins generalizing rows with
  | nil => exact start
  | cons join rest ih =>
    refine ih _ fun t mem => ?_
    obtain ⟨before, given, mem⟩ := mem_flatMap.mp mem
    obtain ⟨added, _, rfl⟩ := mem_map.mp mem
    obtain ⟨row, others, rfl⟩ := start before given
    exact ⟨row, _, rfl⟩

theorem base_rows (part : group.Sublist (E.traced db q)) :
    (E.rowsAt (table.label.getD "") group).length = group.length := by
  rw [rowsAt, length_filterMap_eq_countP, countP_eq_length]
  intro t mem
  obtain ⟨row, rest, rfl⟩ := traced_base source t (part.subset mem)
  simp [position]

end

theorem eval_rows (group : List E.Scope) (row : E.Scope) :
    E.eval group row (.fn "COUNT" [.int 1]) = some (E.count group.length) := by
  have counted : E.eval group row (.fn "COUNT" [.int 1]) =
      some (E.count (group.filterMap fun _ => some (E.int 1)).length) := rfl
  rw [counted]
  simp

section Count

variable {label : String} {rows group : List E.Traced} {key : Expr} (identifies : E.Identifies rows label key)
  (part : group.Sublist rows)

include identifies part

theorem keys_length : ((group.map E.untraced).filterMap fun r => E.eval (group.map E.untraced) r key).length =
    (E.rowsAt label group).length := by
  rw [filterMap_map, rowsAt, length_filterMap_eq_countP, length_filterMap_eq_countP]
  exact countP_congr fun t mem => by
    rw [Function.comp_apply, identifies.present _ t (part.subset mem)]

theorem keys_dedup : ((group.map E.untraced).filterMap fun r => E.eval (group.map E.untraced) r key).dedup.length =
    (E.rowsAt label group).toFinset.card := by
  rw [card_toFinset, filterMap_map, rowsAt]
  obtain ⟨value, is⟩ : ∃ value, value = (fun r => E.eval (group.map E.untraced) r key) ∘ E.untraced := ⟨_, rfl⟩
  have present : ∀ t ∈ rows, (value t).isSome = (E.position label t).isSome := is ▸ identifies.present _
  have apart : ∀ t ∈ rows, ∀ t' ∈ rows, value t = value t' ↔ E.position label t = E.position label t' :=
    is ▸ identifies.apart _
  rw [← is]
  clear is
  induction group with
  | nil => rfl
  | cons t rest ih =>
    have here : t ∈ rows := part.subset mem_cons_self
    have later : rest.Sublist rows := (sublist_cons_self t rest).trans part
    have both := present t here
    cases position : E.position label t with
    | none =>
      rw [position, Option.isSome_none, Option.isSome_eq_false_iff, Option.isNone_iff_eq_none] at both
      rw [filterMap_cons_none both, filterMap_cons_none position]
      exact ih later
    | some i =>
      rw [position] at both
      obtain ⟨x, isKey⟩ := Option.isSome_iff_exists.mp both
      have again : x ∈ rest.filterMap value ↔ i ∈ rest.filterMap (E.position label) := by
        rw [mem_filterMap, mem_filterMap]
        refine exists_congr fun t' => and_congr_right fun mem => ?_
        rw [← position, ← isKey]
        exact apart t' (later.subset mem) t here
      rw [filterMap_cons_some isKey, filterMap_cons_some position]
      by_cases repeated : i ∈ rest.filterMap (E.position label)
      · rw [dedup_cons_of_mem (again.mpr repeated), dedup_cons_of_mem repeated]
        exact ih later
      · rw [dedup_cons_of_notMem (mt again.mp repeated), dedup_cons_of_notMem repeated,
          length_cons, length_cons, ih later]

end Count

end Sql.Engine

namespace Plan

open Sql (Engine)

def JoinTree.ManyTo (t : JoinTree) (path : List String) : Prop :=
  ∀ place, place ≠ [] → place <+: path → ∀ j, t.join place = .ok j → j.relationship = .many

def LaidAt (t : JoinTree) (path : List String) (join : Sql.Join) : Prop :=
  join.table.label = some (aliasOf path) ∧ ∃ j, t.join path = .ok j

/-- A `SELECT` that makes the joins of a tree in their order, under their aliases. -/
structure Laid (t : JoinTree) (q : Sql.Query) : Prop where
  source : ∃ table, q.source = some table ∧ table.label = some (aliasOf [])
  joins : List.Forall₂ (LaidAt t) t.ordered q.joins

/-- Rows that are related as the joins say: a `one` join finds at most one row beside another, and what a `many`
join finds belongs to one row of its parent. -/
structure Related (E : Engine) (db : E.Database) (t : JoinTree) (q : Sql.Query) : Prop where
  one : ∀ i path j join, t.ordered[i]? = some path → t.join path = .ok j → j.relationship = .one →
    q.joins[i]? = some join → ∀ row ∈ E.tracedTo db q i, (E.found db join row).length ≤ 1
  many : ∀ i path j join, t.ordered[i]? = some path → t.join path = .ok j → j.relationship = .many →
    q.joins[i]? = some join → ∀ row ∈ E.tracedTo db q i, ∀ row' ∈ E.tracedTo db q i, ∀ x ∈ E.found db join row,
      x ∈ E.found db join row' → ∃ k, E.position (aliasOf path.dropLast) row = some k ∧
        E.position (aliasOf path.dropLast) row' = some k

section Repetition

variable {E : Engine} {db : E.Database} {t : JoinTree} {q : Sql.Query}

theorem laid_labels (laid : List.Forall₂ (LaidAt t) paths joins) :
    joins.map (fun join => join.table.label.getD "") = paths.map aliasOf := by
  induction laid with
  | nil => rfl
  | cons first _ ih => rw [map_cons, map_cons, ih, first.1, Option.getD_some]

theorem Laid.labels (laid : Laid t q) (i : Nat) :
    ∀ row ∈ E.tracedTo db q i, row.map Prod.fst = aliasOf [] :: (t.ordered.take i).map aliasOf := by
  obtain ⟨table, source, label⟩ := laid.source
  intro row mem
  rw [Engine.tracedTo_labels source i row mem, label, map_take, laid_labels laid.joins, map_take]
  rfl

theorem Laid.at (laid : Laid t q) {i : Nat} (is : t.ordered[i]? = some path) :
    ∃ join, q.joins[i]? = some join ∧ LaidAt t path join := by
  obtain ⟨small, rfl⟩ := List.getElem?_eq_some_iff.mp is
  have bound : i < q.joins.length := laid.joins.length_eq ▸ small
  exact ⟨q.joins[i], List.getElem?_eq_getElem bound, (forall₂_iff_get.mp laid.joins).2 i small bound⟩

/-- A join that is not on the way to a path has one row for one, if the path is not fanned out. -/
theorem one_beside (single : t.fansOut path = false) (mem : place ∈ t.ordered) (beside : ¬place <+: path)
    (found : t.join place = .ok j) : j.relationship = .one := by
  have quiet := any_eq_false.mp single place (t.ordered_used mem)
  rw [found] at quiet
  have away : place.isPrefixOf path = false := by
    rw [Bool.eq_false_iff]
    exact fun starts => beside (List.isPrefixOf_iff_prefix.mp starts)
  cases kind : j.relationship with
  | one => rfl
  | many | cross => simp [away, kind, JoinKind.isMany] at quiet

abbrev JoinTree.Distinct (t : JoinTree) : Prop := (aliasOf [] :: t.ordered.map aliasOf).Nodup

theorem JoinTree.Distinct.new (distinct : t.Distinct) (is : t.ordered[i]? = some path) :
    path ∉ t.ordered.take i ∧ aliasOf path ∉ aliasOf [] :: (t.ordered.take i).map aliasOf := by
  have start : (aliasOf [] :: (t.ordered.take (i + 1)).map aliasOf).Nodup :=
    (((take_sublist _ _).map _).cons_cons _).nodup distinct
  rw [take_add_one, is, map_append] at start
  have fresh : aliasOf path ∉ aliasOf [] :: (t.ordered.take i).map aliasOf := fun mem =>
    (nodup_append.mp start).2.2 _ mem _ mem_cons_self rfl
  exact ⟨fun mem => fresh (mem_cons_of_mem _ (mem_map_of_mem mem)), fresh⟩

theorem nodup_many (laid : Laid t q) (distinct : t.Distinct) (related : Related E db t q)
    (is : t.ordered[i]? = some (place ++ [name])) (found : t.join (place ++ [name]) = .ok j)
    (many : j.relationship = .many) (isJoin : q.joins[i]? = some join)
    (label : join.table.label = some (aliasOf (place ++ [name])))
    (parents : (E.rowsAt (aliasOf place) (E.tracedTo db q i)).Nodup) :
    (E.rowsAt (aliasOf (place ++ [name])) (E.tracedTo db q (i + 1))).Nodup := by
  have apart : (E.tracedTo db q i).Pairwise fun row row' =>
      ∀ x ∈ E.found db join row, x ∉ E.found db join row' := by
    refine (pairwise_filterMap.mp parents).imp_of_mem ?_
    intro row row' given given' different x first second
    obtain ⟨k, one, two⟩ := related.many i _ j join is found many isJoin row given row' given' x first second
    rw [dropLast_concat] at one two
    exact different k one k two rfl
  have fresh : ∀ row ∈ E.tracedTo db q i, join.table.label.getD "" ∉ row.map Prod.fst := by
    intro row given
    rw [laid.labels i row given, label]
    exact (distinct.new is).2
  have nodup := Engine.nodup_new fresh apart
  rw [label] at nodup
  rwa [Engine.tracedTo_succ isJoin]

theorem nodup_one (laid : Laid t q) (related : Related E db t q) (is : t.ordered[i]? = some path)
    (found : t.join path = .ok j) (one : j.relationship = .one) (isJoin : q.joins[i]? = some join)
    (there : start = [] ∨ start ∈ t.ordered.take i) (nodup : (E.rowsAt (aliasOf start) (E.tracedTo db q i)).Nodup) :
    (E.rowsAt (aliasOf start) (E.tracedTo db q (i + 1))).Nodup := by
  rw [Engine.tracedTo_succ isJoin]
  refine (Engine.sublist_old (fun row given => ?_) fun row given => ?_).nodup nodup
  · rw [laid.labels i row given]
    rcases there with rfl | mem
    · exact mem_cons_self
    · exact mem_cons_of_mem _ (mem_map_of_mem mem)
  · exact related.one i path j join is found one isJoin row given

/-- No row of a relation is repeated, if joins on the way to it have many rows for one and those beside it one. The
invariant is about the longest start of the path that is joined so far. -/
theorem nodup_start (laid : Laid t q) (distinct : t.Distinct) (related : Related E db t q) {path : List String}
    (single : t.fansOut path = false) (many : t.ManyTo path) (enough : count ≤ t.ordered.length)
    (starts : start <+: path) (joined : start = [] ∨ start ∈ t.ordered.take count)
    (longest : ∀ place ∈ t.ordered.take count, place <+: path → place <+: start) :
    (E.rowsAt (aliasOf start) (E.tracedTo db q count)).Nodup := by
  have ordered : ParentsFirst [] t.ordered := usedSlots_parentsFirst _
  induction count generalizing start with
  | zero =>
    rcases joined with rfl | mem
    · obtain ⟨table, source, label⟩ := laid.source
      have base : (E.rowsAt (table.label.getD "") (E.tracedTo db q 0)).Nodup := Engine.nodup_base source
      rwa [label] at base
    · cases mem
  | succ count ih =>
    obtain ⟨place, here⟩ : ∃ place, t.ordered[count]? = some place := ⟨_, List.getElem?_eq_getElem enough⟩
    obtain ⟨join, isJoin, label, j, found⟩ := laid.at here
    obtain ⟨new, _⟩ := distinct.new here
    rw [take_add_one, here, Option.toList_some, mem_append, mem_singleton] at joined
    simp only [take_add_one, here, Option.toList_some, mem_append, mem_singleton] at longest
    have fewer : count ≤ t.ordered.length := Nat.le_of_succ_le enough
    by_cases onWay : place <+: path
    · have below : place <+: start := longest place (.inr rfl) onWay
      obtain ⟨above, name, parent, rfl, _, _⟩ := joinFrom_inv found
      have same : start = above ++ [name] := by
        rcases joined with rfl | before | same
        · simp at below
        · exact (new (ordered.starts before (by simp) below)).elim
        · exact same
      subst same
      refine nodup_many laid distinct related here found (many _ (by simp) onWay j found) isJoin label
        (ih fewer ((prefix_append above [name]).trans starts) ?_ fun other given way => ?_)
      · have first := ordered count _ here
        rwa [dropLast_concat] at first
      · rcases prefix_concat_iff.mp (longest other (.inl given) way) with rfl | shorter
        · exact (new given).elim
        · exact shorter
    · have before : start = [] ∨ start ∈ t.ordered.take count := by
        refine joined.imp_right fun mem => mem.resolve_right ?_
        rintro rfl
        exact onWay starts
      refine nodup_one laid related here found ?_ isJoin before
        (ih fewer starts before fun place given => longest place (.inl given))
      exact one_beside single (mem_of_getElem? here) onWay found

theorem nodup_rowsAt (laid : Laid t q) (distinct : t.Distinct) (related : Related E db t q)
    (read : path = [] ∨ path ∈ t.ordered) (single : t.fansOut path = false) (many : t.ManyTo path) :
    (E.rowsAt (aliasOf path) (E.traced db q)).Nodup := by
  have all : t.ordered.take t.ordered.length = t.ordered := take_length
  have length : t.ordered.length = q.joins.length := laid.joins.length_eq
  rw [← Engine.tracedTo_all, ← length]
  exact nodup_start laid distinct related single many (Nat.le_refl _) prefix_rfl (all.symm ▸ read)
    fun _ _ starts => starts

end Repetition

section Counting

variable {t : Target}

theorem planJoin_laid (run : Gives (planJoin p t path) s join s') : LaidAt t.tree path join := by
  obtain ⟨j, conditions, relation, found, _, _, rfl⟩ := planJoin_inv run
  unfold joinOn
  split <;> exact ⟨rfl, j, found⟩

theorem planFrame_laid (run : Gives (planFrame p t input conditions) s frame s') (items : List Sql.SelectItem) :
    Laid t.tree (frame.query items) := by
  obtain ⟨_, _, joins, _, made, rfl⟩ := planFrame_inv run
  obtain ⟨_, laid⟩ := gives_mapM_each made trivial
    fun path _ s join s' _ step => ⟨trivial, planJoin_laid step⟩
  exact ⟨⟨_, rfl, rfl⟩, laid⟩

/-- What `count()` comes to: the number of rows, of keys, or of different keys. -/
theorem count_inv (run : Gives (compileAggregate t follow .count path none) c x c') (unfiltered : c.filters = []) :
    (∃ key, Gives (distinctKey t follow path) c key c' ∧ t.tree.fansOut path = true ∧ x = .countDistinct key) ∨
    (∃ key, Gives (distinctKey t follow path) c key c' ∧ t.tree.fansOut path = false ∧ path ≠ [] ∧
      x = .fn "COUNT" [key]) ∨
    (t.tree.fansOut path = false ∧ path = [] ∧ x = .fn "COUNT" [.int 1]) := by
  unfold compileAggregate at run
  rw [gives_get_bind, unfiltered] at run
  cases fanned : t.tree.fansOut path with
  | true =>
    rw [fanned] at run
    obtain ⟨key, _, first, last⟩ := gives_bind.mp run
    obtain ⟨rfl, rfl⟩ := gives_pure.mp last
    exact .inl ⟨key, first, rfl, rfl⟩
  | false =>
    rw [fanned] at run
    simp only [Bool.and_false] at run
    split at run
    · next nonempty =>
      obtain ⟨key, _, first, last⟩ := gives_bind.mp run
      obtain ⟨rfl, rfl⟩ := gives_pure.mp last
      exact .inr (.inl ⟨key, first, rfl, by simpa using nonempty, rfl⟩)
    · next empty =>
      obtain ⟨rfl, _⟩ := gives_pure.mp run
      exact .inr (.inr ⟨rfl, by simpa using empty, rfl⟩)

end Counting

/-- What `count()` at a path comes to, in any group of joined rows. If the relation at the path is fanned out, or if
all joins on the way to it have many rows for one, this is the number of its rows that stand in the group. If it is
not fanned out, each joined row with a row of the relation counts. -/
theorem count_at_path {t : Target} {p : Planner} {input : Input} {conditions : List Sql.Expr}
    {s s' : Compilation × Progress} {frame : Frame} (planned : Gives (planFrame p t input conditions) s frame s')
    (distinct : t.tree.Distinct) {E : Engine} {db : E.Database} (related : Related E db t.tree (frame.query []))
    {path : List String} (read : path = [] ∨ path ∈ t.tree.ordered) {fuel : Nat} {c c' : Compilation} {x : Sql.Expr}
    (compiled : Gives (compileAggregate t (t.compileWithin fuel) .count path none) c x c')
    (unfiltered : c.filters = [])
    (keyed : ∀ key, Gives (distinctKey t (t.compileWithin fuel) path) c key c' →
      E.Identifies (E.traced db (frame.query [])) (aliasOf path) key)
    {group : List E.Traced} (part : group.Sublist (E.traced db (frame.query []))) (row : E.Scope) :
    (t.tree.fansOut path = true ∨ t.tree.ManyTo path →
      E.eval (group.map E.untraced) row x = some (E.count (E.rowsAt (aliasOf path) group).toFinset.card)) ∧
    (t.tree.fansOut path = false →
      E.eval (group.map E.untraced) row x = some (E.count (E.rowsAt (aliasOf path) group).length)) := by
  have laid : Laid t.tree (frame.query []) := planFrame_laid planned []
  have once (single : t.tree.fansOut path = false) (many : t.tree.ManyTo path) :
      (E.rowsAt (aliasOf path) group).length = (E.rowsAt (aliasOf path) group).toFinset.card := by
    have nodup := nodup_rowsAt laid distinct related read single many
    exact (List.toFinset_card_of_nodup ((part.filterMap _).nodup nodup)).symm
  rcases count_inv compiled unfiltered with ⟨key, isKey, fanned, rfl⟩ | ⟨key, isKey, single, _, rfl⟩ |
    ⟨single, rfl, rfl⟩
  · have different := Engine.keys_dedup (keyed key isKey) part
    refine ⟨fun _ => ?_, fun single => ?_⟩
    · rw [← different]
      rfl
    · rw [single] at fanned
      cases fanned
  · have present := Engine.keys_length (keyed key isKey) part
    have value : E.eval (group.map E.untraced) row (.fn "COUNT" [key]) =
        some (E.count (E.rowsAt (aliasOf path) group).length) := by
      rw [← present]
      rfl
    refine ⟨fun right => ?_, fun _ => value⟩
    rw [value, once single (right.resolve_left (by simp [single]))]
  · have value : E.eval (group.map E.untraced) row (.fn "COUNT" [.int 1]) =
        some (E.count (E.rowsAt (aliasOf []) group).length) := by
      obtain ⟨table, source, label⟩ := laid.source
      have base := Engine.base_rows source part
      rw [label, Option.getD_some] at base
      rw [Engine.eval_rows, base, List.length_map]
    refine ⟨fun right => ?_, fun _ => value⟩
    rw [value, once single (right.resolve_left (by simp [single]))]

section Purchases

def tally : Engine where
  Datum := Nat
  decEq := inferInstance
  bool := Bool.toNat
  isTrue := (· == 1)
  isTrue_bool b := by cases b <;> rfl
  int := Int.toNat
  string := String.length
  number _ := none
  float _ := none
  date _ := none
  timestamp _ := none
  operate op a b := if op = .eq then some (a == b).toNat else none
  negate _ := none
  call _ _ := none
  count := id
  sum _ := 0
  avg _ := 0
  min _ := 0
  max _ := 0

def tallyRow (cells : List (String × Nat)) : tally.Row := cells.map fun (column, n) => (column, some n)

def purchases : tally.Database where
  tables
    | "orders" => [tallyRow [("id", 1), ("customer_id", 7)], tallyRow [("id", 2), ("customer_id", 7)]]
    | "customers" => [tallyRow [("id", 7)]]
    | "items" => [tallyRow [("id", 3), ("order_id", 1)], tallyRow [("id", 4), ("order_id", 1)]]
    | _ => []
  ctes := []
  derived _ := []

def keyedTable (name : String) (columns : List String) : Source :=
  ⟨name, .table name none, Namespace.ofColumns (columns.map fun column => ⟨column, .number⟩) default, some "id", [],
    default⟩

def orderFields : Namespace :=
  ((keyedTable "orders" ["id", "customer_id"]).fields.insert "customer"
    (.join ⟨"customer", .one, keyedTable "customers" ["id"], .key (.field ["customer_id"]), default⟩)).insert "items"
    (.join ⟨"items", .many, keyedTable "items" ["id", "order_id"],
      .on (.binary .eq (.field ["id"]) (.field ["items", "order_id"])), default⟩)

def orderTarget : Target := ⟨.duckdb, ⟨orderFields, some "id", [["customer"], ["items"]]⟩⟩

def orderPlanner : Planner := ⟨.duckdb, fun _ => throw (.undefinedField "")⟩

def orderInput : Input := ⟨.table "orders", orderFields, some "id", []⟩

def orderFrame : Frame where
  source := ⟨.table "orders", some "base"⟩
  joins :=
    [⟨.left, ⟨.table "customers", some "customer"⟩,
        some (.binary .eq (.ofTable "base" "customer_id") (.ofTable "customer" "id"))⟩,
      ⟨.left, ⟨.table "items", some "items"⟩,
        some (.binary .eq (.ofTable "base" "id") (.ofTable "items" "order_id"))⟩]
  condition := none

theorem orders_framed : Gives (planFrame orderPlanner orderTarget orderInput []) (.empty, ⟨[], 0⟩) orderFrame
    (.empty, ⟨[], 0⟩) := rfl

theorem orders_ordered : orderTarget.tree.ordered = [["customer"], ["items"]] := by decide +kernel

theorem orders_related : Related tally purchases orderTarget.tree (orderFrame.query []) := by
  have customer : ∀ row ∈ tally.tracedTo purchases (orderFrame.query []) 0,
      (tally.found purchases orderFrame.joins[0] row).length ≤ 1 := by decide +kernel
  have items : ∀ row ∈ tally.tracedTo purchases (orderFrame.query []) 1,
      ∀ row' ∈ tally.tracedTo purchases (orderFrame.query []) 1, ∀ x ∈ tally.found purchases orderFrame.joins[1] row,
        x ∈ tally.found purchases orderFrame.joins[1] row' →
          tally.position "base" row = some 0 ∧ tally.position "base" row' = some 0 := by decide +kernel
  constructor
  · intro i path j join isPath found one isJoin
    match i with
    | 0 => cases isJoin; exact customer
    | 1 =>
      cases isPath
      cases found
      cases one
    | _ + 2 => cases isJoin
  · intro i path j join isPath found many isJoin
    match i with
    | 0 =>
      cases isPath
      cases found
      cases many
    | 1 =>
      cases isPath
      cases isJoin
      exact fun row given row' given' x first second => ⟨0, items row given row' given' x first second⟩
    | _ + 2 => cases isJoin

theorem items_identified
    (isKey : Gives (distinctKey orderTarget (orderTarget.compileWithin 3) ["items"]) .empty key .empty) :
    tally.Identifies (tally.traced purchases (orderFrame.query [])) "items" key := by
  cases isKey
  constructor
  · intro group
    show ∀ t ∈ tally.traced purchases (orderFrame.query []),
      (tally.read (tally.untraced t) "items" "id").isSome = (tally.position "items" t).isSome
    decide +kernel
  · intro group
    show ∀ t ∈ tally.traced purchases (orderFrame.query []), ∀ t' ∈ tally.traced purchases (orderFrame.query []),
      tally.read (tally.untraced t) "items" "id" = tally.read (tally.untraced t') "items" "id" ↔
        tally.position "items" t = tally.position "items" t'
    decide +kernel

theorem items_many : orderTarget.tree.ManyTo ["items"] := by
  intro place nonempty starts j found
  rcases prefix_concat_iff.mp (show place <+: [] ++ ["items"] from starts) with rfl | above
  · cases found
    rfl
  · exact (nonempty (prefix_nil.mp above)).elim

/-- The items are counted once each, also where an order has none. -/
theorem items_counted :
    Gives (planFrame orderPlanner orderTarget orderInput []) (.empty, ⟨[], 0⟩) orderFrame (.empty, ⟨[], 0⟩) ∧
    orderTarget.tree.Distinct ∧ Related tally purchases orderTarget.tree (orderFrame.query []) ∧
    ["items"] ∈ orderTarget.tree.ordered ∧
    Gives (compileAggregate orderTarget (orderTarget.compileWithin 3) .count ["items"] none) .empty
      (.fn "COUNT" [.ofTable "items" "id"]) .empty ∧
    (∀ key, Gives (distinctKey orderTarget (orderTarget.compileWithin 3) ["items"]) .empty key .empty →
      tally.Identifies (tally.traced purchases (orderFrame.query [])) (aliasOf ["items"]) key) ∧
    orderTarget.tree.ManyTo ["items"] ∧
    tally.eval ((tally.traced purchases (orderFrame.query [])).map tally.untraced) [] (.fn "COUNT" [.ofTable "items" "id"]) =
      some (tally.count (tally.rowsAt "items" (tally.traced purchases (orderFrame.query []))).toFinset.card) := by
  have distinct : orderTarget.tree.Distinct := by
    rw [JoinTree.Distinct, orders_ordered]
    decide +kernel
  have read : ["items"] ∈ orderTarget.tree.ordered := by simp [orders_ordered]
  have compiled : Gives (compileAggregate orderTarget (orderTarget.compileWithin 3) .count ["items"] none) .empty
      (.fn "COUNT" [.ofTable "items" "id"]) .empty := rfl
  refine ⟨orders_framed, distinct, orders_related, read, compiled, fun _ => items_identified, items_many, ?_⟩
  exact (count_at_path orders_framed distinct orders_related (.inr read) compiled rfl (fun _ => items_identified)
    (List.Sublist.refl _) []).1 (.inr items_many)

end Purchases

section Buyers

open Elaborate (Inputs document Built)

def orderColumns : Inputs :=
  ⟨"file:///orders.model", ⟨[("orders", .known [⟨"id", .number⟩, ⟨"customer_id", .number⟩]),
    ("customers", .known [⟨"id", .number⟩])], []⟩, fun _ => .duckdb, []⟩

def buyers : List Document.Statement :=
  let keyed (name : String) (body : List Document.SourceProperty) : Document.SourceExpr :=
    .refine (.table none name default) (.primaryKey ⟨"id", default⟩ :: body) default
  [.source ⟨"customers", default⟩ (keyed "customers" []) default,
    .query none
      ⟨.source (keyed "orders" [.join [⟨⟨"customers", default⟩, .one, some (.named ⟨"customers", default⟩),
          some (.key ⟨.field ⟨["customer_id"], default⟩, default⟩), default⟩]]),
        [.stage ⟨[.aggregate [.define ⟨⟨"n", default⟩,
          ⟨.aggregate .count (some ⟨["customers"], default⟩) none, default⟩, default⟩]], default⟩], default⟩ default]

def buyersQuery : Query :=
  let location : Location := ⟨"file:///orders.model", default⟩
  let keyed (name : String) (fields : Namespace) : Source := ⟨name, .table name none, fields, some "id", [], location⟩
  let customers := keyed "customers" (Namespace.ofColumns [⟨"id", .number⟩] location)
  ⟨none, keyed "orders"
      ((Namespace.ofColumns [⟨"id", .number⟩, ⟨"customer_id", .number⟩] location).insert "customers"
        (.join ⟨"customers", .one, customers, .key (.field ["customer_id"]), location⟩)),
    [.reduce [.measure ⟨"n", .aggregate .count ["customers"] none, .number, location⟩] [] [⟨"n", .desc⟩]
      ⟨[], none, none⟩], location⟩

theorem buyers_recorded : (document orderColumns ⟨buyers⟩).Records buyersQuery := by
  have queries : (document orderColumns ⟨buyers⟩).queries = [.ok buyersQuery] := by cbv
  exact .inr (queries ▸ mem_cons_self)

def buyersStatement : Sql.Query :=
  { Sql.Query.empty with
    items := [.named (.fn "COUNT" [.ofTable "customers" "id"]) "n"]
    source := some ⟨.table "orders", some "base"⟩
    joins := [⟨.left, ⟨.table "customers", some "customers"⟩,
      some (.binary .eq (.ofTable "base" "customer_id") (.ofTable "customers" "id"))⟩]
    orderBy := [⟨.ofColumn "n", .desc, some .last⟩] }

/-- A customer counts twice who has two orders. -/
theorem buyers_counted_twice : Built (document orderColumns ⟨buyers⟩) ∧
    (document orderColumns ⟨buyers⟩).Records buyersQuery ∧
    buyersQuery.plan .duckdb none = .ok buyersStatement ∧
    (purchases.tables "customers").map (tally.get · "id") = [some (7 : Nat)] ∧
    (tally.rowsAt "customers" (tally.traced purchases buyersStatement)).toFinset.card = 1 ∧
    tally.run purchases buyersStatement = [[("n", some (2 : Nat))]] := by
  refine ⟨.document _ _ nofun, buyers_recorded, rfl, rfl, ?_, ?_⟩
  · decide +kernel
  · rfl

end Buyers

end Plan

end SemanticLayer
