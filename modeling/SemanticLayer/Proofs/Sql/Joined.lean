import Mathlib.Data.Finset.Card
import Mathlib.Data.List.Range
import SemanticLayer.Proofs.Sql.Semantics

/-!
Which rows of which relations stand in a joined row. Rows are told apart by their position in their relation,
since a relation may hold equal rows.
-/
namespace SemanticLayer.Sql.Engine

open List

variable (E : Engine)

/-- A joined row: under each alias a row and its position, or nothing where a left join found none. -/
abbrev Traced : Type := List (String × Option (Nat × E.Row))

def untraced (t : E.Traced) : E.Scope := t.map fun (label, row) => (label, row.elim [] Prod.snd)

def position (label : String) (t : E.Traced) : Option Nat := (t.lookup label).join.map Prod.fst

def numbered (rows : List E.Row) : List (Nat × E.Row) := rows.zipIdx.map Prod.swap

def found (db : E.Database) (join : Join) (t : E.Traced) : List (Nat × E.Row) :=
  (E.numbered (E.rowsOf db join.table.relation)).filter fun row =>
    E.passes join.condition (E.untraced t ++ [(join.table.label.getD "", row.2)])

def matched (db : E.Database) (join : Join) (t : E.Traced) : List (Option (Nat × E.Row)) :=
  match join.type with
  | .cross => (E.found db join t).map some
  | .left => if (E.found db join t).isEmpty then [none] else (E.found db join t).map some

def traceJoin (db : E.Database) (rows : List E.Traced) (join : Join) : List E.Traced :=
  rows.flatMap fun t => (E.matched db join t).map fun row => t ++ [(join.table.label.getD "", row)]

def traceSource (db : E.Database) : Option TableRef → List E.Traced
  | none => [[]]
  | some table =>
    (E.numbered (E.rowsOf db table.relation)).map fun row => [(table.label.getD "", some row)]

def traced (db : E.Database) (q : Query) : List E.Traced := q.joins.foldl (E.traceJoin db) (E.traceSource db q.source)

variable {E} {db : E.Database}

theorem numbered_snd (rows : List E.Row) : (E.numbered rows).map Prod.snd = rows := by
  rw [numbered, map_map]
  exact zipIdx_map_fst 0 rows

theorem numbered_fst (rows : List E.Row) : (E.numbered rows).map Prod.fst = List.range rows.length := by
  rw [numbered, map_map, range_eq_range']
  exact zipIdx_map_snd 0 rows

theorem untraced_snoc (t : E.Traced) (label : String) (row : Option (Nat × E.Row)) :
    E.untraced (t ++ [(label, row)]) = E.untraced t ++ [(label, row.elim [] Prod.snd)] := by
  rw [untraced, map_append]
  rfl

theorem untraced_found (join : Join) (t : E.Traced) :
    (E.found db join t).map (fun row => E.untraced t ++ [(join.table.label.getD "", row.2)]) =
      ((E.rowsOf db join.table.relation).map fun row =>
        E.untraced t ++ [(join.table.label.getD "", row)]).filter (E.passes join.condition) := by
  conv_rhs => rw [← numbered_snd (E.rowsOf db join.table.relation), map_map, filter_map]
  rfl

theorem untraced_join (rows : List E.Traced) (join : Join) :
    (E.traceJoin db rows join).map E.untraced = E.joined db (rows.map E.untraced) join := by
  unfold traceJoin joined
  rw [map_flatMap, flatMap_map]
  congr 1
  funext t
  rw [map_map]
  simp only [Function.comp_def, untraced_snoc]
  rw [← untraced_found]
  unfold matched
  cases join.type with
  | cross =>
    rw [map_map]
    rfl
  | left =>
    simp only [isEmpty_map]
    split
    · rfl
    · rw [map_map]
      rfl

theorem traced_frame (q : Query) : (E.traced db q).map E.untraced = E.frame db q := by
  have source : (E.traceSource db q.source).map E.untraced = E.source db q.source := by
    cases q.source with
    | none => rfl
    | some table =>
      rw [traceSource, source]
      conv_rhs => rw [← numbered_snd (E.rowsOf db table.relation), map_map]
      rw [map_map]
      rfl
  unfold traced frame
  rw [← source]
  generalize E.traceSource db q.source = rows
  induction q.joins generalizing rows with
  | nil => rfl
  | cons join rest ih =>
    rw [foldl_cons, foldl_cons, ← untraced_join]
    exact ih _

theorem position_old (mem : label ∈ t.map Prod.fst) (other : String) (row : Option (Nat × E.Row)) :
    E.position label (t ++ [(other, row)]) = E.position label t := by
  obtain ⟨entry, given, same⟩ := mem_map.mp mem
  have found : (t.lookup label).isSome = true := lookup_isSome_iff.mpr ⟨entry, given, by simp [same]⟩
  obtain ⟨value, found⟩ := Option.isSome_iff_exists.mp found
  rw [position, position, lookup_append, found, Option.some_or]

theorem position_new (fresh : label ∉ t.map Prod.fst) (row : Option (Nat × E.Row)) :
    E.position label (t ++ [(label, row)]) = row.map Prod.fst := by
  have none : t.lookup label = none := by
    rw [lookup_eq_none_iff]
    intro entry mem
    rw [bne_iff_ne]
    rintro rfl
    exact fresh (mem_map_of_mem mem)
  rw [position, lookup_append, none, lookup_cons_self]
  rfl

theorem traceJoin_labels (known : ∀ t ∈ rows, t.map Prod.fst = labels) :
    ∀ t ∈ E.traceJoin db rows join, t.map Prod.fst = labels ++ [join.table.label.getD ""] := by
  intro t mem
  obtain ⟨before, given, mem⟩ := mem_flatMap.mp mem
  obtain ⟨row, _, rfl⟩ := mem_map.mp mem
  rw [map_append, known before given]
  rfl

theorem matched_found (join : Join) (t : E.Traced) :
    (E.matched db join t).filterMap (Option.map Prod.fst) = (E.found db join t).map Prod.fst := by
  have matches_ : ((E.found db join t).map some).filterMap (Option.map Prod.fst) =
      (E.found db join t).map Prod.fst := by
    rw [filterMap_map]
    exact congrFun filterMap_eq_map' _
  unfold matched
  cases join.type with
  | cross => exact matches_
  | left =>
    dsimp only
    split
    · next empty => rw [isEmpty_iff.mp empty]; rfl
    · exact matches_

/-- No row of a relation stands beside two rows that find none in common. -/
theorem nodup_new (fresh : ∀ t ∈ rows, join.table.label.getD "" ∉ t.map Prod.fst)
    (apart : rows.Pairwise fun t t' => ∀ row ∈ E.found db join t, row ∉ E.found db join t') :
    ((E.traceJoin db rows join).filterMap (E.position (join.table.label.getD ""))).Nodup := by
  have positions : (E.traceJoin db rows join).filterMap (E.position (join.table.label.getD "")) =
      rows.flatMap fun t => (E.found db join t).map Prod.fst := by
    rw [traceJoin, filterMap_flatMap]
    refine flatMap_congr fun t mem => ?_
    rw [filterMap_map, ← matched_found]
    refine filterMap_congr fun row _ => position_new (fresh t mem) row
  have numbers : ((E.numbered (E.rowsOf db join.table.relation)).map Prod.fst).Nodup := by
    rw [numbered_fst]
    exact nodup_range
  rw [positions, nodup_flatMap]
  refine ⟨fun t _ => (filter_sublist.map Prod.fst).nodup numbers, apart.imp fun {t t'} apart i first second => ?_⟩
  obtain ⟨row, given, rfl⟩ := mem_map.mp first
  obtain ⟨row', given', same⟩ := mem_map.mp second
  have equal : row' = row :=
    inj_on_of_nodup_map numbers (mem_of_mem_filter given') (mem_of_mem_filter given) same
  exact apart row given (equal ▸ given')

theorem matched_length (one : (E.found db join t).length ≤ 1) : (E.matched db join t).length ≤ 1 := by
  unfold matched
  cases join.type with
  | cross => rwa [length_map]
  | left =>
    dsimp only
    split
    · exact le_refl 1
    · rwa [length_map]

/-- A join with at most one row for each on its left repeats none of them. -/
theorem sublist_old (old : ∀ t ∈ rows, label ∈ t.map Prod.fst) (one : ∀ t ∈ rows, (E.found db join t).length ≤ 1) :
    ((E.traceJoin db rows join).filterMap (E.position label)).Sublist (rows.filterMap (E.position label)) := by
  induction rows with
  | nil => exact .slnil
  | cons t rest ih =>
    have later := ih (fun t mem => old t (mem_cons_of_mem _ mem)) fun t mem =>
      one t (mem_cons_of_mem _ mem)
    have here : (((E.matched db join t).map fun row => t ++ [(join.table.label.getD "", row)]).filterMap
        (E.position label)).Sublist ([t].filterMap (E.position label)) := by
      have kept (row : Option (Nat × E.Row)) := position_old (old t mem_cons_self)
        (join.table.label.getD "") row
      rw [filterMap_map]
      simp only [Function.comp_def, kept]
      have few := matched_length (one t mem_cons_self)
      match h : E.matched db join t with
      | [] => exact nil_sublist _
      | [_] => exact .refl _
      | _ :: _ :: _ => simp [h] at few
    rw [traceJoin, flatMap_cons, filterMap_append, ← singleton_append, filterMap_append]
    exact here.append later

end SemanticLayer.Sql.Engine
