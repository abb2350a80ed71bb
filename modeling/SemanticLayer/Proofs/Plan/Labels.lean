import SemanticLayer.Proofs.Plan.Dataflow

/-!
The aliases of a `SELECT`. They are those of the join paths that it reads, the empty one first, and of its widened
aggregates, so that they are distinct just if these are. Nothing in a model keeps them apart.
-/
namespace SemanticLayer

open List

def Sql.Query.aliases (q : Sql.Query) : List String := q.tables.filterMap Sql.TableRef.label

namespace Plan

variable {used : JoinPaths} {place : List String}

/-- The slots of sound fields have different names, and so have those of the sources behind them. -/
structure SlotsSound (entries : List (Slot FieldDef)) : Prop where
  names : (entries.map Slot.name).Nodup
  joins : ∀ slot ∈ entries, ∀ j, slot.field = .join j → FieldsSound j.source.fields

theorem slotsSound (sound : FieldsSound ns) : SlotsSound ns.entries := by
  cases sound with
  | mk distinct _ joins _ _ =>
    refine ⟨distinct, fun slot mem j is => ?_⟩
    cases joins slot.name j (by rw [Slots.lookup?_of_mem distinct mem, is]) with
    | mk fields _ _ _ _ _ => exact fields

theorem usedSlots_nodup (sound : SlotsSound entries) : (usedSlots used place entries).Nodup := by
  refine (usedSlots_induction (P := fun place entries paths => SlotsSound entries →
    paths.Nodup ∧ ∀ path ∈ paths, ∃ slot ∈ entries, place ++ [slot.name] <+: path) ?_ ?_ ?_ place entries sound).1
  · exact fun _ => ⟨nodup_nil, forall_mem_nil _⟩
  · intro place slot rest paths _ later sound
    obtain ⟨nodup, starts⟩ := later ⟨(nodup_cons.mp sound.names).2, fun s mem => sound.joins s (mem_cons_of_mem _ mem)⟩
    exact ⟨nodup, fun path mem => (starts path mem).imp fun _ found => ⟨mem_cons_of_mem _ found.1, found.2⟩⟩
  · intro place slot j rest inner paths is _ below later sound
    obtain ⟨fresh, names⟩ := nodup_cons.mp sound.names
    obtain ⟨nodup, starts⟩ := later ⟨names, fun s mem => sound.joins s (mem_cons_of_mem _ mem)⟩
    obtain ⟨nodup', starts'⟩ := below (slotsSound (sound.joins slot mem_cons_self j is))
    have under : ∀ path ∈ (place ++ [slot.name]) :: inner, place ++ [slot.name] <+: path := by
      refine forall_mem_cons.mpr ⟨prefix_rfl, fun path mem => ?_⟩
      obtain ⟨_, _, starts⟩ := starts' path mem
      exact (prefix_append _ _).trans starts
    refine ⟨nodup_append.mpr ⟨nodup_cons.mpr ⟨fun mem => ?_, nodup'⟩, nodup, ?_⟩, fun path mem => ?_⟩
    · obtain ⟨_, _, starts⟩ := starts' _ mem
      simpa using starts.length_le
    · rintro path mem _ mem' rfl
      obtain ⟨other, given, starts⟩ := starts path mem'
      -- both names stand in the same place of the path
      have same := prefix_of_prefix_length_le (under path mem) starts (by simp)
      have same := append_cancel_left (same.eq_of_length (by simp))
      exact fresh ((singleton_inj.mp same) ▸ mem_map_of_mem given)
    · rcases mem_append.mp mem with mem | mem
      · exact ⟨slot, mem_cons_self, under path mem⟩
      · obtain ⟨other, given, starts⟩ := starts path mem
        exact ⟨other, mem_cons_of_mem _ given, starts⟩

theorem Family.Root.ordered_nodup {F : Family} {tree : JoinTree} (root : F.Root tree.root)
    (reached : ∀ path ∈ tree.ordered, path ≠ [] ∧ ∃ inner, tree.root.within? path = some inner) :
    tree.ordered.Nodup := by
  rcases root with ⟨r, given, is⟩ | flat
  · cases F.sound given with
    | mk source _ _ _ =>
      cases source with
      | mk fields _ _ _ _ _ => exact usedSlots_nodup (slotsSound (is ▸ fields))
  · -- columns lead nowhere
    have none : tree.ordered = [] := eq_nil_iff_forall_not_mem.mpr fun path mem =>
      have ⟨nonempty, _, within⟩ := reached path mem
      nonempty (flat.joinless.within within).1
    rw [none]
    exact nodup_nil

def labelsOf (paths : JoinPaths) (count : Nat) : List String :=
  paths.map aliasOf ++ (List.range count).map fun i => s!"__u{i}"

theorem labelsOf_nodup_iff (nodup : paths.Nodup) (count : Nat) :
    (labelsOf paths count).Nodup ↔
      (∀ path ∈ paths, ∀ path' ∈ paths, aliasOf path = aliasOf path' → path = path') ∧
        ∀ path ∈ paths, ∀ i < count, aliasOf path ≠ s!"__u{i}" := by
  rw [labelsOf, nodup_append, nodup_map_iff_inj_on nodup]
  simp only [widened_nodup count, true_and, forall_mem_map, mem_range]

variable {tree : JoinTree} {count : Nat} {query : Sql.Query}

theorem JoinsAlong.aliases (along : JoinsAlong tree count query) (joined : query.joins ≠ []) :
    query.aliases = labelsOf ([] :: tree.ordered) count := by
  obtain ⟨table, isTable, isLabel⟩ := Option.bind_eq_some_iff.mp (along.base joined)
  have labels : query.joins.filterMap (fun join => join.table.label) = labelsOf tree.ordered count := by
    have all := congrArg (filterMap id) along.labels
    rw [filterMap_map] at all
    exact all.trans (by simp [labelsOf])
  simp [Sql.Query.aliases, Sql.Query.tables, isTable, isLabel, labels, labelsOf]

theorem JoinsAlong.nodup_iff (along : JoinsAlong tree count query) (nodup : tree.ordered.Nodup) :
    query.aliases.Nodup ↔
      (∀ path ∈ [] :: tree.ordered, ∀ path' ∈ [] :: tree.ordered, aliasOf path = aliasOf path' → path = path') ∧
        ∀ path ∈ [] :: tree.ordered, ∀ i < count, aliasOf path ≠ s!"__u{i}" := by
  have separate : ([] :: tree.ordered).Nodup :=
    nodup_cons.mpr ⟨fun mem => (along.reached [] mem).1 rfl, nodup⟩
  rw [← labelsOf_nodup_iff separate]
  by_cases joined : query.joins = []
  · -- without joins there is one alias at most, and nothing is widened
    have labels := along.labels
    rw [joined, map_nil, eq_comm, append_eq_nil_iff, map_eq_nil_iff, map_eq_nil_iff,
      range_eq_nil] at labels
    have single : query.aliases.Nodup := by
      rw [Sql.Query.aliases, Sql.Query.tables, joined]
      cases query.source with
      | none => exact nodup_nil
      | some table => cases h : table.label <;> simp [h]
    rw [labels.1, labels.2]
    exact iff_of_true single (nodup_singleton _)
  · rw [along.aliases joined]

end Plan

/-- The aliases of a planned `SELECT` that joins are those of the paths of a join tree, the empty one first, and those
of widened aggregates. They are distinct just if these paths have distinct aliases, none that a widened aggregate
takes; so it is wherever the names of joins can be recognized in aliases. -/
theorem aliases_distinct_iff {m : Model} (built : Elaborate.Built m) {q : Query} (recorded : m.Records q)
    {d : Dialect} {limit : Option Nat} {statement : Sql.Query} (planned : q.plan d limit = .ok statement)
    {select : Sql.Query} (inside : select.Within statement) :
    ∃ (tree : Plan.JoinTree) (count : Nat),
      ((∃ r, q.Over r ∧ tree.root = r.source.fields) ∨ Flat tree.root) ∧
      (∀ path ∈ tree.ordered, ∃ inner, tree.root.within? path = some inner) ∧
      (select.joins ≠ [] → select.aliases = Plan.labelsOf ([] :: tree.ordered) count) ∧
      (select.aliases.Nodup ↔
        (∀ path ∈ [] :: tree.ordered, ∀ path' ∈ [] :: tree.ordered,
          Plan.aliasOf path = Plan.aliasOf path' → path = path') ∧
        ∀ path ∈ [] :: tree.ordered, ∀ i < count, Plan.aliasOf path ≠ s!"__u{i}") ∧
      ((∀ r, q.Over r → ∀ place parent name j, Namespace.within? r.source.fields place = some parent →
        parent.lookup? name = some (.join j) → Plan.Recognizable name) → select.aliases.Nodup) := by
  obtain ⟨tree, count, root, along⟩ := Plan.plan_along built recorded planned inside
  have distinct := along.nodup_iff (root.ordered_nodup along.reached)
  refine ⟨tree, count, root.imp_left fun ⟨r, given, is⟩ => ⟨r, given.2, is⟩, fun path mem => (along.reached path mem).2,
    along.aliases, distinct, fun names => distinct.mpr ?_⟩
  have aliases : tree.root.DistinctAliases := by
    rcases root with ⟨r, given, is⟩ | flat
    · exact is ▸ Namespace.distinctAliases_of_names (names r given.2)
    · exact Plan.distinctAliases_of_flat flat
  have reached : ∀ path ∈ [] :: tree.ordered, ∃ inner, tree.root.within? path = some inner :=
    List.forall_mem_cons.mpr ⟨⟨_, rfl⟩, fun path mem => (along.reached path mem).2⟩
  constructor
  · intro path mem path' mem'
    obtain ⟨inner, within⟩ := reached path mem
    obtain ⟨inner', within'⟩ := reached path' mem'
    exact aliases.separate path path' inner inner' within within'
  · intro path mem i _
    obtain ⟨inner, within⟩ := reached path mem
    exact aliases.reserved path inner i within

namespace Elaborate

theorem buyers_labelled : Built (document saleTables ⟨buyers "buyer"⟩) ∧
    (document saleTables ⟨buyers "buyer"⟩).Records (buyersQuery "buyer") ∧
    (buyersQuery "buyer").plan .duckdb none = .ok (buyersStatement "buyer") ∧
    (buyersStatement "buyer").Within (buyersStatement "buyer") ∧ (buyersStatement "buyer").aliases.Nodup := by
  have built : Built (document saleTables ⟨buyers "buyer"⟩) := .document _ _ nofun
  obtain ⟨_, _, _, _, _, _, distinct⟩ := aliases_distinct_iff built buyers_recorded buyers_planned .self
  exact ⟨built, buyers_recorded, buyers_planned, .self, distinct fun _ reach _ _ _ _ => buyers_recognizable reach⟩

/-- A join that is named like the alias of the base. -/
theorem buyers_confused : Built (document saleTables ⟨buyers "base"⟩) ∧
    (document saleTables ⟨buyers "base"⟩).Records (buyersQuery "base") ∧
    (buyersQuery "base").plan .duckdb none = .ok (buyersStatement "base") ∧
    ¬(buyersStatement "base").aliases.Nodup :=
  ⟨.document _ _ nofun, .inl ⟨"buyers", by cbv⟩, rfl, by decide⟩

end Elaborate

end SemanticLayer
