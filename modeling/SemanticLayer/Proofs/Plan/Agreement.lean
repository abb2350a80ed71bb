import SemanticLayer.Proofs.Plan.Closure

/-!
The joins that a dimension is taken to read. Elaboration goes by the columns that the dimension comes to, the planner
by every path that its definitions lead along, and only what the planner finds is joined. The first are among the
second; they are all of them unless a definition leads along a join for something without columns.
-/
namespace SemanticLayer

open List

namespace Elaborate

def Reads.Joins (reads : Reads) (path : List String) : Prop := path ≠ [] ∧ ∃ q, Reads.Has reads q ∧ path <+: q

/-- Every path is marked by whether it crosses a join that can repeat rows. -/
def Marked (root : Namespace) (reads : Reads) : Prop := ∀ q ∈ reads, q.2 = root.crosses q.1

theorem marked_add (marked : Marked root reads) (is : crosses = root.crosses path) : Marked root (reads.add path crosses) := by
  induction reads with
  | nil => exact forall_mem_singleton.mpr is
  | cons first rest ih =>
    obtain ⟨here, later⟩ := forall_mem_cons.mp marked
    rw [Reads.add]
    split
    · exact forall_mem_cons.mpr ⟨is, marked⟩
    · split
      · next same => exact forall_mem_cons.mpr ⟨by simp [here, is, same], later⟩
      · exact forall_mem_cons.mpr ⟨here, ih later⟩

theorem reads_marked (within : root.within? path = some owner) (e : Expr) :
    Marked root (e.reads ⟨owner, path, root.crosses path⟩) := by
  have here : PlacedIn root ⟨owner, path, root.crosses path⟩ := within
  refine reads_keeps (Q := fun place => PlacedIn root place ∧ place.crosses = root.crosses place.path)
    (forall_mem_nil _) (fun here marked => marked_add marked here.2)
    (fun here resolved => ?_) ⟨here, rfl⟩ e
  obtain ⟨placed, marked⟩ := here
  obtain ⟨_, _, _, _, crosses⟩ := Namespace.resolved_spec resolved
  exact ⟨placed_resolved placed resolved, by rw [Namespace.crosses_append placed, ← marked, ← crosses]⟩

theorem paths_marked {root : Namespace} (refers : root.refer path = .ok r) (shape : r.shape = .dimension) :
    Marked root r.paths := by
  obtain ⟨owner, d, _, within, crosses, reads⟩ := refer_reads refers shape
  unfold Reference.paths
  split
  · exact forall_mem_singleton.mpr crosses
  · exact reads ▸ reads_marked within d

/-- Marks tell whether a join on the way to one of the paths can repeat rows. -/
theorem marked_crosses (marked : Marked root reads) (within : Joined root reads) :
    reads.crosses = true ↔ ∃ path, Reads.Joins reads path ∧ root.crosses path = true := by
  rw [Reads.crosses, any_eq_true]
  constructor
  · rintro ⟨q, mem, crosses⟩
    refine ⟨q.1, ⟨?_, q.1, ⟨q, mem, rfl⟩, prefix_rfl⟩, marked q mem ▸ crosses⟩
    rintro empty
    rw [marked q mem, empty] at crosses
    cases crosses
  · rintro ⟨path, ⟨_, _, ⟨q, mem, rfl⟩, rest, is⟩, crosses⟩
    obtain ⟨inner, there⟩ := Option.isSome_iff_exists.mp (within q mem)
    rw [← is, Namespace.within?_append] at there
    obtain ⟨owner, here, _⟩ := Option.bind_eq_some_iff.mp there
    exact ⟨q, mem, by rw [marked q mem, ← is, Namespace.crosses_append here, crosses, Bool.true_or]⟩

end Elaborate

open Plan Elaborate

/-- The joins that elaboration finds for a dimension are those on the way to the columns that it comes to, and to the
dimension itself if there are none. They are among the joins that are planned for it. These are the same if every path
that is visited is on the way to such a column. -/
theorem dimension_joins {m : Model} (built : Built m) {root : Namespace} {key : Option String}
    (input : m.Inputs root key) {p : List String} {r : Reference} (refers : root.refer p = .ok r)
    (shape : r.shape = .dimension) :
    (∀ path, Reads.Has r.paths path ↔ (∃ column, (Expr.field p).Mentions root path column) ∨
      (∀ q column, ¬(Expr.field p).Mentions root q column) ∧ path = r.joinPath) ∧
    (r.paths.crosses = true ↔ ∃ path, Reads.Joins r.paths path ∧ root.crosses path = true) ∧
    ∃ t, (JoinTree.ofRoot root key).read (.field p) = .ok t ∧
      (∀ path, path ∈ t.used ↔ ∃ visited, (Expr.field p).Visits root visited ∧ path ≠ [] ∧ path <+: visited) ∧
      (∀ path, Reads.Joins r.paths path → path ∈ t.used) ∧
      ((∀ path ∈ t.used, Reads.Joins r.paths path) ↔
        ∀ visited, (Expr.field p).Visits root visited → visited = [] ∨ Reads.Joins r.paths visited) := by
  have sound := ((built_sound built).input input).1
  have paths := paths_iff sound refers shape
  have level : (Expr.field p).level? (Names.of root) = some .scalar := by
    rw [Expr.level?]
    exact refer_dimension refers shape
  obtain ⟨t, read, _⟩ := JoinTree.readAt_ok (t := .ofRoot root key) closed_any sound
    ⟨rfl, rfl, forall_mem_nil _⟩ (.here _) level trivial
  have used (path : List String) : path ∈ t.used ↔ OnWay [] root (.field p) path :=
    (JoinTree.readAt_mem read path).trans (or_iff_right not_mem_nil)
  have joined : Joined root r.paths := (refer_refers refers).paths
  refine ⟨paths, marked_crosses (paths_marked refers shape) joined, t, read, used, fun path joins => ?_, fun same => ?_,
    fun starts path mem => ?_⟩
  · obtain ⟨nonempty, q, has, starts⟩ := joins
    refine (used path).mpr ⟨q, ?_, nonempty, starts⟩
    rcases (paths q).mp has with ⟨column, mentions⟩ | ⟨_, rfl⟩
    · exact mentions.visits
    · obtain ⟨owner, d, defined, _⟩ := refer_reads refers shape
      exact .field defined
  · intro visited visits
    by_cases empty : visited = []
    · exact .inl empty
    · exact .inr (same visited ((used visited).mpr ⟨visited, visits, empty, prefix_rfl⟩))
  · obtain ⟨visited, visits, nonempty, within⟩ := (used path).mp mem
    rcases starts visited visits with rfl | ⟨_, q, has, further⟩
    · exact (nonempty (prefix_nil.mp within)).elim
    · exact ⟨nonempty, q, has, within.trans further⟩

namespace Elaborate

theorem itemPrices_joined : Built (document shopTables shop) ∧
    (document shopTables shop).source? "orders" = some orderSource ∧
    ∃ r t, Namespace.refer orderSource.fields ["items", "price"] = .ok r ∧ r.shape = .dimension ∧
      (JoinTree.ofRoot orderSource.fields orderSource.primaryKey).read (.field ["items", "price"]) = .ok t ∧
      ∀ path, Reads.Joins r.paths path → path ∈ t.used := by
  have built : Built (document shopTables shop) := .document _ _ fun _ _ found => by cases found
  obtain ⟨r, refers, shape⟩ : ∃ r, Namespace.refer orderSource.fields ["items", "price"] = .ok r ∧ r.shape = .dimension :=
    ⟨_, rfl, rfl⟩
  obtain ⟨_, _, t, read, _, joins, _⟩ := dimension_joins built (Model.inputs_of_named orders_named) refers shape
  exact ⟨built, orders_named, r, t, refers, shape, read, joins⟩

def boxes : Document :=
  ⟨[.source ⟨"items", default⟩ (.refine (.table none "items" default)
      [.dimension [⟨⟨"box", default⟩, ⟨.number "10", default⟩, default⟩]] default) default,
    .source ⟨"orders", default⟩ (.refine (.table none "orders" default)
      [.join [⟨⟨"items", default⟩, .many, some (.named ⟨"items", default⟩),
          some (.on ⟨.binary .eq (fieldAt ["items", "order_id"]) (fieldAt ["id"]), default⟩), default⟩],
        .dimension [⟨⟨"boxed", default⟩, withTotal ["items", "box"], default⟩]] default) default]⟩

/-- The items of an order are joined for their box, and the reference does not tell. -/
theorem boxed_unmarked : Built (document shopTables boxes) ∧
    (do
      let s ← (document shopTables boxes).source? "orders"
      let r ← (Namespace.refer s.fields ["boxed"]).toOption
      let t ← ((JoinTree.ofRoot s.fields s.primaryKey).read (.field ["boxed"])).toOption
      return (r.shape.kind, r.paths, t.used, Namespace.crosses s.fields ["items"])) =
    some (.dimension, [([], false)], [["items"]], true) :=
  ⟨.document _ _ (fun _ _ found => by cases found), by decide +kernel⟩

end Elaborate

end SemanticLayer
