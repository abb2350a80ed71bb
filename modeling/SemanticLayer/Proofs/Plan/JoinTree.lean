import SemanticLayer.Proofs.Model.Reach

/-!
The joins of one `SELECT`. Sound expressions can always be read into a join tree and the tree can always be
closed; every path that is used then leads along joins of the base relation.
-/
namespace SemanticLayer.Plan

open List

namespace JoinPaths

theorem mem_insert : q ∈ insert p paths ↔ q = p ∨ q ∈ paths := by
  induction paths with
  | nil => simp [insert]
  | cons first rest ih =>
    rw [insert]
    split
    · simp
    · split
      · next same => simp [same]
      · rw [mem_cons, ih, mem_cons]
        exact or_left_comm

theorem mem_starts : p ∈ starts path ↔ p ≠ [] ∧ p <+: path := by
  simp only [starts, mem_map, mem_range]
  constructor
  · rintro ⟨n, small, rfl⟩
    refine ⟨fun empty => ?_, take_prefix _ _⟩
    have length := congrArg List.length empty
    simp only [length_take, length_nil] at length
    omega
  · rintro ⟨nonempty, ⟨rest, rfl⟩⟩
    have positive := length_pos_iff.mpr nonempty
    refine ⟨p.length - 1, by rw [length_append]; omega, ?_⟩
    rw [Nat.sub_add_cancel positive, take_left]

theorem mem_addPath : p ∈ addPath paths path ↔ p ∈ paths ∨ (p ≠ [] ∧ p <+: path) := by
  have fold : ∀ (added : List (List String)) (paths : JoinPaths),
      p ∈ added.foldl (fun paths p => insert p paths) paths ↔ p ∈ paths ∨ p ∈ added := by
    intro added
    induction added with
    | nil => simp
    | cons first rest ih =>
      intro paths
      rw [foldl_cons, ih, mem_insert, mem_cons, or_comm (a := p = first), or_assoc]
  rw [addPath, fold, mem_starts]

end JoinPaths

/-- A path of joins from one namespace to another, where each join has a property. -/
inductive Placed (J : Namespace → Join → Prop) : Namespace → List String → Namespace → Prop where
  | here (ns : Namespace) : Placed J ns [] ns
  | join {ns inner : Namespace} {name : String} {rest : List String} {j : Join}
      (found : ns.lookup? name = some (.join j)) (holds : J ns j)
      (tail : Placed J j.source.fields rest inner) : Placed J ns (name :: rest) inner

namespace Placed

variable {J : Namespace → Join → Prop} {ns inner : Namespace}

theorem within (placed : Placed J ns path inner) : ns.within? path = some inner := by
  induction placed with
  | here ns => rfl
  | join found _ _ ih => exact (Namespace.within?_cons found).trans ih

theorem append (first : Placed J ns path mid) (second : Placed J mid rest inner) :
    Placed J ns (path ++ rest) inner := by
  induction first with
  | here ns => exact second
  | join found holds _ ih => exact .join found holds (ih second)

theorem split : ∀ {path rest : List String} {ns : Namespace}, Placed J ns (path ++ rest) inner →
    ∃ mid, Placed J ns path mid ∧ Placed J mid rest inner
  | [], _, ns, placed => ⟨ns, .here ns, placed⟩
  | _ :: _, _, _, .join found holds tail =>
    let ⟨mid, first, second⟩ := tail.split
    ⟨mid, .join found holds first, second⟩

theorem last (placed : Placed J ns (path ++ [name]) inner) :
    ∃ parent j, Placed J ns path parent ∧ parent.lookup? name = some (.join j) ∧ J parent j ∧
      j.source.fields = inner := by
  obtain ⟨parent, first, second⟩ := placed.split
  cases second with
  | @join _ _ _ _ j found holds tail =>
    cases tail
    exact ⟨parent, j, first, found, holds, rfl⟩

theorem of_within : ∀ {path : List String} {ns : Namespace}, ns.within? path = some inner →
    (∀ place name rest parent j, path = place ++ name :: rest → ns.within? place = some parent →
      parent.lookup? name = some (.join j) → J parent j) → Placed J ns path inner
  | [], ns, within, _ => by
    cases within
    exact .here _
  | name :: rest, ns, within, holds => by
    obtain ⟨j, found, within⟩ := Namespace.within?_cons_inv within
    refine .join found (holds [] name rest ns j rfl rfl found) (of_within within ?_)
    intro place next more parent k split inside here
    exact holds (name :: place) next more parent k (by rw [split]; rfl) ((Namespace.within?_cons found).trans inside) here

end Placed

/-- What makes it possible to collect the paths of an expression, or of several, keeping an invariant: `has`
tells which parts there are. -/
structure Readable (I : JoinPaths → Prop) (follow : Follow) (place : List String) (ns : Namespace)
    (has : (Expr → Bool) → Bool) : Prop where
  own : ∀ {paths : JoinPaths}, I paths → I (paths.addPath place)
  refers : ∀ {path}, has (Expr.isFieldAt path) = true → ∃ joins owner d,
    definitionOf ns path = .ok (joins, owner, d) ∧ ∀ {paths : JoinPaths}, I paths →
      ∃ after, follow (place ++ joins) owner d (paths.addPath (place ++ joins)) = .ok after ∧ I after
  computes : ∀ {path}, has (Expr.isAggregateAt path) = true → ∀ {paths : JoinPaths}, I paths →
    I (paths.addPath (place ++ path))

section Collect

variable {I : JoinPaths → Prop} {follow : Follow} {place : List String} {ns : Namespace}

theorem Readable.part {part : (Expr → Bool) → Bool} (readable : Readable I follow place ns has)
    (le : ∀ test, part test = true → has test = true) : Readable I follow place ns part :=
  ⟨readable.own, fun h => readable.refers (le _ h), fun h => readable.computes (le _ h)⟩

theorem collectOption_eq (e : Option Expr) (paths : JoinPaths) :
    collectOption follow place ns e paths =
      e.toList.foldlM (fun paths p => collect follow place ns p paths) paths := by
  cases e with
  | none => rw [collectOption]; rfl
  | some e => simp [collectOption]

theorem collectList_eq (es : List Expr) (paths : JoinPaths) :
    collectList follow place ns es paths =
      es.foldlM (fun paths p => collect follow place ns p paths) paths := by
  induction es generalizing paths with
  | nil => rw [collectList]; rfl
  | cons e rest ih =>
    rw [collectList]
    congr 1
    funext paths
    exact ih paths

theorem collectArms_eq (arms : List (Expr × Expr)) (paths : JoinPaths) :
    collectArms follow place ns arms paths = (arms.flatMap fun arm => [arm.1, arm.2]).foldlM
      (fun paths p => collect follow place ns p paths) paths := by
  induction arms generalizing paths with
  | nil => rw [collectArms]; rfl
  | cons arm rest ih =>
    simp only [collectArms, flatMap_cons, cons_append, nil_append, foldlM_cons, ih]

theorem collect_parts (plain : ∀ name, e ≠ .column name) (own : ∀ path, e ≠ .field path)
    (group : ∀ function locality arg, e ≠ .aggregate function locality arg) (paths : JoinPaths) :
    collect follow place ns e paths =
      e.parts.foldlM (fun paths p => collect follow place ns p paths) paths := by
  cases e with
  | column name => exact (plain name rfl).elim
  | field path => exact (own path rfl).elim
  | aggregate function locality arg => exact (group function locality arg rfl).elim
  | literal | now => rw [collect]; rfl
  | choose arms otherwise =>
    simp only [collect, Expr.parts, foldlM_append, collectArms_eq, collectOption_eq]
  | isIn a values negated => simp only [collect, Expr.parts, foldlM_cons, collectList_eq]
  | call function args => rw [collect, collectList_eq, Expr.parts]
  | _ => simp [collect, Expr.parts]

theorem foldlM_ok {α β ε : Type} {f : β → α → Except ε β} {I : β → Prop} :
    ∀ (items : List α) {b : β}, (∀ a ∈ items, ∀ {b}, I b → ∃ after, f b a = .ok after ∧ I after) → I b →
      ∃ after, items.foldlM f b = .ok after ∧ I after
  | [], b, _, kept => ⟨b, rfl, kept⟩
  | a :: rest, b, step, kept => by
    obtain ⟨mid, first, kept⟩ := step a mem_cons_self kept
    obtain ⟨after, later, kept⟩ :=
      foldlM_ok rest (fun a mem => step a (mem_cons_of_mem _ mem)) kept
    exact ⟨after, by rw [foldlM_cons, first]; exact later, kept⟩

theorem collect_ok (e : Expr) (readable : Readable I follow place ns (e.any ·)) (kept : I paths) :
    ∃ after, collect follow place ns e paths = .ok after ∧ I after := by
  induction e using Expr.parts_induction generalizing paths with
  | step e ih =>
    have parts {paths : JoinPaths} (kept : I paths) : ∃ after,
        e.parts.foldlM (fun paths p => collect follow place ns p paths) paths = .ok after ∧ I after :=
      foldlM_ok e.parts (fun p mem _ kept => ih p mem (readable.part fun _ => Expr.any_part mem) kept) kept
    cases e with
    | column => exact ⟨_, by rw [collect], readable.own kept⟩
    | field path =>
      obtain ⟨joins, owner, d, defined, follows⟩ := readable.refers (Expr.field_refersTo path)
      obtain ⟨after, followed, kept⟩ := follows kept
      exact ⟨after, by rw [collect, defined]; exact followed, kept⟩
    | aggregate function locality arg =>
      rw [collect, collectOption_eq]
      exact parts (readable.computes (Expr.aggregate_computesAt function locality arg) kept)
    | _ =>
      rw [collect_parts (by simp) (by simp) (by simp)]
      exact parts kept

end Collect

def Along (J : Namespace → Join → Prop) (root : Namespace) (paths : JoinPaths) : Prop :=
  ∀ p ∈ paths, p ≠ [] ∧ ∃ inner, Placed J root p inner

theorem Along.addPath {inner : Namespace} (along : Along J root paths) (placed : Placed J root path inner) :
    Along J root (paths.addPath path) := by
  intro p mem
  rcases JoinPaths.mem_addPath.mp mem with mem | ⟨nonempty, ⟨rest, rfl⟩⟩
  · exact along p mem
  · obtain ⟨mid, first, _⟩ := placed.split
    exact ⟨nonempty, mid, first⟩

section Reading

variable {R : Namespace → Expr → Prop} {J : Namespace → Join → Prop}

theorem read_placed {inner : Namespace} (closed : Closed R J) (reached : R ns e) (reads : e.ReadsAt path)
    (within : ns.within? path = some inner) : Placed J ns path inner :=
  .of_within within fun _ _ _ _ _ split inside here => closed.read reached (split ▸ reads) inside here

theorem collectWithin_ok (closed : Closed R J) (sound : FieldsSound ns) (level : e.level? (Names.of ns) = some l)
    (enough : ns.size + 1 ≤ fuel) :
    R ns e → Placed J root place ns → ∀ {paths : JoinPaths},
      Along J root paths → ∃ after, collectWithin fuel place ns e paths = .ok after ∧ Along J root after := by
  refine follow_bound (K := 0) (S := fun fuel place ns e => R ns e → Placed J root place ns →
    ∀ {paths : JoinPaths}, Along J root paths →
      ∃ after, collectWithin fuel place ns e paths = .ok after ∧ Along J root after)
    ?_ ns.size rfl sound level place enough
  intro fuel place ns e l sound level _ follows reached placed paths along
  refine collect_ok e ⟨fun along => along.addPath placed, fun refers => ?_, fun computes => ?_⟩ along
  · obtain ⟨l', level, _⟩ := Expr.refers_level level refers
    obtain ⟨joins, last, owner, d, split, within, _, defined, _⟩ := sound.definition level
    have joined := placed.append (read_placed closed reached (.inl ⟨last, split ▸ refers⟩) within)
    exact ⟨joins, owner, d, defined, fun along =>
      follows refers defined (closed.definition reached refers defined) joined (along.addPath joined)⟩
  · intro paths along
    obtain ⟨inner, within⟩ := Option.isSome_iff_exists.mp (Expr.computes_level level computes).1
    exact along.addPath (placed.append (read_placed closed reached (.inr computes) within))

end Reading

theorem joinFrom_inv : ∀ {path : List String} {walked : List String} {ns : Namespace} {j : Join},
    joinFrom walked ns path = .ok j → ∃ place name parent, path = place ++ [name] ∧
      ns.within? place = some parent ∧ parent.lookup? name = some (.join j)
  | [], _, _, _, found => by cases found
  | name :: rest, walked, ns, j, found => by
    unfold joinFrom at found
    split at found
    · cases found
    · next join here =>
      cases rest with
      | nil =>
        cases found
        exact ⟨[], name, ns, rfl, rfl, here⟩
      | cons next rest =>
        obtain ⟨place, last, parent, split, within, there⟩ := joinFrom_inv found
        exact ⟨name :: place, last, parent, by rw [split]; rfl, (Namespace.within?_cons here).trans within, there⟩
    · cases found

theorem fieldsAt_within {tree : JoinTree} (found : tree.fieldsAt path = .ok ns) :
    tree.root.within? path = some ns := by
  unfold JoinTree.fieldsAt at found
  split at found
  · next empty =>
    cases List.isEmpty_iff.mp empty
    cases found
    rfl
  · obtain ⟨j, join, rfl⟩ := map_eq_ok found
    obtain ⟨place, name, parent, rfl, within, here⟩ := joinFrom_inv join
    exact Namespace.within?_join within here

namespace JoinTree

variable {R : Namespace → Expr → Prop} {J : Namespace → Join → Prop}

structure Over (J : Namespace → Join → Prop) (root : Namespace) (key : Option String) (t : JoinTree) :
    Prop where
  root_eq : t.root = root
  key_eq : t.key = key
  along : Along J root t.used

variable {root ns : Namespace} {key : Option String} {t : JoinTree} {place : List String}

theorem Over.join (spans : t.Over J root key) (placed : Placed J root place parent)
    (found : parent.lookup? name = some (.join j)) : t.join (place ++ [name]) = .ok j := by
  rw [JoinTree.join, spans.root_eq]
  exact Namespace.joinFrom_of_within found place [] root placed.within

theorem Over.fieldsAt (spans : t.Over J root key) (placed : Placed J root place ns) :
    t.fieldsAt place = .ok ns := by
  rcases eq_nil_or_concat' place with rfl | ⟨place, name, rfl⟩
  · cases placed
    simp [JoinTree.fieldsAt, spans.root_eq]
  · obtain ⟨parent, j, before, found, _, rfl⟩ := placed.last
    simp [JoinTree.fieldsAt, spans.join before found, Except.map]

theorem Over.keyAt (spans : t.Over J root key) (sound : FieldsSound root)
    (keyed : ∀ name ∈ key, (Names.of root).level [name] = some .scalar) (placed : Placed J root place ns) :
    ∃ own, t.keyAt place = .ok own ∧ ∀ name ∈ own, (Names.of ns).level [name] = some .scalar := by
  rcases eq_nil_or_concat' place with rfl | ⟨place, name, rfl⟩
  · cases placed
    exact ⟨key, by simp [JoinTree.keyAt, spans.key_eq], keyed⟩
  · obtain ⟨parent, j, before, found, _, rfl⟩ := placed.last
    refine ⟨j.source.primaryKey, by simp [JoinTree.keyAt, spans.join before found, Except.map], ?_⟩
    cases ((sound.within before.within).joined found).1 with
    | mk _ _ _ key _ _ => exact key

/-- What a used join reads in turn, and where: its condition before it, and the filters of its source behind it. -/
def readings (place : List String) (name : String) (parent : Namespace) (j : Join) :
    List (List String × Namespace × Expr) :=
  j.correlation.condition?.toList.map (place, parent, ·) ++
    j.source.filters.map fun f => (place ++ [name], j.source.fields, f.expr)

theorem closeAt_eq (isJoin : t.join (place ++ [name]) = .ok j) (before : t.fieldsAt place = .ok parent) :
    t.closeAt (place ++ [name]) = (readings place name parent j).foldlM (fun t r => t.readAt r.1 r.2.1 r.2.2) t := by
  obtain ⟨_, _, source, correlation, _⟩ := j
  unfold closeAt readings
  simp only [isJoin, dropLast_concat, before, foldlM_append, foldlM_map]
  cases correlation with
  | key e | on e =>
    show (t.readAt place parent e >>= _) = [e].foldlM _ t >>= _
    rw [foldlM_cons, bind_assoc]
    rfl
  | free => rfl

section

variable (closed : Closed R J) (sound : FieldsSound root) (spans : t.Over J root key)

include closed sound spans

theorem readAt_ok
    (placed : Placed J root place ns) (level : e.level? (Names.of ns) = some l) (reached : R ns e) :
    ∃ after, t.readAt place ns e = .ok after ∧ after.Over J root key := by
  have enough : ns.size + 1 ≤ t.depth := by
    rw [depth, spans.root_eq]
    exact Nat.succ_le_succ (within_le placed.within)
  obtain ⟨used, collected, along⟩ :=
    collectWithin_ok closed (sound.within placed.within) level enough reached placed spans.along
  exact ⟨{ t with used }, by rw [readAt, collected]; rfl, spans.root_eq, spans.key_eq, along⟩

theorem closeAt_ok (nonempty : path ≠ [])
    (placed : Placed J root path ns) : ∃ after, t.closeAt path = .ok after ∧ after.Over J root key := by
  obtain ⟨place, name, rfl⟩ := (eq_nil_or_concat' path).resolve_left nonempty
  obtain ⟨parent, j, before, found, holds, rfl⟩ := placed.last
  obtain ⟨source, correlated⟩ := (sound.within before.within).joined found
  rw [closeAt_eq (spans.join before found) (spans.fieldsAt before)]
  refine foldlM_ok _ (fun r mem t spans => ?_) spans
  rcases mem_append.mp mem with mem | mem
  · obtain ⟨e, is, rfl⟩ := mem_map.mp mem
    have is := Option.mem_toList.mp is
    exact readAt_ok closed sound spans before (correlated.condition is) (closed.condition holds is)
  · obtain ⟨f, given, rfl⟩ := mem_map.mp mem
    cases source with
    | mk _ _ _ _ rows _ => exact readAt_ok closed sound spans placed (rows f given) (closed.restriction holds given)

theorem closeOnce_ok :
    ∃ after, t.closeOnce = .ok after ∧ after.Over J root key := by
  refine foldlM_ok t.used (fun path mem t' spans' => ?_) spans
  obtain ⟨nonempty, inner, placed⟩ := spans.along path mem
  exact closeAt_ok closed sound spans' nonempty placed

end

theorem closeWithin_ok (closed : Closed R J) (sound : FieldsSound root) :
    ∀ (rounds : Nat) {t : JoinTree}, t.Over J root key →
      ∃ after, t.closeWithin rounds = .ok after ∧ after.Over J root key
  | 0, t, spans => ⟨t, rfl, spans⟩
  | rounds + 1, t, spans => by
    obtain ⟨next, once, spans⟩ := closeOnce_ok closed sound spans
    rw [closeWithin, once]
    show ∃ after, (if next.used.length = t.used.length then .ok next else next.closeWithin rounds) =
      .ok after ∧ _
    split
    · exact ⟨next, rfl, spans⟩
    · exact closeWithin_ok closed sound rounds spans

end JoinTree

section Used

variable {used : JoinPaths} {place : List String} {slot : Slot FieldDef} {rest : List (Slot FieldDef)}

theorem usedSlots_skip (unused : slot.field.join? = none ∨ place ++ [slot.name] ∉ used) :
    usedSlots used place (slot :: rest) = usedSlots used place rest := by
  obtain ⟨name, field, hidden⟩ := slot
  cases field <;> simp_all [usedSlots, usedField, FieldDef.join?]

theorem usedSlots_join (is : slot.field = .join j) (mem : place ++ [slot.name] ∈ used) :
    usedSlots used place (slot :: rest) = (place ++ [slot.name]) ::
      usedSlots used (place ++ [slot.name]) j.source.fields.entries ++ usedSlots used place rest := by
  obtain ⟨_, _, ⟨_, _, ⟨entries⟩, _, _, _⟩, _, _⟩ := j
  simp_all [usedSlots, usedField, usedJoin, usedSource]

/-- The used paths of a namespace are listed slot by slot; behind a join that is used stand those of its source. -/
theorem usedSlots_induction {P : List String → List (Slot FieldDef) → JoinPaths → Prop}
    (nil : ∀ {place}, P place [] [])
    (skip : ∀ {place slot rest paths}, slot.field.join? = none ∨ place ++ [slot.name] ∉ used →
      P place rest paths → P place (slot :: rest) paths)
    (join : ∀ {place slot j rest inner paths}, slot.field = .join j → place ++ [slot.name] ∈ used →
      P (place ++ [slot.name]) j.source.fields.entries inner → P place rest paths →
      P place (slot :: rest) ((place ++ [slot.name]) :: inner ++ paths)) :
    ∀ (place : List String) (entries : List (Slot FieldDef)), P place entries (usedSlots used place entries)
  | place, [] => by
    exact nil
  | place, ⟨name, .join ⟨_, _, ⟨_, _, ⟨entries⟩, _, _, _⟩, _, _⟩, _⟩ :: rest => by
    by_cases mem : place ++ [name] ∈ used
    · rw [usedSlots_join rfl mem]
      exact join rfl mem (usedSlots_induction nil skip join _ entries) (usedSlots_induction nil skip join place rest)
    · rw [usedSlots_skip (.inr mem)]
      exact skip (.inr mem) (usedSlots_induction nil skip join place rest)
  | place, ⟨_, .dimension _, _⟩ :: rest | place, ⟨_, .measure _, _⟩ :: rest | place, ⟨_, .view _, _⟩ :: rest
  | place, ⟨_, .nested _ _, _⟩ :: rest => by
    exact skip (.inl rfl) (usedSlots_induction nil skip join place rest)

theorem mem_usedSlots {entries : List (Slot FieldDef)} : path ∈ usedSlots used place entries → path ∈ used :=
  usedSlots_induction (P := fun _ _ paths => path ∈ paths → path ∈ used) nofun (fun _ => id)
    (fun _ here inner later mem => by
      rcases mem_append.mp mem with mem | mem
      · exact (mem_cons.mp mem).elim (· ▸ here) inner
      · exact later mem) place entries

end Used

theorem JoinTree.ordered_used (t : JoinTree) (mem : path ∈ t.ordered) : path ∈ t.used :=
  mem_usedSlots mem

theorem closed_any : Closed (fun _ _ => True) fun _ _ => True :=
  ⟨fun _ _ _ => trivial, fun _ _ _ _ => trivial, fun _ _ => trivial, fun _ _ => trivial⟩

theorem treeFor_ok (closed : Closed R J) (sound : FieldsSound input.fields)
    (reads : ∀ e ∈ input.filters ++ exprs, (∃ l, e.level? (Names.of input.fields) = some l) ∧
      R input.fields e) : ∃ tree, treeFor input exprs = .ok tree ∧ tree.Over J input.fields input.key := by
  have start : (JoinTree.ofRoot input.fields input.key).Over J input.fields input.key :=
    ⟨rfl, rfl, fun _ mem => by cases mem⟩
  obtain ⟨tree, read, spans⟩ := foldlM_ok
    (f := JoinTree.read) (input.filters ++ exprs) (fun e mem t spans => by
      obtain ⟨⟨l, level⟩, reached⟩ := reads e mem
      unfold JoinTree.read
      rw [spans.root_eq]
      exact JoinTree.readAt_ok closed sound spans (.here _) level reached) start
  obtain ⟨tree, closedTree, spans⟩ := JoinTree.closeWithin_ok closed sound (tree.root.size + 2) spans
  exact ⟨tree, by unfold treeFor; rw [read]; exact closedTree, spans⟩

end SemanticLayer.Plan
