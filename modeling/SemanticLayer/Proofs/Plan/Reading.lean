import Mathlib.Data.List.Induction
import SemanticLayer.Proofs.Plan.JoinTree

/-!
What is read into a join tree stays there, and whatever column an expression comes to, the joins on the way to
it are read.
-/
namespace SemanticLayer

open List hiding after count

/-- The columns that an expression comes to, with the joins that lead to them. -/
inductive Expr.Mentions : Namespace → Expr → List String → String → Prop where
  | column : Mentions ns (.column name) [] name
  | field {ns owner : Namespace} {path joins rest : List String} {d : Expr} {name : String}
      (defined : Plan.definitionOf ns path = .ok (joins, owner, d)) (inner : Mentions owner d rest name) :
      Mentions ns (.field path) (joins ++ rest) name
  | part {ns : Namespace} {p e : Expr} {rest : List String} {name : String} (mem : p ∈ e.parts)
      (inner : Mentions ns p rest name) : Mentions ns e rest name

theorem Expr.Mentions.within {e : Expr} (mentions : e.Mentions ns path name) :
    ∃ owner, ns.within? path = some owner := by
  induction mentions with
  | column => exact ⟨_, rfl⟩
  | field defined _ ih =>
    obtain ⟨_, _, _, within, _⟩ := Namespace.definitionOf_iff.mp defined
    obtain ⟨inner, there⟩ := ih
    exact ⟨inner, by rw [Namespace.within?_append, within]; exact there⟩
  | part _ _ ih => exact ih

/-- The joins that an expression leads along, by itself or through the definitions that it names. -/
inductive Expr.Visits : Namespace → Expr → List String → Prop where
  | column : Visits ns (.column name) []
  | locality :
      Visits ns (.aggregate function locality arg) locality
  | field {ns owner : Namespace} {path joins : List String} {d : Expr}
      (defined : Plan.definitionOf ns path = .ok (joins, owner, d)) : Visits ns (.field path) joins
  | definition
      (defined : Plan.definitionOf ns path = .ok (joins, owner, d)) (inner : Visits owner d rest) :
      Visits ns (.field path) (joins ++ rest)
  | part {ns : Namespace} {p e : Expr} {rest : List String} (mem : p ∈ e.parts) (inner : Visits ns p rest) :
      Visits ns e rest

theorem Expr.Mentions.visits {e : Expr} (mentions : e.Mentions ns path name) : e.Visits ns path := by
  induction mentions with
  | column => exact .column
  | field defined _ ih => exact .definition defined ih
  | part mem _ ih => exact .part mem ih

namespace Plan

namespace JoinPaths

def Ascending (paths : JoinPaths) : Prop := paths.Pairwise (· < ·)

variable {paths : JoinPaths}

theorem Ascending.insert (ascending : paths.Ascending) (path : List String) :
    (JoinPaths.insert path paths).Ascending := by
  induction paths with
  | nil => exact pairwise_singleton _ _
  | cons first rest ih =>
    obtain ⟨least, later⟩ := pairwise_cons.mp ascending
    rw [JoinPaths.insert]
    split
    · next before =>
      refine pairwise_cons.mpr ⟨forall_mem_cons.mpr ⟨before, fun p mem => ?_⟩, ascending⟩
      exact List.lt_trans before (least p mem)
    · next notBefore =>
      split
      · exact ascending
      · next other =>
        refine pairwise_cons.mpr ⟨fun p mem => ?_, ih later⟩
        rcases mem_insert.mp mem with rfl | mem
        · by_contra notAfter
          exact other (Std.Trichotomous.trichotomous p first notBefore notAfter)
        · exact least p mem

theorem Ascending.addPath (ascending : paths.Ascending) (path : List String) : (paths.addPath path).Ascending := by
  rw [JoinPaths.addPath]
  generalize starts path = added
  induction added generalizing paths with
  | nil => exact ascending
  | cons first rest ih => exact ih (ascending.insert first)

theorem Ascending.nodup (ascending : paths.Ascending) : paths.Nodup := by
  refine List.Pairwise.imp ?_ ascending
  rintro a _ before rfl
  exact List.lt_irrefl a before

end JoinPaths

/-- A join on the way of an expression that stands at a path. -/
def OnWay (place : List String) (ns : Namespace) (e : Expr) (path : List String) : Prop :=
  ∃ visited, e.Visits ns visited ∧ path ≠ [] ∧ path <+: place ++ visited

theorem onWay_part (mem : p ∈ e.parts) (way : OnWay place ns p path) : OnWay place ns e path := by
  obtain ⟨visited, visits, starts⟩ := way
  exact ⟨visited, .part mem visits, starts⟩

theorem onWay_parts (plain : ∀ name, e ≠ .column name) (own : ∀ path, e ≠ .field path)
    (group : ∀ function locality arg, e ≠ .aggregate function locality arg) :
    OnWay place ns e path ↔ ∃ p ∈ e.parts, OnWay place ns p path := by
  constructor
  · rintro ⟨visited, visits, starts⟩
    cases visits with
    | column => exact (plain _ rfl).elim
    | locality => exact (group _ _ _ rfl).elim
    | field => exact (own _ rfl).elim
    | definition => exact (own _ rfl).elim
    | part mem inner => exact ⟨_, mem, visited, inner, starts⟩
  · rintro ⟨p, mem, way⟩
    exact onWay_part mem way

theorem onWay_column : OnWay place ns (.column name) path ↔ path ≠ [] ∧ path <+: place := by
  constructor
  · rintro ⟨visited, visits, starts⟩
    cases visits with
    | column => rwa [append_nil] at starts
    | part mem _ => cases mem
  · intro starts
    exact ⟨[], .column, by rwa [append_nil]⟩

theorem onWay_field (defined : definitionOf ns field = .ok (joins, owner, d)) :
    OnWay place ns (.field field) path ↔
      (path ≠ [] ∧ path <+: place ++ joins) ∨ OnWay (place ++ joins) owner d path := by
  constructor
  · rintro ⟨visited, visits, starts⟩
    cases visits with
    | field defined' =>
      cases defined.symm.trans defined'
      exact .inl starts
    | definition defined' inner =>
      cases defined.symm.trans defined'
      exact .inr ⟨_, inner, by rwa [List.append_assoc]⟩
    | part mem _ => cases mem
  · rintro (starts | ⟨visited, visits, starts⟩)
    · exact ⟨joins, .field defined, starts⟩
    · exact ⟨joins ++ visited, .definition defined visits, by rwa [← List.append_assoc]⟩

theorem onWay_aggregate :
    OnWay place ns (.aggregate function locality arg) path ↔
      (path ≠ [] ∧ path <+: place ++ locality) ∨ ∃ p ∈ arg.toList, OnWay place ns p path := by
  constructor
  · rintro ⟨visited, visits, starts⟩
    cases visits with
    | locality => exact .inl starts
    | part mem inner => exact .inr ⟨_, mem, visited, inner, starts⟩
  · rintro (starts | ⟨p, mem, way⟩)
    · exact ⟨locality, .locality, starts⟩
    · exact onWay_part mem way

theorem foldlM_adds {α β ε : Type} {f : β → α → Except ε β} {I : β → Prop} {H : β → List String → Prop}
    {G : α → List String → Prop} : ∀ {items : List α} {b b' : β}, items.foldlM f b = .ok b' → I b →
      (∀ a ∈ items, ∀ {b b'}, I b → f b a = .ok b' → I b' ∧ ∀ p, H b' p ↔ H b p ∨ G a p) →
      I b' ∧ ∀ p, H b' p ↔ H b p ∨ ∃ a ∈ items, G a p
  | [], b, b', run, holds, _ => by
    cases run
    exact ⟨holds, by simp⟩
  | a :: rest, b, b', run, holds, each => by
    obtain ⟨mid, first, run⟩ := bind_eq_ok run
    obtain ⟨holds, here⟩ := each a mem_cons_self holds first
    obtain ⟨holds, later⟩ := foldlM_adds run holds fun a mem => each a (mem_cons_of_mem _ mem)
    exact ⟨holds, fun p => by rw [later, here, or_assoc, exists_mem_cons_iff]⟩

/-- Collecting adds the joins on the way of an expression. -/
theorem collectWithin_adds : ∀ (fuel : Nat) {place : List String} {ns : Namespace} {e : Expr}
    {paths after : JoinPaths}, collectWithin fuel place ns e paths = .ok after →
      (paths.Ascending → after.Ascending) ∧ ∀ p, p ∈ after ↔ p ∈ paths ∨ OnWay place ns e p
  | 0, _, _, _, _, _, run => by cases run
  | fuel + 1, place, ns, e, paths, after, run => by
    rw [collectWithin] at run
    induction e using Expr.parts_induction generalizing paths after with
    | step e ih =>
      have parts {paths after : JoinPaths} (run : e.parts.foldlM
          (fun paths p => collect (collectWithin fuel) place ns p paths) paths = .ok after) :
          (paths.Ascending → after.Ascending) ∧ ∀ p, p ∈ after ↔ p ∈ paths ∨ ∃ x ∈ e.parts, OnWay place ns x p :=
        foldlM_adds (I := fun after => paths.Ascending → after.Ascending) run id
          fun x mem _ _ kept step => by
            obtain ⟨ascending, added⟩ := ih x mem _ _ step
            exact ⟨fun first => ascending (kept first), added⟩
      cases e with
      | column name =>
        cases run
        exact ⟨fun ascending => ascending.addPath place, fun p => by rw [JoinPaths.mem_addPath, onWay_column]⟩
      | field path =>
        obtain ⟨⟨joins, owner, d⟩, defined, run⟩ := bind_eq_ok run
        obtain ⟨ascending, added⟩ := collectWithin_adds fuel run
        refine ⟨fun first => ascending (first.addPath _), fun p => ?_⟩
        rw [added, JoinPaths.mem_addPath, onWay_field defined, or_assoc]
      | aggregate function locality arg =>
        rw [collect, collectOption_eq] at run
        obtain ⟨ascending, added⟩ := parts run
        refine ⟨fun first => ascending (first.addPath _), fun p => ?_⟩
        rw [added, JoinPaths.mem_addPath, onWay_aggregate, or_assoc]
        rfl
      | _ =>
        rw [collect_parts (by simp) (by simp) (by simp)] at run
        obtain ⟨ascending, added⟩ := parts run
        exact ⟨ascending, fun p => by rw [added, onWay_parts (by simp) (by simp) (by simp)]⟩

theorem foldlM_steps {α β ε : Type} {f : β → α → Except ε β} {R : β → β → Prop} (refl : ∀ b, R b b)
    (trans : ∀ {a b c}, R a b → R b c → R a c) : ∀ {items : List α} {b b' : β}, items.foldlM f b = .ok b' →
      (∀ a ∈ items, ∀ {b b'}, f b a = .ok b' → R b b') →
      R b b' ∧ ∀ a ∈ items, ∃ b₁ b₂, R b b₁ ∧ f b₁ a = .ok b₂ ∧ R b₂ b'
  | [], b, b', run, _ => by
    cases run
    exact ⟨refl b, nofun⟩
  | a :: rest, b, b', run, each => by
    obtain ⟨mid, first, run⟩ := bind_eq_ok run
    obtain ⟨later, steps⟩ :=
      foldlM_steps refl trans run fun a mem => each a (mem_cons_of_mem _ mem)
    have here := each a mem_cons_self first
    refine ⟨trans here later, forall_mem_cons.mpr ⟨⟨b, mid, refl b, first, later⟩, ?_⟩⟩
    intro a' mem
    obtain ⟨b₁, b₂, before, step, after⟩ := steps a' mem
    exact ⟨b₁, b₂, trans here before, step, after⟩

namespace JoinTree

structure Wider (t t' : JoinTree) : Prop where
  root : t'.root = t.root
  key : t'.key = t.key
  used : t.used ⊆ t'.used
  ascending : t.used.Ascending → t'.used.Ascending

variable {t t' t'' : JoinTree}

theorem Wider.refl (t : JoinTree) : t.Wider t := ⟨rfl, rfl, List.Subset.refl _, id⟩

theorem Wider.trans (first : t.Wider t') (second : t'.Wider t'') : t.Wider t'' :=
  ⟨second.root.trans first.root, second.key.trans first.key, List.Subset.trans first.used second.used,
    fun ascending => second.ascending (first.ascending ascending)⟩

theorem readAt_inv (read : t.readAt place ns e = .ok t') :
    ∃ used, collectWithin t.depth place ns e t.used = .ok used ∧ t' = { t with used } := by
  obtain ⟨used, collected, ⟨⟩⟩ := bind_eq_ok read
  exact ⟨used, collected, rfl⟩

theorem readAt_mem (read : t.readAt place ns e = .ok t') (p : List String) :
    p ∈ t'.used ↔ p ∈ t.used ∨ OnWay place ns e p := by
  obtain ⟨used, collected, rfl⟩ := readAt_inv read
  exact (collectWithin_adds _ collected).2 p

theorem readAt_wider {place : List String} (read : t.readAt place ns e = .ok t') : t.Wider t' := by
  obtain ⟨used, collected, rfl⟩ := readAt_inv read
  obtain ⟨ascending, added⟩ := collectWithin_adds _ collected
  exact ⟨rfl, rfl, fun p mem => (added p).mpr (.inl mem), ascending⟩

theorem closeAt_inv (closed : t.closeAt path = .ok t') : ∃ place name parent j, path = place ++ [name] ∧
    t.root.within? place = some parent ∧ parent.lookup? name = some (.join j) ∧
      (readings place name parent j).foldlM (fun t r => t.readAt r.1 r.2.1 r.2.2) t = .ok t' := by
  obtain ⟨j, isJoin, rest⟩ := bind_eq_ok closed
  obtain ⟨place, name, parent, rfl, within, found⟩ := joinFrom_inv isJoin
  rw [dropLast_concat] at rest
  obtain ⟨ns, before, _⟩ := bind_eq_ok rest
  cases within.symm.trans (fieldsAt_within before)
  exact ⟨place, name, parent, j, rfl, within, found, by rw [← closeAt_eq isJoin before, closed]⟩

theorem closeAt_wider (closed : t.closeAt path = .ok t') : t.Wider t' := by
  obtain ⟨_, _, _, _, _, _, _, run⟩ := closeAt_inv closed
  exact (foldlM_steps .refl .trans run fun _ _ _ _ step => readAt_wider step).1

theorem closeOnce_wider (once : t.closeOnce = .ok t') : t.Wider t' :=
  (foldlM_steps .refl .trans once fun _ _ _ _ step => closeAt_wider step).1

theorem closeWithin_keeps {P : JoinTree → Prop} (once : ∀ {t t'}, P t → t.closeOnce = .ok t' → P t') :
    ∀ (rounds : Nat) {t t' : JoinTree}, P t → t.closeWithin rounds = .ok t' → P t'
  | 0, t, t', holds, closed => by
    cases closed
    exact holds
  | rounds + 1, t, t', holds, closed => by
    obtain ⟨next, first, closed⟩ := bind_eq_ok closed
    split at closed
    · cases closed
      exact once holds first
    · exact closeWithin_keeps once rounds (once holds first) closed

theorem closeWithin_wider (rounds : Nat) (closed : t.closeWithin rounds = .ok t') : t.Wider t' :=
  closeWithin_keeps (fun wider once => wider.trans (closeOnce_wider once)) rounds (.refl t) closed

end JoinTree

theorem usedSlots_slot {entries : List (Slot FieldDef)} (given : slot ∈ entries) (is : slot.field = .join j)
    (mem : place ++ [slot.name] ∈ used) : (place ++ [slot.name]) ::
      usedSlots used (place ++ [slot.name]) j.source.fields.entries <+ usedSlots used place entries := by
  induction entries with
  | nil => cases given
  | cons first rest ih =>
    rcases mem_cons.mp given with rfl | given
    · rw [usedSlots_join is mem]
      exact sublist_append_left _ _
    · refine (ih given).trans ?_
      exact sublist_append_right _ _

theorem usedSlots_below {inner : Namespace} : ∀ {path place : List String} {ns : Namespace},
    ns.within? path = some inner → path ≠ [] → (∀ p, p ≠ [] → p <+: path → place ++ p ∈ used) →
      (place ++ path) :: usedSlots used (place ++ path) inner.entries <+ usedSlots used place ns.entries
  | [], _, _, _, nonempty, _ => (nonempty rfl).elim
  | name :: rest, place, ns, within, _, isUsed => by
    obtain ⟨j, found, there⟩ := Namespace.within?_cons_inv within
    obtain ⟨slot, given, rfl, isJoin⟩ := Slots.slot_of_lookup? found
    have here := usedSlots_slot given isJoin (isUsed [slot.name] (cons_ne_nil _ _) ⟨rest, rfl⟩)
    rw [append_cons]
    by_cases last : rest = []
    · cases last
      cases there
      rwa [append_nil]
    · refine .trans (usedSlots_below there last fun p nonempty starts => ?_) ((sublist_cons_self _ _).trans here)
      rw [List.append_assoc]
      exact isUsed ([slot.name] ++ p) (cons_ne_nil _ _) (cons_prefix_cons.mpr ⟨rfl, starts⟩)

theorem treeFor_root (isTree : treeFor input exprs = .ok tree) : tree.root = input.fields := by
  obtain ⟨mid, read, isTree⟩ := bind_eq_ok isTree
  have first := (foldlM_steps .refl .trans read fun _ _ _ _ step => JoinTree.readAt_wider step).1
  exact (JoinTree.closeWithin_wider _ isTree).root.trans first.root

theorem treeFor_reads (isTree : treeFor input exprs = .ok tree) (mem : e ∈ input.filters ++ exprs) :
    ∃ fuel used after, collectWithin fuel [] input.fields e used = .ok after ∧ after ⊆ tree.used := by
  obtain ⟨mid, read, isTree⟩ := bind_eq_ok isTree
  obtain ⟨_, steps⟩ := foldlM_steps .refl .trans read
    fun _ _ _ _ step => JoinTree.readAt_wider step
  obtain ⟨t₁, t₂, before, step, after⟩ := steps e mem
  have root : t₁.root = input.fields := before.root
  unfold JoinTree.read at step
  rw [root] at step
  obtain ⟨used, collected, rfl⟩ := JoinTree.readAt_inv step
  exact ⟨_, _, used, collected, List.Subset.trans after.used (JoinTree.closeWithin_wider _ isTree).used⟩

theorem mention_listed {input : Input} (root : tree.root = input.fields) (isTree : treeFor input exprs = .ok tree)
    (mem : e ∈ input.filters ++ exprs) (mentions : e.Mentions input.fields path name) :
    path = [] ∨ path ∈ tree.ordered := by
  obtain ⟨fuel, used, after, collected, le⟩ := treeFor_reads isTree mem
  obtain ⟨owner, within⟩ := mentions.within
  by_cases empty : path = []
  · exact .inl empty
  · right
    rw [JoinTree.ordered, root]
    refine (usedSlots_below within empty fun p nonempty starts => le ?_).subset mem_cons_self
    exact ((collectWithin_adds _ collected).2 p).mpr (.inr ⟨path, mentions.visits, nonempty, starts⟩)

section Order

def ParentsFirst (place : List String) (paths : JoinPaths) : Prop :=
  ∀ i path, paths[i]? = some path → path.dropLast = place ∨ path.dropLast ∈ paths.take i

theorem ParentsFirst.append (first : ParentsFirst place xs) (second : ParentsFirst place ys) :
    ParentsFirst place (xs ++ ys) := by
  intro i path is
  by_cases small : i < xs.length
  · rw [List.getElem?_append_left small] at is
    rw [take_append_of_le_length (Nat.le_of_lt small)]
    exact first i path is
  · have large : xs.length ≤ i := Nat.le_of_not_lt small
    rw [List.getElem?_append_right large] at is
    rw [take_append]
    exact (second _ path is).imp_right (mem_append_right _)

theorem ParentsFirst.cons (below : ParentsFirst (place ++ [name]) xs) :
    ParentsFirst place ((place ++ [name]) :: xs) := by
  intro i path is
  cases i with
  | zero =>
    cases is
    exact .inl dropLast_concat
  | succ i =>
    right
    rcases below i path is with same | mem
    · exact same ▸ mem_cons_self
    · exact mem_cons_of_mem _ mem

theorem usedSlots_parentsFirst (entries : List (Slot FieldDef)) : ParentsFirst place (usedSlots used place entries) :=
  usedSlots_induction (P := fun place _ paths => ParentsFirst place paths) nofun (fun _ => id)
    (fun _ _ inner later => inner.cons.append later) place entries

theorem ParentsFirst.starts (first : ParentsFirst [] paths) (mem : path ∈ paths.take count) (nonempty : start ≠ [])
    (starts : start <+: path) : start ∈ paths.take count := by
  induction path using List.reverseRecOn generalizing count with
  | nil => exact (nonempty (prefix_nil.mp starts)).elim
  | append_singleton place name ih =>
    rcases prefix_concat_iff.mp starts with rfl | above
    · exact mem
    · obtain ⟨i, small, at'⟩ := mem_iff_getElem.mp mem
      have bound : i < count := by
        rw [length_take] at small
        omega
      have is : paths[i]? = some (place ++ [name]) := by
        rw [← at', getElem_take, List.getElem?_eq_getElem]
      rcases first i _ is with base | listed
      · rw [dropLast_concat] at base
        exact (nonempty (prefix_nil.mp (base ▸ above))).elim
      · rw [dropLast_concat] at listed
        have earlier : paths.take i ⊆ paths.take count := (take_prefix_take_left (by omega)).subset
        exact earlier (ih listed above)

end Order

end Plan

end SemanticLayer
