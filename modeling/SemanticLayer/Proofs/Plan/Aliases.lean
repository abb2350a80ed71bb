import Mathlib.Data.List.Induction
import Mathlib.Data.List.Infix
import SemanticLayer.Plan.Query
import SemanticLayer.Proofs.Model.Names

/-!
Aliases. The relation that joins lead to is labelled by their names with a separator between them, and the base
has a label of its own. Names that can be recognized in such a label are told apart by it; others need not be.
-/
namespace SemanticLayer

open List

namespace Namespace

/-- Every relation that joins lead to has an alias of its own, and none that widened aggregates take. -/
structure DistinctAliases (root : Namespace) : Prop where
  separate : ∀ path path' inner inner', root.within? path = some inner → root.within? path' = some inner' →
    Plan.aliasOf path = Plan.aliasOf path' → path = path'
  reserved : ∀ path inner (i : Nat), root.within? path = some inner → Plan.aliasOf path ≠ s!"__u{i}"

end Namespace

namespace Plan

/-- A name that stands out in an alias: it has no separator in it, ends in no part of one, and is not that of
the base. -/
structure Recognizable (name : String) : Prop where
  nonempty : name.toList ≠ []
  base : name ≠ baseAlias
  whole : ¬['_', '_'] <:+: name.toList
  ended : name.toList.getLast? ≠ some '_'

instance (name : String) : Decidable (Recognizable name) :=
  decidable_of_iff (name.toList ≠ [] ∧ name ≠ baseAlias ∧ ¬['_', '_'] <:+: name.toList ∧
    name.toList.getLast? ≠ some '_')
    ⟨fun ⟨nonempty, base, whole, ended⟩ => ⟨nonempty, base, whole, ended⟩,
      fun ⟨nonempty, base, whole, ended⟩ => ⟨nonempty, base, whole, ended⟩⟩

theorem prefix_eq (whole : ¬['_', '_'] <:+: y) (ended : y.getLast? ≠ some '_') (is : y = x ++ c)
    (same : ['_', '_'] ++ a = c ++ (['_', '_'] ++ b)) : c = [] := by
  match c, is, same with
  | [], _, _ => rfl
  | [last], is, same =>
    cases same
    exact (ended (by rw [is]; simp)).elim
  | first :: second :: rest, is, same =>
    cases same
    exact (whole ⟨x, rest, by rw [is]; simp⟩).elim

theorem separated_injective : ∀ {xs ys : List (List Char)},
    (∀ x ∈ xs, ¬['_', '_'] <:+: x ∧ x.getLast? ≠ some '_') →
    (∀ y ∈ ys, ¬['_', '_'] <:+: y ∧ y.getLast? ≠ some '_') →
    xs ≠ [] → ys ≠ [] → ['_', '_'].intercalate xs = ['_', '_'].intercalate ys → xs = ys
  | [], _, _, _, nonempty, _, _ => (nonempty rfl).elim
  | _, [], _, _, _, nonempty, _ => (nonempty rfl).elim
  | [x], [y], _, _, _, _, same => by simpa using same
  | [x], y :: y' :: ys, plain, _, _, _, same => by
    rw [intercalate_cons_cons, intercalate_singleton] at same
    exact ((plain x mem_cons_self).1 ⟨y, _, same.symm⟩).elim
  | x :: x' :: xs, [y], _, plain, _, _, same => by
    rw [intercalate_cons_cons, intercalate_singleton] at same
    exact ((plain y mem_cons_self).1 ⟨x, _, same⟩).elim
  | x :: x' :: xs, y :: y' :: ys, plainX, plainY, _, _, same => by
    obtain ⟨hereX, laterX⟩ := forall_mem_cons.mp plainX
    obtain ⟨hereY, laterY⟩ := forall_mem_cons.mp plainY
    have first : x = y := by
      rcases append_eq_append_iff.mp same with ⟨c, is, rest⟩ | ⟨c, is, rest⟩
      · rw [prefix_eq hereY.1 hereY.2 is rest, append_nil] at is
        exact is.symm
      · rw [prefix_eq hereX.1 hereX.2 is rest, append_nil] at is
        exact is
    subst first
    have rest := append_cancel_left (append_cancel_left same)
    rw [separated_injective laterX laterY (cons_ne_nil _ _) (cons_ne_nil _ _) rest]

theorem aliasOf_toList (nonempty : path ≠ []) :
    (aliasOf path).toList = ['_', '_'].intercalate (path.map String.toList) := by
  unfold aliasOf
  rw [if_neg (by simpa using nonempty), String.toList_intercalate]
  rfl

theorem aliasOf_ne_base (plain : ∀ name ∈ path, Recognizable name) (nonempty : path ≠ []) :
    aliasOf path ≠ baseAlias := by
  intro same
  match path, nonempty with
  | [name], _ => exact (plain name mem_cons_self).base same
  | name :: next :: rest, nonempty =>
    have chars := congrArg String.toList same
    rw [aliasOf_toList nonempty, map_cons, map_cons, intercalate_cons_cons] at chars
    have separated : ['_', '_'] <:+: baseAlias.toList := ⟨name.toList, _, chars⟩
    revert separated
    decide

theorem aliasOf_injective (plain : ∀ name ∈ path, Recognizable name) (plain' : ∀ name ∈ path', Recognizable name)
    (same : aliasOf path = aliasOf path') : path = path' := by
  by_cases empty : path = []
  · subst empty
    by_cases empty' : path' = []
    · exact empty'.symm
    · exact (aliasOf_ne_base plain' empty' same.symm).elim
  by_cases empty' : path' = []
  · subst empty'
    exact (aliasOf_ne_base plain empty same).elim
  have chars := congrArg String.toList same
  rw [aliasOf_toList empty, aliasOf_toList empty'] at chars
  have marks {path : List String} (plain : ∀ name ∈ path, Recognizable name) :
      ∀ x ∈ path.map String.toList, ¬['_', '_'] <:+: x ∧ x.getLast? ≠ some '_' := fun x mem => by
    obtain ⟨name, given, rfl⟩ := mem_map.mp mem
    exact ⟨(plain name given).whole, (plain name given).ended⟩
  have names := separated_injective (marks plain) (marks plain') (by simpa using empty) (by simpa using empty') chars
  exact map_injective_iff.mpr (fun a b => String.toList_inj.mp) names

theorem aliasOf_ne_widened (plain : ∀ name ∈ path, Recognizable name) (i : Nat) : aliasOf path ≠ s!"__u{i}" := by
  intro same
  have chars := congrArg String.toList same
  rw [String.toList_append] at chars
  match path with
  | [] => cases chars
  | name :: rest =>
    have first := plain name mem_cons_self
    have start : ∃ more, name.toList ++ more = '_' :: '_' :: 'u' :: (toString i).toList := by
      rw [aliasOf_toList (cons_ne_nil _ _)] at chars
      cases rest with
      | nil => exact ⟨[], by exact chars⟩
      | cons next rest =>
        exact ⟨_, chars⟩
    obtain ⟨more, is⟩ := start
    cases h : name.toList with
    | nil => exact first.nonempty h
    | cons a tail =>
      rw [h] at is
      cases tail with
      | nil =>
        cases is
        exact first.ended (by rw [h]; rfl)
      | cons b tail =>
        obtain ⟨rfl, later⟩ := cons.inj is
        obtain ⟨rfl, _⟩ := cons.inj later
        exact first.whole ⟨[], tail, h.symm⟩

end Plan

/-- Where the names of joins can be recognized in aliases, the aliases are distinct. -/
theorem Namespace.distinctAliases_of_names {root : Namespace}
    (plain : ∀ place parent name j, root.within? place = some parent → parent.lookup? name = some (.join j) →
      Plan.Recognizable name) : root.DistinctAliases := by
  have path_plain {path : List String} {inner : Namespace} (within : root.within? path = some inner) :
      ∀ name ∈ path, Plan.Recognizable name := by
    induction path using reverseRecOn generalizing inner with
    | nil => exact nofun
    | append_singleton place last ih =>
      obtain ⟨parent, there, within⟩ := Option.bind_eq_some_iff.mp (within?_append .. ▸ within)
      obtain ⟨j, found, _⟩ := within?_cons_inv within
      intro name mem
      rcases mem_append.mp mem with mem | mem
      · exact ih there name mem
      · cases mem_singleton.mp mem
        exact plain place parent last j there found
  exact ⟨fun _ _ _ _ within within' => Plan.aliasOf_injective (path_plain within) (path_plain within'),
    fun _ _ i within => Plan.aliasOf_ne_widened (path_plain within) i⟩

end SemanticLayer
