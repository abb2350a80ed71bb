import Mathlib.Tactic.Tauto
import SemanticLayer.Sorted

/-!
What is kept in ascending order: the elements of a list, and the entries of a table by key.
-/
namespace SemanticLayer

open List

section Elements

variable {α : Type} [Ord α] [DecidableEq α] {a : α}

theorem mem_insertOrdered {b : α} {bs : List α} : a ∈ insertOrdered b bs ↔ a = b ∨ a ∈ bs := by
  induction bs with
  | nil => simp [insertOrdered]
  | cons first rest ih =>
    rw [insertOrdered]
    split
    · next same => simp [same]
    · split
      · simp
      · rw [mem_cons, mem_cons]
        tauto

theorem mem_ordered {as : List α} : a ∈ ordered as ↔ a ∈ as := by
  unfold ordered
  induction as with
  | nil => simp
  | cons b rest ih => exact mem_insertOrdered.trans ((or_congr Iff.rfl ih).trans mem_cons.symm)

end Elements

section Texts

theorem compare_isLT {b : String} : (compare a b).isLT = true ↔ a < b := by
  rw [Ordering.isLT_iff_eq_lt]
  exact compareOfLessAndEq_eq_lt

variable {as : List String}

theorem insertOrdered_ascending (a : String) (ascending : as.Pairwise (· < ·)) :
    (insertOrdered a as).Pairwise (· < ·) := by
  induction as with
  | nil => exact pairwise_singleton _ _
  | cons b rest ih =>
    obtain ⟨first, others⟩ := pairwise_cons.mp ascending
    rw [insertOrdered]
    split
    · exact ascending
    · next different =>
      split
      · next less =>
        refine pairwise_cons.mpr ⟨fun c mem => ?_, ascending⟩
        rcases mem_cons.mp mem with rfl | mem
        · exact compare_isLT.mp less
        · exact String.lt_trans (compare_isLT.mp less) (first c mem)
      · next notLess =>
        refine pairwise_cons.mpr ⟨fun c mem => ?_, ih others⟩
        rcases mem_insertOrdered.mp mem with rfl | mem
        · have reaches : b ≤ c := String.not_lt.mp fun less => notLess (compare_isLT.mpr less)
          exact Std.lt_of_le_of_ne reaches fun same => different same.symm
        · exact first c mem

theorem ordered_ascending (as : List String) : (ordered as).Pairwise (· < ·) := by
  induction as with
  | nil => exact .nil
  | cons a rest ih => exact insertOrdered_ascending a ih

theorem nodup_of_ascending (ascending : as.Pairwise (· < ·)) : as.Nodup := by
  refine ascending.imp fun {a b} less same => ?_
  rw [same] at less
  exact String.lt_irrefl b less

theorem eq_of_ascending (first : as.Pairwise (· < ·)) (second : bs.Pairwise (· < ·)) (same : ∀ a, a ∈ as ↔ a ∈ bs) :
    as = bs := by
  have perm : as.Perm bs :=
    (perm_ext_iff_of_nodup (nodup_of_ascending first) (nodup_of_ascending second)).mpr same
  refine perm.eq_of_pairwise (fun a b _ _ less greater => ?_) first second
  exact (String.lt_irrefl a (String.lt_trans less greater)).elim

end Texts

section Tables

variable {α : Type} {key other : String} {value : α} {entries : List (String × α)}

theorem mem_of_lookup (found : entries.lookup key = some value) : (key, value) ∈ entries := by
  obtain ⟨before, after, rfl, _⟩ := lookup_eq_some_iff.mp found
  simp

theorem lookup_of_mem (mem : (key, value) ∈ entries) : (entries.lookup key).isSome := by
  cases h : entries.lookup key with
  | some _ => rfl
  | none => exact absurd (lookup_eq_none_iff.mp h (key, value) mem) (by simp)

theorem lookup_entry :
    ((key, value) :: entries).lookup other = if other = key then some value else entries.lookup other := by
  rw [lookup_cons]
  by_cases same : other = key
  · simp [same]
  · rw [beq_false_of_ne same, if_neg same]

theorem lookup_putSorted :
    (putSorted key value entries).lookup other = if other = key then some value else entries.lookup other := by
  induction entries with
  | nil => exact lookup_entry
  | cons entry rest ih =>
    obtain ⟨k, v⟩ := entry
    rw [putSorted]
    split
    · exact lookup_entry
    · split
      · next same =>
        rw [lookup_entry, lookup_entry, ← same]
        split <;> rfl
      · next different =>
        rw [lookup_entry, lookup_entry, ih]
        by_cases here : other = k
        · rw [if_pos here, if_pos here, if_neg fun same => different (same.symm.trans here)]
        · rw [if_neg here, if_neg here]

theorem lookup_addSorted : (addSorted key value entries).lookup other =
    (entries.lookup other).or (if other = key then some value else none) := by
  unfold addSorted
  split
  · next taken =>
    by_cases same : other = key
    · rw [same, Option.or_of_isSome taken]
    · rw [if_neg same, Option.or_none]
  · next free =>
    rw [lookup_putSorted]
    by_cases same : other = key
    · rw [if_pos same, if_pos same, same, Option.not_isSome_iff_eq_none.mp free, Option.none_or]
    · rw [if_neg same, if_neg same, Option.or_none]

def Ascends (entries : List (String × α)) : Prop := entries.Pairwise fun a b => a.1 < b.1

theorem fst_of_mem_putSorted {entry : String × α} (mem : entry ∈ putSorted key value entries) :
    entry.1 = key ∨ entry ∈ entries := by
  induction entries with
  | nil => exact .inl (congrArg Prod.fst (mem_singleton.mp mem))
  | cons first rest ih =>
    rw [putSorted] at mem
    split at mem
    · rcases mem_cons.mp mem with rfl | mem
      · exact .inl rfl
      · exact .inr mem
    · split at mem
      · rcases mem_cons.mp mem with rfl | mem
        · exact .inl rfl
        · exact .inr (mem_cons_of_mem _ mem)
      · rcases mem_cons.mp mem with rfl | mem
        · exact .inr mem_cons_self
        · exact (ih mem).imp_right (mem_cons_of_mem _)

theorem Ascends.putSorted (ascends : Ascends entries) (key : String) (value : α) : Ascends (putSorted key value entries) := by
  induction entries with
  | nil => exact pairwise_singleton _ _
  | cons first rest ih =>
    obtain ⟨least, others⟩ := pairwise_cons.mp ascends
    rw [SemanticLayer.putSorted]
    split
    · next less =>
      refine pairwise_cons.mpr ⟨fun entry mem => ?_, ascends⟩
      rcases mem_cons.mp mem with rfl | mem
      · exact less
      · exact String.lt_trans less (least entry mem)
    · next notLess =>
      split
      · next same =>
        subst same
        exact pairwise_cons.mpr ⟨least, others⟩
      · next different =>
        refine pairwise_cons.mpr ⟨fun entry mem => ?_, ih others⟩
        rcases fst_of_mem_putSorted mem with is | mem
        · rw [is]
          exact Std.lt_of_le_of_ne (String.not_lt.mp notLess) fun same => different same.symm
        · exact least entry mem

theorem Ascends.addSorted (ascends : Ascends entries) (key : String) (value : α) : Ascends (addSorted key value entries) := by
  unfold SemanticLayer.addSorted
  split
  · exact ascends
  · exact ascends.putSorted key value

theorem Ascends.lookup_eq (ascends : Ascends entries) (mem : (key, value) ∈ entries) : entries.lookup key = some value := by
  induction entries with
  | nil => cases mem
  | cons first rest ih =>
    obtain ⟨k, v⟩ := first
    obtain ⟨least, others⟩ := pairwise_cons.mp ascends
    rw [lookup_entry]
    rcases mem_cons.mp mem with is | mem
    · cases is
      rw [if_pos rfl]
    · have greater : k < key := least _ mem
      rw [if_neg (String.ne_of_lt greater).symm, ih others mem]

theorem Ascends.eq_of_lookup {table : List (String × α)} (first : Ascends entries) (second : Ascends table)
    (same : ∀ key, entries.lookup key = table.lookup key) : entries = table := by
  have distinct {entries : List (String × α)} (ascends : Ascends entries) : entries.Nodup := by
    refine Pairwise.imp (fun {a b} less same => ?_) ascends
    rw [same] at less
    exact String.lt_irrefl b.1 less
  have members (entry : String × α) : entry ∈ entries ↔ entry ∈ table := by
    obtain ⟨key, value⟩ := entry
    constructor
    · intro mem
      exact mem_of_lookup ((same key).symm.trans (first.lookup_eq mem))
    · intro mem
      exact mem_of_lookup ((same key).trans (second.lookup_eq mem))
  refine ((perm_ext_iff_of_nodup (distinct first) (distinct second)).mpr members).eq_of_pairwise
    (fun a b _ _ less greater => ?_) first second
  exact (String.lt_irrefl a.1 (String.lt_trans less greater)).elim

end Tables

end SemanticLayer
