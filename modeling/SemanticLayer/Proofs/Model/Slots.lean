import Mathlib.Data.List.Nodup
import SemanticLayer.Model.Slots

/-!
What the operations on fields do to look-ups. Hiding a field changes nothing for definitions that were
written against it, and renaming one leaves it to be found under both names.
-/
namespace SemanticLayer.Slots

open List

variable {φ ψ : Type}

def Distinct (s : Slots φ) : Prop := (s.entries.map Slot.name).Nodup

theorem slot?_cons (first : Slot φ) (rest : List (Slot φ)) (name : String) :
    (Slots.mk (first :: rest)).slot? name =
      if first.name = name then some first else (Slots.mk rest).slot? name := by
  by_cases h : first.name = name <;> simp [slot?, h]

theorem slot?_put (entries : List (Slot φ)) (slot : Slot φ) (name : String) :
    (Slots.mk (put entries slot)).slot? name =
      if slot.name = name then some slot else (Slots.mk entries).slot? name := by
  induction entries with
  | nil => exact slot?_cons slot [] name
  | cons first rest ih =>
    by_cases same : first.name = slot.name
    · simp [put, same, slot?_cons]
      split <;> rfl
    · have kept : put (first :: rest) slot = first :: put rest slot := by simp [put, same]
      rw [kept, slot?_cons, slot?_cons, ih]
      by_cases here : first.name = name
      · have other : slot.name ≠ name := fun h => same (here.trans h.symm)
        simp [other]
      · simp [here]

theorem put_fresh (entries : List (Slot φ)) (slot : Slot φ) (fresh : slot.name ∉ entries.map Slot.name) :
    put entries slot = entries ++ [slot] := by
  induction entries with
  | nil => rfl
  | cons first rest ih =>
    simp only [map_cons, mem_cons, not_or] at fresh
    have distinct : first.name ≠ slot.name := fun h => fresh.1 h.symm
    simp [put, distinct, ih fresh.2]

theorem names_put (entries : List (Slot φ)) (slot : Slot φ) (taken : slot.name ∈ entries.map Slot.name) :
    (put entries slot).map Slot.name = entries.map Slot.name := by
  induction entries with
  | nil => cases taken
  | cons first rest ih =>
    by_cases same : first.name = slot.name
    · simp [put, same]
    · have later : slot.name ∈ rest.map Slot.name := by
        rcases mem_cons.mp taken with h | h
        · exact (same h.symm).elim
        · exact h
      simp [put, same, ih later]

theorem lookup?_insert (s : Slots φ) (name other : String) (field : φ) :
    (s.insert name field).lookup? other = if name = other then some field else s.lookup? other := by
  unfold lookup? insert
  rw [slot?_put]
  split <;> rfl

variable {s : Slots φ} {field : φ}

theorem distinct_insert (distinct : s.Distinct) (name : String) (field : φ) : (s.insert name field).Distinct := by
  unfold Distinct insert at *
  by_cases taken : name ∈ s.entries.map Slot.name
  · rw [names_put _ ⟨name, field, false⟩ taken]
    exact distinct
  · have fresh := put_fresh s.entries ⟨name, field, false⟩ taken
    simp only [fresh, map_append]
    exact nodup_append.mpr ⟨distinct, by simp, by grind⟩

theorem distinct_empty : (empty : Slots φ).Distinct := nodup_nil

theorem lookup?_foldl_insert (fields : List (String × φ)) (s : Slots φ) (name : String) :
    (fields.foldl (fun slots (name, field) => slots.insert name field) s).lookup? name =
      (fields.reverse.lookup name).or (s.lookup? name) := by
  induction fields generalizing s with
  | nil => simp
  | cons entry rest ih =>
    obtain ⟨key, field⟩ := entry
    simp only [foldl_cons, reverse_cons, lookup_append]
    rw [ih, lookup?_insert]
    by_cases h : key = name
    · subst h
      cases hr : rest.reverse.lookup key <;> simp
    · have other : (name == key) = false := by simpa using fun same : name = key => h same.symm
      cases hr : rest.reverse.lookup name <;> simp [h, lookup_cons, other]

theorem distinct_foldl_insert (fields : List (String × φ)) (distinct : s.Distinct) :
    (fields.foldl (fun slots (name, field) => slots.insert name field) s).Distinct := by
  induction fields generalizing s with
  | nil => exact distinct
  | cons entry rest ih => exact ih (distinct_insert distinct _ _)

theorem lookup?_ofList (fields : List (String × φ)) (name : String) :
    (ofList fields).lookup? name = fields.reverse.lookup name := by
  unfold ofList
  rw [lookup?_foldl_insert]
  simp [lookup?, slot?, empty]

theorem distinct_ofList (fields : List (String × φ)) : (ofList fields).Distinct :=
  distinct_foldl_insert fields distinct_empty

theorem lookup?_restrict (s : Slots φ) (keep : String → Bool) (name : String) :
    (s.restrict keep).lookup? name = s.lookup? name := by
  unfold lookup? slot? restrict
  rw [find?_map, Option.map_map]
  rfl

theorem distinct_restrict (distinct : s.Distinct) (keep : String → Bool) : (s.restrict keep).Distinct := by
  unfold Distinct restrict at *
  simpa [Function.comp_def] using distinct

theorem slot?_of_get? (h : s.get? name = some field) : s.slot? name = some ⟨name, field, false⟩ := by
  unfold get? at h
  cases hs : s.slot? name with
  | none => simp [hs] at h
  | some slot =>
    obtain ⟨own, f, hidden⟩ := slot
    have same : own = name := by simpa using find?_some hs
    cases hidden <;> simp_all

theorem lookup?_of_get? (h : s.get? name = some field) : s.lookup? name = some field := by
  unfold lookup?
  rw [slot?_of_get? h]
  rfl

theorem slot?_of_mem (distinct : s.Distinct) {slot : Slot φ} (mem : slot ∈ s.entries) :
    s.slot? slot.name = some slot := by
  obtain ⟨entries⟩ := s
  unfold Distinct at distinct
  induction entries with
  | nil => cases mem
  | cons first rest ih =>
    simp only [map_cons, nodup_cons] at distinct
    rw [slot?_cons]
    rcases mem_cons.mp mem with rfl | later
    · simp
    · have other : first.name ≠ slot.name := by
        intro same
        exact distinct.1 (same ▸ mem_map_of_mem later)
      simpa [other] using ih distinct.2 later

theorem lookup?_of_mem (distinct : s.Distinct) {slot : Slot φ} (mem : slot ∈ s.entries) :
    s.lookup? slot.name = some slot.field := by
  unfold lookup?
  rw [slot?_of_mem distinct mem]
  rfl

theorem slot_of_lookup? (h : s.lookup? name = some field) :
    ∃ slot ∈ s.entries, slot.name = name ∧ slot.field = field := by
  obtain ⟨slot, found, same⟩ := Option.map_eq_some_iff.mp h
  exact ⟨slot, mem_of_find?_eq_some found, by simpa using find?_some found, same⟩

theorem lookup?_eq_none (absent : name ∉ s.entries.map Slot.name) : s.lookup? name = none := by
  cases h : s.lookup? name with
  | none => rfl
  | some field =>
    obtain ⟨slot, mem, same, _⟩ := slot_of_lookup? h
    exact (absent (mem_map.mpr ⟨slot, mem, same⟩)).elim

theorem defines_eq (s : Slots φ) (name : String) : s.defines name = (s.lookup? name).isSome := by
  unfold defines lookup?
  cases s.slot? name <;> rfl

theorem not_mem_of_lookup? (distinct : s.Distinct) (free : s.lookup? name = none) :
    name ∉ s.entries.map Slot.name := by
  intro mem
  obtain ⟨slot, found, rfl⟩ := mem_map.mp mem
  rw [lookup?_of_mem distinct found] at free
  cases free

theorem foldl_put (entries placed : List (Slot φ)) (distinct : ((placed ++ entries).map Slot.name).Nodup) :
    entries.foldl put placed = placed ++ entries := by
  induction entries generalizing placed with
  | nil => simp
  | cons first rest ih =>
    have fresh : first.name ∉ placed.map Slot.name := by
      intro mem
      rw [map_append, nodup_append] at distinct
      exact distinct.2.2 _ mem first.name (by simp) rfl
    rw [foldl_cons, put_fresh placed first fresh, ih]
    · simp
    · simpa using distinct

section Rename

variable {s : Slots φ} {old new : String} {field : φ}

def moved (old new : String) (slot : Slot φ) : Slot φ :=
  if slot.name == old && !slot.hidden then ⟨new, slot.field, false⟩ else slot

theorem moved_other {slot : Slot φ} (other : slot.name ≠ old) : moved old new slot = slot := by
  simp [moved, other]

theorem moved_self : moved old new ⟨old, field, false⟩ = ⟨new, field, false⟩ := by
  simp [moved]

/-- Renaming moves the visible slot to its new name and leaves a hidden one at the end. -/
theorem rename_entries (distinct : s.Distinct) (visible : s.get? old = some field)
    (free : s.lookup? new = none) :
    (s.rename old new).entries = s.entries.map (moved old new) ++ [⟨old, field, true⟩] ∧
      (s.rename old new).Distinct := by
  have unique : ∀ slot ∈ s.entries, slot.name = old → slot = ⟨old, field, false⟩ := by
    intro slot mem rfl
    have found := slot?_of_mem distinct mem
    rw [slot?_of_get? visible] at found
    exact (Option.some.inj found).symm
  have absent := not_mem_of_lookup? distinct free
  have names : ∀ slot ∈ s.entries,
      (slot.name = old ∧ (moved old new slot).name = new) ∨
      (slot.name ≠ old ∧ (moved old new slot).name = slot.name) := by
    intro slot mem
    by_cases same : slot.name = old
    · refine .inl ⟨same, ?_⟩
      rw [unique slot mem same, moved_self]
    · exact .inr ⟨same, by rw [moved_other same]⟩
  have distinct_moved : ((s.entries.map (moved old new)).map Slot.name).Nodup := by
    rw [map_map]
    refine Nodup.map_on ?_ (Nodup.of_map _ distinct)
    intro a ha b hb same
    have eq_of_name : a.name = b.name → a = b := by
      intro h
      have found := slot?_of_mem distinct ha
      rw [h, slot?_of_mem distinct hb] at found
      exact (Option.some.inj found).symm
    grind
  have moved_away : old ∉ (s.entries.map (moved old new)).map Slot.name := by
    grind
  have entries : (s.rename old new).entries = s.entries.map (moved old new) ++ [⟨old, field, true⟩] := by
    have placed : s.entries.foldl (fun entries slot => put entries (moved old new slot)) [] =
        s.entries.map (moved old new) := by
      rw [← foldl_map, foldl_put _ [] distinct_moved]
      rfl
    unfold rename
    rw [visible]
    exact (congrArg (fun entries => put entries ⟨old, field, true⟩) placed).trans
      (put_fresh _ _ moved_away)
  refine ⟨entries, ?_⟩
  unfold Distinct
  rw [entries, map_append]
  exact nodup_append.mpr ⟨distinct_moved, by simp, by grind⟩

theorem lookup?_rename (distinct : s.Distinct) (visible : s.get? old = some field)
    (free : s.lookup? new = none) (name : String) :
    (s.rename old new).lookup? name = if new = name then some field else s.lookup? name := by
  obtain ⟨entries, distinct'⟩ := rename_entries distinct visible free
  have found : ∀ slot ∈ s.entries.map (moved old new) ++ [⟨old, field, true⟩],
      (s.rename old new).lookup? slot.name = some slot.field := by
    intro slot mem
    exact lookup?_of_mem distinct' (entries ▸ mem)
  have visible' := slot?_of_get? visible
  split
  · next same =>
    subst same
    refine found ⟨new, field, false⟩ (mem_append_left _ ?_)
    exact mem_map.mpr ⟨_, mem_of_find?_eq_some visible', moved_self⟩
  · next other =>
    by_cases same : name = old
    · subst same
      rw [lookup?_of_get? visible]
      exact found ⟨name, field, true⟩ (by simp)
    · cases h : s.lookup? name with
      | some f =>
        obtain ⟨slot, mem, rfl, rfl⟩ := slot_of_lookup? h
        have mem' := mem_map_of_mem (f := moved old new) mem
        rw [moved_other same] at mem'
        exact found slot (mem_append_left _ mem')
      | none =>
        apply lookup?_eq_none
        rw [entries]
        have absent := not_mem_of_lookup? distinct h
        intro mem
        simp only [map_append, mem_append, map_map, mem_map, map_cons,
          mem_cons, map_nil, not_mem_nil, or_false] at mem
        rcases mem with ⟨slot, mem, named⟩ | rfl
        · by_cases here : slot.name = old
          · have : slot = ⟨old, field, false⟩ := by
              have found := slot?_of_mem distinct mem
              rw [here, visible'] at found
              exact (Option.some.inj found).symm
            subst this
            simp only [Function.comp_apply, moved_self] at named
            exact other named
          · simp only [Function.comp_apply, moved_other here] at named
            exact absent (mem_map.mpr ⟨slot, mem, named⟩)
        · exact same rfl

end Rename

end SemanticLayer.Slots
