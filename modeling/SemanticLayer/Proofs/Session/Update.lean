import SemanticLayer.Proofs.Sorted
import SemanticLayer.Session.Basic

/-!
What supplying data does to a session. The first entry for a URL counts, and the last one for a schema; so
what is held of documents stays, what is supplied is held afterwards, and nothing else comes in.
-/
namespace SemanticLayer.Session

open List

variable {s : Session} {data : Supply} {url key : String} {e : Entry}

/-- The session of a root document after some data were supplied. Every session is one of these. -/
def supplied (root : String) (data : List Supply) : Session := data.foldl update (start root)

/-! ### Documents -/

theorem lookup_addTexts (documents : List (String × Entry)) (texts : List (String × String)) :
    (addTexts documents texts).lookup url =
      (documents.lookup url).or ((texts.lookup url).map (Entry.ofText url)) := by
  unfold addTexts
  induction texts generalizing documents with
  | nil => rw [foldl_nil, lookup_nil, Option.map_none, Option.or_none]
  | cons item rest ih =>
    obtain ⟨other, text⟩ := item
    rw [foldl_cons, ih]
    dsimp only [addEntry]
    rw [lookup_addSorted, lookup_entry, Option.or_assoc]
    by_cases same : url = other
    · subst same
      rw [if_pos rfl, if_pos rfl, Option.some_or, Option.map_some]
    · rw [if_neg same, if_neg same, Option.none_or]

theorem lookup_addUnreadable (documents : List (String × Entry)) (messages : List (String × String)) :
    (addUnreadable documents messages).lookup url =
      (documents.lookup url).or ((messages.lookup url).map Entry.unreadable) := by
  unfold addUnreadable
  induction messages generalizing documents with
  | nil => rw [foldl_nil, lookup_nil, Option.map_none, Option.or_none]
  | cons item rest ih =>
    obtain ⟨other, message⟩ := item
    rw [foldl_cons, ih]
    dsimp only [addEntry]
    rw [lookup_addSorted, lookup_entry, Option.or_assoc]
    by_cases same : url = other
    · rw [if_pos same, if_pos same, Option.some_or, Option.map_some]
    · rw [if_neg same, if_neg same, Option.none_or]

theorem entry_update : entry? (s.update data) url =
    (s.entry? url).or (((data.texts.lookup url).map (Entry.ofText url)).or
      ((data.unreadable.lookup url).map Entry.unreadable)) := by
  rw [← Option.or_assoc]
  exact (lookup_addUnreadable _ _).trans (congrArg (Option.or · _) (lookup_addTexts _ _))

theorem entry_update_held (held : s.entry? url = some e) : entry? (s.update data) url = some e := by
  rw [entry_update, held, Option.some_or]

theorem holds_update (held : s.holds url = true) : (s.update data).holds url = true := by
  obtain ⟨e, held⟩ := Option.isSome_iff_exists.mp held
  rw [holds, entry_update_held held, Option.isSome_some]

theorem document?_update (held : s.holds url = true) : (s.update data).document? url = s.document? url := by
  obtain ⟨e, held⟩ := Option.isSome_iff_exists.mp held
  unfold document?
  rw [entry_update_held held, held]

theorem holds_supplied (given : url ∈ data.texts.map Prod.fst ∨ url ∈ data.unreadable.map Prod.fst) :
    (s.update data).holds url = true := by
  have found {items : List (String × String)} (mem : url ∈ items.map Prod.fst) : (items.lookup url).isSome = true := by
    obtain ⟨item, listed, rfl⟩ := mem_map.mp mem
    exact lookup_isSome_iff.mpr ⟨item, listed, beq_self_eq_true _⟩
  unfold holds
  rw [entry_update]
  simp only [Option.isSome_or, Option.isSome_map, Bool.or_eq_true]
  rcases given with given | given
  · exact .inr (.inl (found given))
  · exact .inr (.inr (found given))

/-- Of a text that is no document, no more is told than that. -/
def Plain (s : Session) : Prop :=
  ∀ url diagnostics, s.entry? url = some (.rejected diagnostics) → diagnostics = [Document.malformed url]

theorem Plain.update (plain : s.Plain) (data : Supply) : (s.update data).Plain := by
  intro url diagnostics held
  rw [entry_update, Option.or_eq_some_iff, Option.or_eq_some_iff] at held
  rcases held with held | ⟨_, new | ⟨_, new⟩⟩
  · exact plain url diagnostics held
  · obtain ⟨text, _, read⟩ := Option.map_eq_some_iff.mp new
    unfold Entry.ofText at read
    split at read <;> cases read
    rfl
  · obtain ⟨message, _, impossible⟩ := Option.map_eq_some_iff.mp new
    cases impossible

theorem supplied_plain (root : String) (data : List Supply) : (supplied root data).Plain := by
  unfold supplied
  have fresh : (start root).Plain := fun url diagnostics held => by cases held
  generalize start root = s at fresh
  induction data generalizing s with
  | nil => exact fresh
  | cons first rest ih => exact ih _ (fresh.update first)

/-! ### Schemas -/

theorem lookup_addSchemas (table : SchemaTable) (schemas : List (String × SchemaEntry)) :
    (addSchemas table schemas).lookup key = (schemas.reverse.lookup key).or (table.lookup key) := by
  unfold addSchemas
  induction schemas generalizing table with
  | nil => rfl
  | cons item rest ih =>
    obtain ⟨other, entry⟩ := item
    rw [foldl_cons, ih, lookup_putSorted, reverse_cons, lookup_append, Option.or_assoc, lookup_entry,
      lookup_nil]
    by_cases same : key = other
    · rw [if_pos same, if_pos same, Option.some_or]
    · rw [if_neg same, if_neg same, Option.none_or]

end SemanticLayer.Session
