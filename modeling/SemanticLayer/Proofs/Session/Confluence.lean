import SemanticLayer.Proofs.Session.Update
import SemanticLayer.Session.Advance

/-!
Supplies that never contradict one another. What a session holds after them depends only on what they say
altogether: not on their order, not on how they are divided, and not on whether something is said twice. The first
entry for a URL counts and the last one for a schema; where all are the same, both are.
-/
namespace SemanticLayer.Session

open List

def Supply.documents (data : Supply) : List (String × Except String String) :=
  data.texts.map (fun item => (item.1, .ok item.2)) ++ data.unreadable.map fun item => (item.1, .error item.2)

def OneOutcome {α : Type} (said : List (String × α)) : Prop :=
  ∀ key a b, (key, a) ∈ said → (key, b) ∈ said → a = b

/-- Supplies in which every URL, every table and every SQL block comes with one outcome. -/
structure Consistent (family : List Supply) : Prop where
  documents : OneOutcome (family.flatMap Supply.documents)
  tables : OneOutcome (family.flatMap Supply.tables)
  sqlBlocks : OneOutcome (family.flatMap Supply.sqlBlocks)

structure SameData (family other : List Supply) : Prop where
  documents : ∀ item, item ∈ family.flatMap Supply.documents ↔ item ∈ other.flatMap Supply.documents
  tables : ∀ item, item ∈ family.flatMap Supply.tables ↔ item ∈ other.flatMap Supply.tables
  sqlBlocks : ∀ item, item ∈ family.flatMap Supply.sqlBlocks ↔ item ∈ other.flatMap Supply.sqlBlocks
  isFinal : family.any Supply.isFinal = other.any Supply.isFinal

def Supply.merge (first second : Supply) : Supply :=
  ⟨first.texts ++ second.texts, first.unreadable ++ second.unreadable, first.tables ++ second.tables,
    first.sqlBlocks ++ second.sqlBlocks, first.isFinal || second.isFinal⟩

/-- Supplies in another order, merged or split, or repeated. -/
inductive Rearranged : List Supply → List Supply → Prop where
  | reorder (perm : family.Perm other) : Rearranged family other
  /-- The entries of one supply have no order of their own. -/
  | resort (texts : first.texts.Perm other.texts)
      (unreadable : first.unreadable.Perm other.unreadable) (tables : first.tables.Perm other.tables)
      (sqlBlocks : first.sqlBlocks.Perm other.sqlBlocks) (isFinal : first.isFinal = other.isFinal) :
      Rearranged (first :: rest) (other :: rest)
  | merge (first second : Supply) (rest : List Supply) : Rearranged (first :: second :: rest) (first.merge second :: rest)
  | again (first : Supply) (rest : List Supply) : Rearranged (first :: rest) (first :: first :: rest)
  | back (there : Rearranged other family) : Rearranged family other
  | further (there : Rearranged family between) (onwards : Rearranged between other) :
      Rearranged family other

/-! ### Rearranging -/

theorem documents_merge (first second : Supply) (item : String × Except String String) :
    item ∈ (first.merge second).documents ↔ item ∈ first.documents ∨ item ∈ second.documents := by
  unfold Supply.documents Supply.merge
  simp only [map_append, mem_append]
  tauto

theorem SameData.symm (same : SameData family other) : SameData other family :=
  ⟨fun item => (same.documents item).symm, fun item => (same.tables item).symm, fun item => (same.sqlBlocks item).symm,
    same.isFinal.symm⟩

theorem SameData.trans (first : SameData family between) (second : SameData between other) : SameData family other :=
  ⟨fun item => (first.documents item).trans (second.documents item), fun item => (first.tables item).trans (second.tables item),
    fun item => (first.sqlBlocks item).trans (second.sqlBlocks item), first.isFinal.trans second.isFinal⟩

theorem Rearranged.sameData (rearranged : Rearranged family other) : SameData family other := by
  induction rearranged with
  | reorder perm =>
    exact ⟨fun item => (perm.flatMap_right _).mem_iff, fun item => (perm.flatMap_right _).mem_iff,
      fun item => (perm.flatMap_right _).mem_iff, perm.any_eq⟩
  | resort texts unreadable tables sqlBlocks isFinal =>
    have documents := (texts.map fun item => (item.1, (.ok item.2 : Except String String))).append
      (unreadable.map fun item => (item.1, .error item.2))
    exact ⟨fun item => (documents.append_right _).mem_iff, fun item => (tables.append_right _).mem_iff,
      fun item => (sqlBlocks.append_right _).mem_iff, by rw [any_cons, any_cons, isFinal]⟩
  | merge first second rest =>
    refine ⟨fun item => ?_, fun item => ?_, fun item => ?_, ?_⟩
    · rw [flatMap_cons, flatMap_cons, flatMap_cons, mem_append, mem_append, mem_append,
        documents_merge, or_assoc]
    · simp [Supply.merge]
    · simp [Supply.merge]
    · simp [Supply.merge, Bool.or_assoc]
  | again first rest => exact ⟨by simp, by simp, by simp, by simp⟩
  | back _ ih => exact ih.symm
  | further _ _ first second => exact first.trans second

/-! ### Tables of what is said -/

/-- A table in ascending order that has an entry for each key of which something is said, and no others. -/
structure Collects {α : Type} (table said : List (String × α)) : Prop where
  ascends : Ascends table
  known : ∀ {key a}, table.lookup key = some a → (key, a) ∈ said
  covers : ∀ {key a}, (key, a) ∈ said → (table.lookup key).isSome = true

namespace Collects

variable {α : Type} {table said : List (String × α)} {key : String} {a : α}

theorem nil : Collects ([] : List (String × α)) [] where
  ascends := List.Pairwise.nil
  known found := by cases found
  covers mem := by cases mem

theorem add (collects : Collects table said) (key : String) (a : α) : Collects (addSorted key a table) (said ++ [(key, a)]) := by
  refine ⟨collects.ascends.addSorted key a, fun {other b} found => ?_, fun {other b} mem => ?_⟩
  · rw [lookup_addSorted, Option.or_eq_some_iff] at found
    rcases found with found | ⟨_, new⟩
    · exact mem_append_left _ (collects.known found)
    · split at new
      · next same =>
        cases new
        exact same ▸ mem_append_right _ mem_cons_self
      · cases new
  · rw [lookup_addSorted, Option.isSome_or, Bool.or_eq_true]
    rcases mem_append.mp mem with mem | mem
    · exact .inl (collects.covers mem)
    · cases mem_singleton.mp mem
      exact .inr (by simp)

theorem put (collects : Collects table said) (key : String) (a : α) : Collects (putSorted key a table) (said ++ [(key, a)]) := by
  refine ⟨collects.ascends.putSorted key a, fun {other b} found => ?_, fun {other b} mem => ?_⟩
  · rw [lookup_putSorted] at found
    split at found
    · next same =>
      cases found
      exact same ▸ mem_append_right _ mem_cons_self
    · exact mem_append_left _ (collects.known found)
  · rw [lookup_putSorted]
    split
    · rfl
    · next different =>
      rcases mem_append.mp mem with mem | mem
      · exact collects.covers mem
      · cases mem_singleton.mp mem
        exact (different rfl).elim

theorem foldl {β : Type} {step : List (String × α) → β → List (String × α)} (item : β → String × α)
    (each : ∀ {table said} b, Collects table said → Collects (step table b) (said ++ [item b])) :
    ∀ (items : List β) {table said : List (String × α)}, Collects table said →
      Collects (items.foldl step table) (said ++ items.map item)
  | [], _, _, collects => by
    rw [map_nil, append_nil]
    exact collects
  | b :: rest, _, _, collects => by
    rw [map_cons, append_cons]
    exact foldl item each rest (each b collects)

theorem unique (one : OneOutcome said) (collects : Collects table said) {table' said' : List (String × α)}
    (same : ∀ item, item ∈ said ↔ item ∈ said') (collects' : Collects table' said') : table = table' := by
  refine collects.ascends.eq_of_lookup collects'.ascends fun key => ?_
  cases found : table.lookup key with
  | some a =>
    have mem := collects.known found
    obtain ⟨b, found'⟩ := Option.isSome_iff_exists.mp (collects'.covers ((same _).mp mem))
    rw [found', one key a b mem ((same _).mpr (collects'.known found'))]
  | none =>
    cases found' : table'.lookup key with
    | none => rfl
    | some b =>
      have covered := collects.covers ((same _).mpr (collects'.known found'))
      rw [found] at covered
      cases covered

end Collects

/-! ### Sessions -/

def Entry.ofOutcome (item : String × Except String String) : String × Entry :=
  match item.2 with
  | .ok text => (item.1, .ofText item.1 text)
  | .error message => (item.1, .unreadable message)

structure HoldsAll (s : Session) (said : List Supply) : Prop where
  documents : Collects s.documents ((said.flatMap Supply.documents).map Entry.ofOutcome)
  tables : Collects s.catalog.tables (said.flatMap Supply.tables)
  sqlBlocks : Collects s.catalog.sqlBlocks (said.flatMap Supply.sqlBlocks)
  isFinal : s.isFinal = said.any Supply.isFinal

variable {s : Session} {said : List Supply}

theorem collects_documents {documents said : List (String × Entry)} (collects : Collects documents said) (data : Supply) :
    Collects (addUnreadable (addTexts documents data.texts) data.unreadable)
      (said ++ data.documents.map Entry.ofOutcome) := by
  have texts : Collects (addTexts documents data.texts)
      (said ++ data.texts.map fun item => (item.1, Entry.ofText item.1 item.2)) :=
    Collects.foldl _ (fun item given => given.add item.1 (.ofText item.1 item.2)) data.texts collects
  have all : Collects (addUnreadable (addTexts documents data.texts) data.unreadable)
      (said ++ data.texts.map (fun item => (item.1, Entry.ofText item.1 item.2)) ++
        data.unreadable.map fun item => (item.1, Entry.unreadable item.2)) :=
    Collects.foldl _ (fun item given => given.add item.1 (.unreadable item.2)) data.unreadable texts
  rw [Supply.documents, map_append, map_map, map_map, ← List.append_assoc]
  exact all

theorem collects_schemas {said : SchemaTable} (collects : Collects table said)
    (schemas : List (String × SchemaEntry)) :
    Collects (addSchemas table schemas) (said ++ schemas) := by
  have all := Collects.foldl id (fun item given => given.put item.1 item.2) schemas collects
  rw [map_id] at all
  exact all

theorem HoldsAll.update (holds : HoldsAll s said) (data : Supply) : HoldsAll (s.update data) (said ++ [data]) where
  documents := by
    rw [flatMap_append, flatMap_singleton, map_append]
    exact collects_documents holds.documents data
  tables := by
    rw [flatMap_append, flatMap_singleton]
    exact collects_schemas holds.tables data.tables
  sqlBlocks := by
    rw [flatMap_append, flatMap_singleton]
    exact collects_schemas holds.sqlBlocks data.sqlBlocks
  isFinal := by
    rw [any_append, ← holds.isFinal, any_cons, any_nil, Bool.or_false]
    rfl

theorem supplied_holdsAll (root : String) (family : List Supply) : HoldsAll (supplied root family) family := by
  have run (s : Session) (said family : List Supply) (holds : HoldsAll s said) :
      HoldsAll (family.foldl Session.update s) (said ++ family) := by
    induction family generalizing s said with
    | nil => rwa [append_nil]
    | cons data rest ih =>
      rw [append_cons]
      exact ih _ _ (holds.update data)
  exact run (start root) [] family ⟨.nil, .nil, .nil, rfl⟩

theorem supplied_root (root : String) (family : List Supply) : (supplied root family).root = root := by
  have run (s : Session) : (family.foldl Session.update s).root = s.root := by
    induction family generalizing s with
    | nil => rfl
    | cons data rest ih => exact ih (s.update data)
  exact run (start root)

theorem HoldsAll.unique (holds : HoldsAll s said) (holds' : HoldsAll s' said') (consistent : Consistent said)
    (same : SameData said said') (root : s.root = s'.root) : s = s' := by
  have entries : OneOutcome ((said.flatMap Supply.documents).map Entry.ofOutcome) := by
    have key (item : String × Except String String) : (Entry.ofOutcome item).1 = item.1 := by
      unfold Entry.ofOutcome
      split <;> rfl
    intro url a b first second
    obtain ⟨item, mem, is⟩ := mem_map.mp first
    obtain ⟨item', mem', is'⟩ := mem_map.mp second
    have url_eq : item.1 = item'.1 := by rw [← key item, ← key item', is, is']
    have outcome : item.2 = item'.2 := consistent.documents item.1 item.2 item'.2 mem (url_eq ▸ mem')
    rw [Prod.ext url_eq outcome, is'] at is
    exact (congrArg Prod.snd is).symm
  have mapped (item : String × Entry) : item ∈ (said.flatMap Supply.documents).map Entry.ofOutcome ↔
      item ∈ (said'.flatMap Supply.documents).map Entry.ofOutcome := by
    simp only [mem_map, same.documents]
  obtain ⟨_, documents, ⟨tables, sqlBlocks⟩, isFinal⟩ := s
  obtain ⟨_, documents', ⟨tables', sqlBlocks'⟩, isFinal'⟩ := s'
  have sameDocuments : documents = documents' := holds.documents.unique entries mapped holds'.documents
  have sameTables : tables = tables' := holds.tables.unique consistent.tables same.tables holds'.tables
  have sameBlocks : sqlBlocks = sqlBlocks' := holds.sqlBlocks.unique consistent.sqlBlocks same.sqlBlocks holds'.sqlBlocks
  have sameFlag : isFinal = isFinal' := holds.isFinal.trans (same.isFinal.trans holds'.isFinal.symm)
  cases root
  rw [sameDocuments, sameTables, sameBlocks, sameFlag]

/-- Supplies that do not contradict one another lead a new session to the same state and the same answer in whatever order
they come, however they are divided, and however often something is said. -/
theorem supplies_confluent (root : String) {family other : List Supply} (consistent : Consistent family)
    (same : Rearranged family other ∨ SameData family other) : supplied root family = supplied root other ∧
      ∀ settings, advance settings (supplied root family) = advance settings (supplied root other) := by
  have sameData : SameData family other := same.elim Rearranged.sameData id
  have state : supplied root family = supplied root other :=
    (supplied_holdsAll root family).unique (supplied_holdsAll root other) consistent sameData
      ((supplied_root root family).trans (supplied_root root other).symm)
  exact ⟨state, fun settings => by rw [state]⟩

theorem oneOutcome_of_ascends {α : Type} {said : List (String × α)} (ascends : Ascends said) : OneOutcome said :=
  fun _ _ _ first second => Option.some.inj ((ascends.lookup_eq first).symm.trans (ascends.lookup_eq second))

def textFirst : Supply := ⟨[("file:///a.model", "not a document")], [], [], [], false⟩

def restLater : Supply :=
  ⟨[], [("file:///b.model", "no such file")],
    [("customers", .failed "no such table"), ("orders", .known [⟨"id", .number⟩])], [], true⟩

theorem textFirst_confluent : Consistent [textFirst, restLater] ∧
    Rearranged [textFirst, restLater] [restLater.merge textFirst, restLater] ∧
    supplied "file:///a.model" [textFirst, restLater] = supplied "file:///a.model" [restLater.merge textFirst, restLater] ∧
    ∀ settings, advance settings (supplied "file:///a.model" [textFirst, restLater]) =
      advance settings (supplied "file:///a.model" [restLater.merge textFirst, restLater]) := by
  have consistent : Consistent [textFirst, restLater] :=
    ⟨oneOutcome_of_ascends (List.pairwise_pair.mpr (by decide)), oneOutcome_of_ascends (List.pairwise_pair.mpr (by decide)),
      oneOutcome_of_ascends .nil⟩
  have rearranged : Rearranged [textFirst, restLater] [restLater.merge textFirst, restLater] :=
    -- the rest comes first, then both again, with the text among the rest
    .further (.reorder (.swap _ _ _)) (.further (.again _ _) (.further (.reorder (.cons _ (.swap _ _ _))) (.merge _ _ _)))
  exact ⟨consistent, rearranged, supplies_confluent "file:///a.model" consistent (.inl rearranged)⟩

end SemanticLayer.Session
