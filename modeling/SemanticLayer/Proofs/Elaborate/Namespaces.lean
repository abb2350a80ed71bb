import Mathlib.Data.List.Induction
import SemanticLayer.Proofs.Elaborate.Additions

/-!
The names of a model. The first definition or import of a name counts and stays as it is; every later one is
reported, and nothing else comes of it. So a name is usable or it failed, and never both.
-/
namespace SemanticLayer.Elaborate

open List

/-- A model in which every name is defined once: no name is both usable and failed, and each exported name is one of the
two. -/
structure Namespaced (m : Model) : Prop where
  entities : (m.entities.map Prod.fst).Nodup
  invalid : (m.invalid.map Prod.fst).Nodup
  apart : ∀ name, (m.entity? name).isSome = true → (m.invalid? name).isSome = false
  exports : m.exports.Nodup
  exported : ∀ name ∈ m.exports, (m.entity? name).isSome ≠ (m.invalid? name).isSome

inductive Contributes (i : Inputs) (m : Model) : Document.Statement → Model → Prop where
  /-- The name is taken. -/
  | duplicate {s : Document.Statement} {name : Document.Name} (names : s.definedName? = some name)
      (taken : m.defines name.node = true) :
      Contributes i m s ⟨[], [], [], [], [(⟨.duplicateName name.node, i.location name.span⟩ : LocatedFault).diagnostic]⟩
  | accepted {s : Document.Statement} {name : Document.Name} (names : s.definedName? = some name)
      (free : m.defines name.node = false) (fine : failure? i m s = none) (entity : Entity) (reports : List Diagnostic) :
      Contributes i m s ⟨[(name.node, entity)], [], [name.node], [], reports⟩
  | failed {s : Document.Statement} {name : Document.Name} (names : s.definedName? = some name)
      (free : m.defines name.node = false) {fault : LocatedFault} (fails : failure? i m s = some fault)
      (reports : List Diagnostic) : Contributes i m s ⟨[], [], [name.node], [(name.node, fault.diagnostic)], reports⟩
  /-- The exports whose names are free are taken over, usable or failed, and each of the others is reported once. -/
  | imported {url : String} {span : Span} {imported : Model} (found : i.imports.lookup url = some imported) :
      Contributes i m (.importing url span)
        ⟨(imported.exports.filter (!m.defines ·)).filterMap fun name => (imported.entity? name).map (name, ·), [], [],
          (imported.exports.filter (!m.defines ·)).filterMap fun name => (imported.invalid? name).map (name, ·),
          (imported.exports.filter m.defines).map fun name =>
            (⟨.importCollision name url, i.location span⟩ : LocatedFault).diagnostic⟩
  | absent {url : String} {span : Span} (missing : i.imports.lookup url = none) : Contributes i m (.importing url span) .empty
  | unnamed {expr : Document.QueryExpr} {span : Span} (result : Except Diagnostic Query) (reports : List Diagnostic) :
      Contributes i m (.query none expr span) ⟨[], [result], [], [], reports⟩

section Adding

variable {i : Inputs} {m : Model}

theorem claimAdds_adds (names : s.definedName? = some name) {outcome : Except LocatedFault Entity}
    (fails : m.defines name.node = false → failure? i m s = failureOf outcome) :
    Contributes i m s (claimAdds i m name (define (told reports) name.node outcome)) := by
  unfold claimAdds
  split
  · next taken => exact .duplicate names taken
  · next notTaken =>
    have free : m.defines name.node = false := Bool.eq_false_iff.mpr notTaken
    cases outcome with
    | ok entity => exact .accepted names free (fails free) entity reports
    | error fault =>
      have same : define (told reports) name.node (.error fault) =
          ⟨[], [], [name.node], [(name.node, fault.diagnostic)], (reportIn (told reports) fault).diagnostics⟩ := by
        unfold define reportIn
        dsimp only
        split <;> rfl
      rw [same]
      exact .failed names free (fails free) _

theorem importName_empty (url : String) (span : Span) (good : Namespaced imported) (name : String) :
    importName i url span imported .empty name =
      ⟨((imported.entity? name).map (name, ·)).toList, [], [], ((imported.invalid? name).map (name, ·)).toList, []⟩ := by
  unfold importName
  have apart := good.apart name
  cases entity : imported.entity? name with
  | some e =>
    rw [entity] at apart
    have none : imported.invalid? name = none := by simpa using apart rfl
    rw [none]
    rfl
  | none => cases imported.invalid? name <;> rfl

theorem importName_other (url : String) (span : Span) (imported : Model) (different : other ≠ name) :
    (importName i url span imported .empty name).defines other = false := by
  unfold importName
  rw [if_neg (by simp [Model.empty, Model.defines, Model.entity?, Model.invalid?])]
  split <;> simp [Model.empty, Model.defines, Model.entity?, Model.invalid?, lookup_cons, beq_false_of_ne different]

theorem importAdds_eq (url : String) (span : Span) (good : Namespaced imported) :
    ∀ (names : List String) (taken : String → Bool), names.Nodup → importAdds i url span imported taken names =
      ⟨(names.filter (!taken ·)).filterMap fun name => (imported.entity? name).map (name, ·), [], [],
        (names.filter (!taken ·)).filterMap fun name => (imported.invalid? name).map (name, ·),
        (names.filter taken).map fun name => (⟨.importCollision name url, i.location span⟩ : LocatedFault).diagnostic⟩
  | [], _, _ => rfl
  | name :: rest, taken, nodup => by
    obtain ⟨once, others⟩ := nodup_cons.mp nodup
    rw [importAdds]
    by_cases is : taken name = true
    · rw [importAdds_eq url span good rest taken others]
      simp [is, told, addDiagnostics, Model.append, Model.empty]
    · -- the name does not come again, so it makes no difference that it is taken from now on
      have later {x : String} (mem : x ∈ rest) :
          (taken x || (importName i url span imported .empty name).defines x) = taken x := by
        have different : x ≠ name := fun same => once (same ▸ mem)
        rw [importName_other url span imported different, Bool.or_false]
      rw [if_neg is]
      dsimp only
      rw [importAdds_eq url span good rest _ others, filter_congr fun x mem => later mem,
        filter_congr fun x mem => congrArg not (later mem), importName_empty url span good]
      cases entity : imported.entity? name <;> cases failed : imported.invalid? name <;>
        simp [is, entity, failed, Model.append]

theorem additions_contribute (imports : ∀ url imported, i.imports.lookup url = some imported → Namespaced imported)
    (s : Document.Statement) : Contributes i m s (additions i m s) := by
  cases s with
  | importing url span =>
    rw [additions]
    cases found : i.imports.lookup url with
    | none => exact .absent found
    | some imported =>
      have good := imports url imported found
      show Contributes i m (.importing url span) (importAdds i url span imported m.defines imported.exports)
      rw [importAdds_eq url span good _ _ good.exports]
      exact .imported found
  | source name expr span =>
    refine claimAdds_adds rfl fun free => ?_
    rw [failureOf_map, failure?, if_neg (by simp [free])]
    rfl
  | query name expr span =>
    cases name with
    | none =>
      rw [additions]
      cases (outcome i m none (query none expr)).1 with
      | ok q => exact .unnamed (.ok q) _
      | error fault =>
        have same (reports : List Diagnostic) : answer (told reports) (.error fault) =
            ⟨[], [.error fault.diagnostic], [], [], (reportIn (told reports) fault).diagnostics⟩ := by
          unfold answer reportIn
          dsimp only
          split <;> rfl
        rw [same]
        exact .unnamed _ _
    | some name =>
      refine claimAdds_adds rfl fun free => ?_
      rw [failureOf_map, failure?, if_neg (by simp [free])]
      rfl
  | sql name connection select span =>
    refine claimAdds_adds rfl fun free => ?_
    rw [failure?, if_neg (by simp [free])]

end Adding

/-! ### What stays true -/

def takenNames (m : Model) : List String := m.entities.map Prod.fst ++ m.invalid.map Prod.fst

section Names

variable {i : Inputs} {m added : Model} {s : Document.Statement} {name : String}

theorem lookup_isSome {α : Type} {entries : List (String × α)} :
    (entries.lookup name).isSome = true ↔ name ∈ entries.map Prod.fst := by
  simp

theorem defines_iff : m.defines name = true ↔ name ∈ takenNames m := by
  unfold Model.defines Model.entity? Model.invalid? takenNames
  rw [Bool.or_eq_true, mem_append, lookup_isSome, lookup_isSome]

theorem namespaced_iff : Namespaced m ↔ (takenNames m).Nodup ∧ m.exports.Nodup ∧ m.exports ⊆ takenNames m := by
  unfold takenNames
  rw [nodup_append']
  constructor
  · intro good
    refine ⟨⟨good.entities, good.invalid, fun name usable failed => ?_⟩, good.exports, fun name mem => ?_⟩
    · have clash := good.apart name (lookup_isSome.mpr usable)
      rw [Model.invalid?, lookup_isSome.mpr failed] at clash
      cases clash
    · refine defines_iff.mp (eq_true_of_ne_false fun free => good.exported name mem ?_)
      obtain ⟨first, second⟩ := Bool.or_eq_false_iff.mp free
      rw [first, second]
  · rintro ⟨⟨entities, invalid, apart⟩, exports, exported⟩
    have never {name : String} (usable : (m.entity? name).isSome = true) : (m.invalid? name).isSome = false :=
      Bool.eq_false_iff.mpr fun failed => apart (lookup_isSome.mp usable) (lookup_isSome.mp failed)
    refine ⟨entities, invalid, fun name => never, exports, fun name mem same => ?_⟩
    rcases Bool.or_eq_true_iff.mp (defines_iff.mpr (exported mem)) with usable | failed
    · rw [usable, never usable] at same
      cases same
    · rw [never (same.trans failed)] at failed
      cases failed

theorem takenNames_append : (takenNames (m.append added)).Perm (takenNames m ++ takenNames added) := by
  unfold takenNames Model.append
  simp only [map_append, List.append_assoc]
  refine List.Perm.append_left _ ?_
  rw [← List.append_assoc, ← List.append_assoc]
  exact perm_append_comm.append_right _

theorem Namespaced.append (first : Namespaced m) (second : Namespaced added)
    (fresh : ∀ name ∈ takenNames added, m.defines name = false) : Namespaced (m.append added) := by
  obtain ⟨distinct, exports, taken⟩ := namespaced_iff.mp first
  obtain ⟨distinct', exports', taken'⟩ := namespaced_iff.mp second
  have apart : (takenNames m).Disjoint (takenNames added) := by
    intro name here there
    rw [← defines_iff, fresh name there] at here
    cases here
  refine namespaced_iff.mpr ⟨?_, ?_, ?_⟩
  · exact takenNames_append.nodup_iff.mpr (nodup_append'.mpr ⟨distinct, distinct', apart⟩)
  · exact nodup_append'.mpr ⟨exports, exports', fun name here there => apart (taken here) (taken' there)⟩
  · intro name mem
    refine takenNames_append.symm.subset (mem_append.mpr ?_)
    exact (mem_append.mp mem).imp (fun mem => taken mem) fun mem => taken' mem

theorem names_taken {α : Type} (find : String → Option α) (names : List String) :
    (names.filterMap fun name => (find name).map (name, ·)).map Prod.fst = names.filter fun name => (find name).isSome := by
  induction names with
  | nil => rfl
  | cons name rest ih => cases found : find name <;> simp [found, ih]

theorem Contributes.fresh (imports : ∀ url imported, i.imports.lookup url = some imported → Namespaced imported)
    (adds : Contributes i m s added) : Namespaced added ∧ ∀ name ∈ takenNames added, m.defines name = false := by
  rw [namespaced_iff]
  cases adds with
  | duplicate | absent | unnamed => exact ⟨⟨.nil, .nil, nil_subset _⟩, forall_mem_nil _⟩
  | accepted _ free | failed _ free =>
    refine ⟨⟨nodup_singleton _, nodup_singleton _, List.Subset.refl _⟩, ?_⟩
    intro name mem
    cases mem_singleton.mp mem
    exact free
  | @imported url span imported found =>
    have good := imports url imported found
    have taken : takenNames (⟨(imported.exports.filter (!m.defines ·)).filterMap fun name => (imported.entity? name).map (name, ·),
          [], [], (imported.exports.filter (!m.defines ·)).filterMap fun name => (imported.invalid? name).map (name, ·),
          (imported.exports.filter m.defines).map fun name =>
            (⟨.importCollision name url, i.location span⟩ : LocatedFault).diagnostic⟩ : Model) =
        ((imported.exports.filter (!m.defines ·)).filter fun name => (imported.entity? name).isSome) ++
          (imported.exports.filter (!m.defines ·)).filter fun name => (imported.invalid? name).isSome := by
      unfold takenNames
      rw [names_taken, names_taken]
    have distinct := good.exports.filter (!m.defines ·)
    rw [taken]
    refine ⟨⟨nodup_append'.mpr ⟨distinct.filter _, distinct.filter _, fun name usable failed => ?_⟩, .nil,
      nil_subset _⟩, fun name mem => ?_⟩
    · have clash := good.apart name (mem_filter.mp usable).2
      rw [(mem_filter.mp failed).2] at clash
      cases clash
    · have free : name ∈ imported.exports.filter (!m.defines ·) :=
        (mem_append.mp mem).elim (fun mem => (mem_filter.mp mem).1) fun mem => (mem_filter.mp mem).1
      simpa using (mem_filter.mp free).2

theorem kept_append (fresh : ∀ name ∈ takenNames added, m.defines name = false) (taken : m.defines name = true) :
    (m.append added).entity? name = m.entity? name ∧ (m.append added).invalid? name = m.invalid? name := by
  have absent : added.defines name = false := by
    refine Bool.eq_false_iff.mpr fun there => ?_
    rw [fresh name (defines_iff.mp there)] at taken
    cases taken
  obtain ⟨entity, invalid⟩ := Bool.or_eq_false_iff.mp absent
  rw [Model.entity?_append, Model.invalid?_append, Option.isSome_eq_false_iff.mp entity |> Option.isNone_iff_eq_none.mp,
    Option.isSome_eq_false_iff.mp invalid |> Option.isNone_iff_eq_none.mp, Option.or_none, Option.or_none]
  exact ⟨rfl, rfl⟩

theorem Contributes.exports (adds : Contributes i m s added) : added.exports.Sublist (s.definedName?.map Spanned.node).toList := by
  cases adds with
  | duplicate | absent | unnamed | imported => exact nil_sublist _
  | accepted names | failed names =>
    rw [names]
    exact List.Sublist.refl _

end Names

section Documents

variable {i : Inputs} (imports : ∀ url imported, i.imports.lookup url = some imported → Namespaced imported)

include imports

theorem document_adds (before : List Document.Statement) (s : Document.Statement) : ∃ added,
    Contributes i (document i ⟨before⟩) s added ∧ document i ⟨before ++ [s]⟩ = (document i ⟨before⟩).append added :=
  ⟨_, additions_contribute imports s, document_additions before s⟩

theorem document_namespaced (statements : List Document.Statement) : Namespaced (document i ⟨statements⟩) := by
  induction statements using List.reverseRecOn with
  | nil => exact namespaced_iff.mpr ⟨.nil, .nil, nil_subset _⟩
  | append_singleton before s ih =>
    obtain ⟨added, adds, same⟩ := document_adds imports before s
    obtain ⟨own, fresh⟩ := adds.fresh imports
    rw [same]
    exact ih.append own fresh

theorem document_exports (statements : List Document.Statement) : (document i ⟨statements⟩).exports.Sublist
    (statements.filterMap fun s => s.definedName?.map Spanned.node) := by
  induction statements using List.reverseRecOn with
  | nil => exact nil_sublist _
  | append_singleton before s ih =>
    obtain ⟨added, adds, same⟩ := document_adds imports before s
    have own : [s].filterMap (fun s => s.definedName?.map Spanned.node) = (s.definedName?.map Spanned.node).toList := by
      cases names : s.definedName? <;> simp [names]
    rw [same, filterMap_append]
    exact ih.append adds.exports

/-- However many statements follow, a name that is taken keeps what it stands for. -/
theorem document_keeps (before after : List Document.Statement) (taken : (document i ⟨before⟩).defines name = true) :
    (document i ⟨before ++ after⟩).entity? name = (document i ⟨before⟩).entity? name ∧
      (document i ⟨before ++ after⟩).invalid? name = (document i ⟨before⟩).invalid? name := by
  induction after using List.reverseRecOn with
  | nil => rw [append_nil]; exact ⟨rfl, rfl⟩
  | append_singleton after s ih =>
    obtain ⟨added, adds, same⟩ := document_adds imports (before ++ after) s
    have still : (document i ⟨before ++ after⟩).defines name = true := by
      unfold Model.defines at taken ⊢
      rw [ih.1, ih.2]
      exact taken
    obtain ⟨entity, invalid⟩ := kept_append (adds.fresh imports).2 still
    rw [← List.append_assoc, same, entity, invalid]
    exact ih

end Documents

/-- The names of the model of a document. Each is defined once; those that the document exports are defined by its own
statements, in their order. Every statement adds a definition for a name that is free, or only says that the name is
taken, and from then on the name stands for the same. -/
theorem document_names (i : Inputs) (d : Document)
    (imports : ∀ url imported, i.imports.lookup url = some imported → Namespaced imported) :
    Namespaced (document i d) ∧
      (document i d).exports.Sublist (d.statements.filterMap fun s => s.definedName?.map Spanned.node) ∧
      ∀ before s after, d.statements = before ++ s :: after →
        (∃ added, Contributes i (document i ⟨before⟩) s added ∧ document i ⟨before ++ [s]⟩ = (document i ⟨before⟩).append added) ∧
        ∀ name, (document i ⟨before ++ [s]⟩).defines name = true →
          (document i d).entity? name = (document i ⟨before ++ [s]⟩).entity? name ∧
            (document i d).invalid? name = (document i ⟨before ++ [s]⟩).invalid? name := by
  obtain ⟨statements⟩ := d
  refine ⟨document_namespaced imports statements, document_exports imports statements, ?_⟩
  rintro before s after rfl
  refine ⟨document_adds imports before s, fun name taken => ?_⟩
  rw [List.append_cons]
  exact document_keeps imports (before ++ [s]) after taken

def stock : Model :=
  document ⟨"file:///stock.model", ⟨[("items", .known [⟨"id", .number⟩])], []⟩, fun _ => .duckdb, []⟩
    ⟨[.source ⟨"items", default⟩ (.table none "items" default) default,
      .source ⟨"gone", default⟩ (.table none "gone" default) default]⟩

def shopInputs : Inputs :=
  ⟨"file:///shop.model", ⟨[("items", .known [⟨"id", .number⟩])], []⟩, fun _ => .duckdb, [("stock.model", stock)]⟩

def shopStock : Document :=
  ⟨[.importing "stock.model" default, .source ⟨"items", default⟩ (.table none "items" default) default,
    .importing "stock.model" default]⟩

theorem shop_names : (∀ url imported, shopInputs.imports.lookup url = some imported → Namespaced imported) ∧
    Namespaced (document shopInputs shopStock) ∧ (document shopInputs shopStock).exports = [] ∧
    ((document shopInputs shopStock).entity? "items").isSome = true ∧ ((document shopInputs shopStock).invalid? "gone").isSome = true ∧
    (document shopInputs shopStock).diagnostics.length = 3 := by
  have imports : ∀ url imported, shopInputs.imports.lookup url = some imported → Namespaced imported := by
    intro url imported found
    have listed := mem_of_lookup found
    cases List.mem_singleton.mp listed
    exact document_namespaced (fun _ _ none => by cases none) _
  exact ⟨imports, (document_names shopInputs shopStock imports).1, by decide +kernel, by decide +kernel, by decide +kernel,
    by decide +kernel⟩

end SemanticLayer.Elaborate
