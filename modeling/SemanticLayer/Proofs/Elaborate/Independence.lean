import SemanticLayer.Proofs.Elaborate.Additions
import SemanticLayer.Proofs.Elaborate.Footprint

/-!
Statements that have nothing to do with one another. A query without a name can be left out of a document, and so can a
definition that no other statement mentions: all the others come to the same, whether it is fine or broken.
-/
namespace SemanticLayer.Elaborate

open List

/-- A statement has nothing to do with a name: it neither defines nor mentions nor imports it. -/
structure Unconcerned (i : Inputs) (name : String) (s : Document.Statement) : Prop where
  defines : ∀ own, s.definedName? = some own → own.node ≠ name
  mentions : name ∉ s.mentions
  imports : ∀ url span imported, s = .importing url span → i.imports.lookup url = some imported → name ∉ imported.exports

def AgreeApart (names : String → Prop) (m other : Model) : Prop :=
  ∀ name, ¬names name → m.entity? name = other.entity? name ∧ m.invalid? name = other.invalid? name

section Two

variable {i : Inputs} {names : String → Prop} {m other : Model}

theorem AgreeApart.defines (agree : AgreeApart names m other) (apart : ¬names name) :
    m.defines name = other.defines name := by
  unfold Model.defines
  rw [(agree name apart).1, (agree name apart).2]

theorem AgreeApart.append (agree : AgreeApart names m other) (added : Model) :
    AgreeApart names (m.append added) (other.append added) := by
  intro name apart
  obtain ⟨entity, invalid⟩ := agree name apart
  simp only [Model.entity?_append, Model.invalid?_append, entity, invalid, and_self]

theorem AgreeApart.knowledge (agree : AgreeApart names m other) (apart : ∀ name ∈ mentions, ¬names name)
    (building : Option String) (tables : List TableRequest) :
    (⟨i.catalog, m.entities, m.invalid⟩ : Knowledge).Agrees (surroundings i other building) tables mentions where
  tables _ _ := rfl
  entities name mem := (agree name (apart name mem)).1
  invalid name mem := (agree name (apart name mem)).2

theorem importAdds_congr (url : String) (span : Span) (imported : Model)
    (same : ∀ name ∈ exports, taken name = taken' name) :
    importAdds i url span imported taken exports = importAdds i url span imported taken' exports := by
  induction exports generalizing taken taken' with
  | nil => rfl
  | cons name rest ih =>
    obtain ⟨here, others⟩ := forall_mem_cons.mp same
    have later (here : Model) : importAdds i url span imported (fun other => taken other || here.defines other) rest =
        importAdds i url span imported (fun other => taken' other || here.defines other) rest :=
      ih fun other mem => congrArg (· || here.defines other) (others other mem)
    rw [importAdds, importAdds, here, ih others]
    dsimp only
    rw [later]

theorem claimAdds_congr (agree : AgreeApart names m other) (apart : ¬names name.node) (added : Model) :
    claimAdds i m name added = claimAdds i other name added := by
  unfold claimAdds
  rw [agree.defines apart]

theorem additions_congr (agree : AgreeApart names m other) (unconcerned : ∀ name, names name → Unconcerned i name s) :
    additions i m s = additions i other s := by
  have mentioned (name : String) (mem : name ∈ s.mentions) : ¬names name :=
    fun differs => (unconcerned name differs).mentions mem
  have defined {own : Document.Name} (is : s.definedName? = some own) : ¬names own.node :=
    fun differs => (unconcerned _ differs).defines own is rfl
  cases s with
  | importing url span =>
    rw [additions, additions]
    cases found : i.imports.lookup url with
    | none => rfl
    | some imported =>
      refine importAdds_congr url span imported fun name mem => agree.defines fun differs => ?_
      exact (unconcerned name differs).imports url span imported rfl found mem
  | source name expr span =>
    have same : outcome i m (some name.node) (source expr) = outcome i other (some name.node) (source expr) :=
      congrArg (fun run => run.run.run []) (source_ignores expr (agree.knowledge mentioned (some name.node) expr.tables))
    rw [additions, same]
    exact claimAdds_congr agree (defined rfl) _
  | query name expr span =>
    have same (name : Option String) : outcome i m none (query name expr) = outcome i other none (query name expr) :=
      congrArg (fun run => run.run.run []) (query_ignores name expr (agree.knowledge mentioned none expr.tables))
    cases name with
    | none => rw [additions, additions, same]
    | some name =>
      rw [additions, same]
      exact claimAdds_congr agree (defined rfl) _
  | sql name connection select span => exact claimAdds_congr agree (defined rfl) _

end Two

/-! ### What is left out -/

def definedNames (s : Document.Statement) : List String := (s.definedName?.map Spanned.node).toList

def isUnnamed (s : Document.Statement) : Bool := !isImport s && s.definedName?.isNone

section One

variable {i : Inputs} {m : Model}

theorem importAdds_plain (url : String) (span : Span) (imported : Model) (taken : String → Bool) (names : List String) :
    (importAdds i url span imported taken names).exports = [] ∧ (importAdds i url span imported taken names).queries = [] := by
  induction names generalizing taken with
  | nil => exact ⟨rfl, rfl⟩
  | cons name rest ih =>
    have one : (importName i url span imported .empty name).exports = [] ∧
        (importName i url span imported .empty name).queries = [] := by
      unfold importName
      rw [if_neg (by simp [Model.empty, Model.defines, Model.entity?, Model.invalid?])]
      split <;> exact ⟨rfl, rfl⟩
    rw [importAdds]
    split
    · obtain ⟨exports, queries⟩ := ih taken
      exact ⟨exports, queries⟩
    · obtain ⟨exports, queries⟩ := ih fun other => taken other || (importName i url span imported .empty name).defines other
      simp only [Model.append, one.1, one.2, exports, queries, append_nil, and_self]

theorem define_plain (reports : List Diagnostic) (name : String) (outcome : Except LocatedFault Entity) :
    (define (told reports) name outcome).exports = [name] ∧ (define (told reports) name outcome).queries = [] := by
  cases outcome with
  | ok entity => exact ⟨rfl, rfl⟩
  | error fault =>
    unfold define reportIn
    dsimp only
    split <;> exact ⟨rfl, rfl⟩

theorem claimAdds_plain (name : Document.Name) (reports : List Diagnostic) (outcome : Except LocatedFault Entity) :
    (claimAdds i m name (define (told reports) name.node outcome)).exports ⊆ [name.node] ∧
      (claimAdds i m name (define (told reports) name.node outcome)).queries = [] := by
  obtain ⟨exports, queries⟩ := define_plain reports name.node outcome
  unfold claimAdds
  split
  · exact ⟨nil_subset _, rfl⟩
  · rw [exports]
    exact ⟨List.Subset.refl _, queries⟩

theorem additions_plain (s : Document.Statement) : (additions i m s).exports ⊆ definedNames s ∧
    (additions i m s).queries.length = if isUnnamed s then 1 else 0 := by
  cases s with
  | importing url span =>
    rw [additions]
    cases i.imports.lookup url with
    | none => exact ⟨nil_subset _, rfl⟩
    | some imported =>
      obtain ⟨exports, queries⟩ := importAdds_plain url span imported m.defines imported.exports
      rw [exports, queries]
      exact ⟨nil_subset _, rfl⟩
  | source name expr span =>
    obtain ⟨exports, queries⟩ := claimAdds_plain name _ _
    exact ⟨exports, congrArg List.length queries⟩
  | query name expr span =>
    cases name with
    | none =>
      rw [additions]
      cases (outcome i m none (query none expr)).1 with
      | ok q => exact ⟨nil_subset _, rfl⟩
      | error fault =>
        unfold answer reportIn
        dsimp only
        split <;> exact ⟨nil_subset _, rfl⟩
    | some name =>
      obtain ⟨exports, queries⟩ := claimAdds_plain name _ _
      exact ⟨exports, congrArg List.length queries⟩
  | sql name connection select span =>
    obtain ⟨exports, queries⟩ := claimAdds_plain name _ _
    exact ⟨exports, congrArg List.length queries⟩

theorem lookup_singleton {α : Type} {other : String} (different : other ≠ name) (a : α) :
    [(name, a)].lookup other = none := by
  rw [lookup_cons, beq_false_of_ne different]
  rfl

theorem additions_other (own : isImport s = false) {name : String} (other : name ∉ definedNames s) :
    (additions i m s).entity? name = none ∧ (additions i m s).invalid? name = none := by
  have definition {own : Document.Name} (different : name ∉ [own.node]) (reports : List Diagnostic)
      (outcome : Except LocatedFault Entity) :
      (claimAdds i m own (define (told reports) own.node outcome)).entity? name = none ∧
        (claimAdds i m own (define (told reports) own.node outcome)).invalid? name = none := by
    have different : name ≠ own.node := fun same => different (mem_singleton.mpr same)
    unfold claimAdds
    split
    · exact ⟨rfl, rfl⟩
    · cases outcome with
      | ok entity => exact ⟨lookup_singleton different entity, rfl⟩
      | error fault =>
        unfold define reportIn
        dsimp only
        split <;> exact ⟨rfl, lookup_singleton different fault.diagnostic⟩
  cases s with
  | importing url span => cases own
  | source | sql => exact definition other _ _
  | query called expr span =>
    cases called with
    | none =>
      rw [additions]
      cases (outcome i m none (query none expr)).1 with
      | ok q => exact ⟨rfl, rfl⟩
      | error fault =>
        unfold answer reportIn
        dsimp only
        split <;> exact ⟨rfl, rfl⟩
    | some called => exact definition other _ _

end One

/-- Several statements add the same to two models that differ in nothing that they have to do with. -/
theorem run_congr (agree : AgreeApart names m other) {statements : List Document.Statement}
    (unconcerned : ∀ s ∈ statements, ∀ name, names name → Unconcerned i name s) : ∃ later,
      statements.foldl (statement i) m = m.append later ∧ statements.foldl (statement i) other = other.append later ∧
      later.exports ⊆ statements.flatMap definedNames := by
  induction statements generalizing m other with
  | nil => exact ⟨.empty, m.append_empty.symm, other.append_empty.symm, nil_subset _⟩
  | cons s rest ih =>
    obtain ⟨here, others⟩ := forall_mem_cons.mp unconcerned
    obtain ⟨later, first, second, exports⟩ := ih (agree.append (additions i other s)) others
    refine ⟨(additions i other s).append later, ?_, ?_, ?_⟩
    · rw [foldl_cons, statement_additions, additions_congr agree here, first, Model.append_assoc]
    · rw [foldl_cons, statement_additions, second, Model.append_assoc]
    · exact append_subset.mpr ⟨fun name mem => mem_append_left _ ((additions_plain s).1 mem),
        fun name mem => mem_append_right _ (exports mem)⟩

/-- A statement can be left out of a document if it is a query without a name, or if the others have nothing to do with the
name that it defines. What the statements before and after it add stays the same: definitions, failures, results, exports
and diagnostics. -/
theorem statement_left_out (i : Inputs) (before after : List Document.Statement) {s : Document.Statement}
    (own : isImport s = false) (alone : ∀ name ∈ definedNames s, ∀ t ∈ before ++ after, Unconcerned i name t) :
    ∃ added later : Model,
      document i ⟨before ++ [s]⟩ = (document i ⟨before⟩).append added ∧
      document i ⟨before ++ s :: after⟩ = ((document i ⟨before⟩).append added).append later ∧
      document i ⟨before ++ after⟩ = (document i ⟨before⟩).append later ∧
      (added.queries.length = if isUnnamed s then 1 else 0) ∧
      (∀ name, name ∉ definedNames s →
        (document i ⟨before ++ after⟩).entity? name = (document i ⟨before ++ s :: after⟩).entity? name ∧
          (document i ⟨before ++ after⟩).invalid? name = (document i ⟨before ++ s :: after⟩).invalid? name) ∧
      (document i ⟨before ++ after⟩).exports =
        (document i ⟨before ++ s :: after⟩).exports.filter (· ∉ definedNames s) := by
  let m := document i ⟨before⟩
  let added := additions i m s
  have agree : AgreeApart (· ∈ definedNames s) (m.append added) m := by
    intro name other
    obtain ⟨entity, invalid⟩ := additions_other (i := i) (m := m) own other
    rw [Model.entity?_append, Model.invalid?_append, entity, invalid, Option.or_none, Option.or_none]
    exact ⟨rfl, rfl⟩
  have behind (t : Document.Statement) (mem : t ∈ after) (name : String) (is : name ∈ definedNames s) : Unconcerned i name t :=
    alone name is t (List.mem_append_right _ mem)
  obtain ⟨later, withIt, withoutIt, exportsAfter⟩ := run_congr agree behind
  have here : document i ⟨before ++ [s]⟩ = m.append added := document_additions before s
  have all : document i ⟨before ++ s :: after⟩ = (m.append added).append later := by
    rw [← withIt, ← here, List.append_cons]
    exact List.foldl_append
  have rest : document i ⟨before ++ after⟩ = m.append later := withoutIt ▸ List.foldl_append
  refine ⟨added, later, here, all, rest, (additions_plain s).2, fun name other => ?_, ?_⟩
  · obtain ⟨entity, invalid⟩ := agree.append later name other
    rw [all, rest]
    exact ⟨entity.symm, invalid.symm⟩
  · have foreign {statements : List Document.Statement} (part : statements ⊆ before ++ after) {name : String}
        (mem : name ∈ statements.flatMap definedNames) : name ∉ definedNames s := by
      intro is
      obtain ⟨t, listed, defines⟩ := List.mem_flatMap.mp mem
      obtain ⟨own, named, same⟩ := Option.map_eq_some_iff.mp (Option.mem_toList.mp defines)
      exact (alone name is t (part listed)).defines own named same
    have exportsBefore : m.exports ⊆ before.flatMap definedNames := by
      have same : AgreeApart (fun _ => False) .empty .empty := fun _ _ => ⟨rfl, rfl⟩
      have free : ∀ t ∈ before, ∀ name, False → Unconcerned i name t := fun _ _ _ never => never.elim
      obtain ⟨start, run, _, exports⟩ := run_congr same free
      show (before.foldl (statement i) .empty).exports ⊆ _
      rw [run]
      exact exports
    have kept {names : List String} (foreign : ∀ name ∈ names, name ∉ definedNames s) :
        names.filter (· ∉ definedNames s) = names := List.filter_eq_self.mpr fun name mem => decide_eq_true (foreign name mem)
    have dropped : added.exports.filter (· ∉ definedNames s) = [] :=
      List.filter_eq_nil_iff.mpr fun name mem => by simpa using (additions_plain s).1 mem
    rw [all, rest]
    show m.exports ++ later.exports = ((m.exports ++ added.exports) ++ later.exports).filter _
    rw [List.filter_append, List.filter_append, dropped, List.append_nil,
      kept fun name mem => foreign (List.subset_append_left _ _) (exportsBefore mem),
      kept fun name mem => foreign (List.subset_append_right _ _) (exportsAfter mem)]

def itemTable : Inputs := ⟨"file:///items.model", ⟨[("items", .known [⟨"id", .number⟩])], []⟩, fun _ => .duckdb, []⟩

def itemsSource : Document.Statement := .source ⟨"items", default⟩ (.table none "items" default) default

def brokenSource : Document.Statement := .source ⟨"broken", default⟩ (.table none "gone" default) default

def itemsListed : Document.Statement :=
  .query none ⟨.source (.named ⟨"items", default⟩),
    [.stage ⟨[.project [.reference ⟨["id"], default⟩ []]], default⟩], default⟩ default

theorem broken_left_out : isImport brokenSource = false ∧
    (∀ name ∈ definedNames brokenSource, ∀ t ∈ [itemsSource] ++ [itemsListed], Unconcerned itemTable name t) ∧
    (document itemTable ⟨[itemsSource, brokenSource, itemsListed]⟩).hasErrors = true ∧
    (document itemTable ⟨[itemsSource, itemsListed]⟩).hasErrors = false ∧
    ∃ added later : Model,
      document itemTable ⟨[itemsSource, brokenSource]⟩ = (document itemTable ⟨[itemsSource]⟩).append added ∧
      document itemTable ⟨[itemsSource, brokenSource, itemsListed]⟩ =
        ((document itemTable ⟨[itemsSource]⟩).append added).append later ∧
      document itemTable ⟨[itemsSource, itemsListed]⟩ = (document itemTable ⟨[itemsSource]⟩).append later := by
  have alone : ∀ name ∈ definedNames brokenSource, ∀ t ∈ [itemsSource] ++ [itemsListed], Unconcerned itemTable name t := by
    intro name is t mem
    cases List.mem_singleton.mp is
    rcases List.mem_cons.mp mem with rfl | mem
    · refine ⟨fun own named => ?_, List.not_mem_nil, fun _ _ _ import_ => by cases import_⟩
      cases named
      decide
    · cases List.mem_singleton.mp mem
      refine ⟨fun own named => (by cases named), ?_, fun _ _ _ import_ => by cases import_⟩
      decide
  obtain ⟨added, later, first, all, rest, _⟩ := statement_left_out itemTable [itemsSource] [itemsListed] rfl alone
  exact ⟨rfl, alone, by decide +kernel, by decide +kernel, added, later, first, all, rest⟩

end SemanticLayer.Elaborate
