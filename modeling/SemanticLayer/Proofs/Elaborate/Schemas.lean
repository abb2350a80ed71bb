import SemanticLayer.Proofs.Elaborate.Footprint
import SemanticLayer.Proofs.Elaborate.Model

/-!
Which schemas elaboration asks for. It looks at the catalog for the tables and SQL blocks that a document
lists as needed, and for nothing else: catalogs that agree on these give the same model. Where all of them
have an entry, a fault that lies with a schema is that of an entry which says why there is none.
-/
namespace SemanticLayer

open List

namespace Catalog

/-- A fault lies with no schema, or with one of which the catalog says why it could not be had. -/
def Explains (c : Catalog) (fault : Fault) : Prop :=
  fault.kind = .schemaDependency → ∃ key message, fault = .schemaFailed key message ∧
    (c.tables.lookup key = some (.failed message) ∨ c.sqlBlocks.lookup key = some (.failed message))

def Accounts (c : Catalog) (d : Diagnostic) : Prop :=
  d.kind = .schemaDependency → ∃ key message location, d = (Fault.schemaFailed key message).diagnostic location ∧
    (c.tables.lookup key = some (.failed message) ∨ c.sqlBlocks.lookup key = some (.failed message))

variable {c : Catalog}

theorem explains_own {fault : Fault} (own : fault.isOwn = true) : c.Explains fault := by
  intro schema
  cases fault <;> simp_all [Fault.isOwn, Fault.kind]

theorem explains_echo (name : String) : c.Explains (.invalidReference name) := nofun

theorem accounts_diagnostic {f : LocatedFault} (explained : c.Explains f.fault) : c.Accounts f.diagnostic := by
  intro schema
  obtain ⟨key, message, same, found⟩ := explained schema
  refine ⟨key, message, f.location, ?_, found⟩
  rw [LocatedFault.diagnostic, same]

theorem find_supplied {table : SchemaTable} (supplied : (table.lookup key).isSome)
    (h : find table key = .error fault) :
    ∃ message, fault = .schemaFailed key message ∧ table.lookup key = some (.failed message) := by
  unfold find at h
  cases found : table.lookup key with
  | none => rw [found] at supplied; cases supplied
  | some entry =>
    rw [found] at h
    cases entry <;> cases h
    exact ⟨_, rfl, rfl⟩

end Catalog

namespace Elaborate

/-- A complaint about a schema says why it could not be had. -/
def schemaComplaints (c : Catalog) : Complaints where
  Faults := c.Explains
  Reports := c.Accounts
  own := Catalog.explains_own
  echo := Catalog.explains_echo
  report := Catalog.accounts_diagnostic
  warning _ _ := nofun

def AgreeOn (c d : Catalog) (tables : List TableRequest) : Prop :=
  ∀ r ∈ tables, c.tables.lookup r.key = d.tables.lookup r.key

section Statements

variable {α : Type} {i : Inputs} {m : Model} {c : Catalog} {K : Complaints}

theorem AgreeOn.knowledge (agree : AgreeOn c i.catalog tables) (names : List String) :
    (⟨c, m.entities, m.invalid⟩ : Knowledge).Agrees (surroundings i m building) tables names :=
  ⟨agree, fun _ _ => rfl, fun _ _ => rfl⟩

theorem running_ignores {action : BuildM α}
    (ignores : Ignores (surroundings i m building) ⟨c, m.entities, m.invalid⟩ action) :
    running { i with catalog := c } m building action = running i m building action := by
  have same : action ⟨i.url, c, m.entities, m.invalid, building⟩ =
      action ⟨i.url, i.catalog, m.entities, m.invalid, building⟩ := ignores
  unfold running
  rw [same]

theorem statement_ignores (m : Model) (s : Document.Statement) (tables : AgreeOn c i.catalog s.tables)
    (sql : ∀ r ∈ s.sql?, c.sqlBlocks.lookup r.key = i.catalog.sqlBlocks.lookup r.key) :
    statement { i with catalog := c } m s = statement i m s := by
  cases s with
  | importing url span => rfl
  | source name expr span =>
    rw [statement, running_ignores (source_ignores expr (tables.knowledge _))]
    rfl
  | query name expr span =>
    cases name with
    | none => rw [statement, statement, running_ignores (query_ignores none expr (tables.knowledge _))]
    | some name =>
      rw [statement, running_ignores (query_ignores (some name.node) expr (tables.knowledge _))]
      rfl
  | sql name connection select span =>
    have found : c.sqlBlock (schemaKey connection name.node) =
        i.catalog.sqlBlock (schemaKey connection name.node) := by
      unfold Catalog.sqlBlock Catalog.find
      rw [show c.sqlBlocks.lookup (schemaKey connection name.node) = _ from
        sql ⟨connection, name.node, select⟩ rfl]
      rfl
    have same : sqlBlock { i with catalog := c } name.node connection select =
        sqlBlock i name.node connection select := by
      unfold sqlBlock
      rw [found]
    rw [statement, same]
    rfl

/-- All that a model tells of failures: what it reports, and why definitions and queries failed. -/
structure Explained (K : Complaints) (m : Model) : Prop where
  diagnostics : ∀ d ∈ m.diagnostics, K.Reports d
  invalid : ∀ entry ∈ m.invalid, K.Reports entry.2
  queries : ∀ d, .error d ∈ m.queries → K.Reports d

section

variable (explained : Explained K m)

include explained

theorem addDiagnostics_explained (accounted : ∀ d ∈ more, K.Reports d) :
    Explained K (addDiagnostics m more) :=
  ⟨forall_mem_append.mpr ⟨explained.diagnostics, accounted⟩, explained.invalid, explained.queries⟩

theorem reportIn_explained (why : K.Faults f.fault) : Explained K (reportIn m f) := by
  unfold reportIn
  split
  · exact explained
  · exact addDiagnostics_explained explained
      (forall_mem_singleton.mpr (K.report why))

theorem define_explained {outcome : Except LocatedFault Entity} (name : String)
    (why : Yields (fun f => K.Faults f.fault) outcome fun _ => True) : Explained K (define m name outcome) := by
  cases outcome with
  | ok entity => exact ⟨explained.diagnostics, explained.invalid, explained.queries⟩
  | error f =>
    have reported := reportIn_explained explained why
    refine ⟨reported.diagnostics, ?_, reported.queries⟩
    exact forall_mem_append.mpr ⟨reported.invalid, forall_mem_singleton.mpr (K.report why)⟩

theorem answer_explained {outcome : Except LocatedFault Query}
    (why : Yields (fun f => K.Faults f.fault) outcome fun _ => True) : Explained K (answer m outcome) := by
  cases outcome with
  | ok q =>
    refine ⟨explained.diagnostics, explained.invalid, fun d mem => ?_⟩
    rcases mem_append.mp mem with mem | mem
    · exact explained.queries d mem
    · cases mem_singleton.mp mem
  | error f =>
    have reported := reportIn_explained explained why
    refine ⟨reported.diagnostics, reported.invalid, fun d mem => ?_⟩
    rcases mem_append.mp mem with mem | mem
    · exact reported.queries d mem
    · cases mem_singleton.mp mem
      exact K.report why

theorem running_explained {action : BuildM α} {post : α → Prop}
    (builds : Builds K (surroundings i m building) names action post) :
    Explained K (running i m building action).2 ∧
      Yields (fun f => K.Faults f.fault) (running i m building action).1 fun _ => True := by
  obtain ⟨holds, _, yields⟩ := builds [] (forall_mem_nil _)
  exact ⟨addDiagnostics_explained explained holds, yields.weaken (fun _ h => h.1) fun _ _ => trivial⟩

theorem claiming_explained (goes : Explained K (go ())) :
    Explained K (claiming i m name go) := by
  unfold claiming
  split
  · exact reportIn_explained explained (K.own rfl)
  · exact goes

theorem importName_explained (good : Explained K imported) (url : String) (span : Span)
    (name : String) : Explained K (importName i url span imported m name) := by
  unfold importName
  split
  · exact reportIn_explained explained (K.own rfl)
  · split
    · exact ⟨explained.diagnostics, explained.invalid, explained.queries⟩
    · next found =>
      refine ⟨explained.diagnostics, ?_, explained.queries⟩
      refine forall_mem_append.mpr ⟨explained.invalid, forall_mem_singleton.mpr ?_⟩
      exact good.invalid _ (mem_of_lookup found)
    · exact explained

end

theorem importing_explained (url : String) (span : Span) (good : Explained K imported) (names : List String)
    (explained : Explained K m) : Explained K (names.foldl (importName i url span imported) m) := by
  induction names generalizing m with
  | nil => exact explained
  | cons name rest ih => exact ih (importName_explained explained good url span name)

theorem sqlBlock_explained
    (answered : ∀ fault, i.catalog.sqlBlock (schemaKey connection name) = .error fault → K.Faults fault) :
    Yields (fun f => K.Faults f.fault) (sqlBlock i name connection select location) fun _ => True := by
  unfold sqlBlock
  split
  · trivial
  · next fault failed => exact answered fault failed

theorem sqlWarnings_explained (connection : Option String) (select : String) (location : Location) :
    ∀ d ∈ sqlWarnings i connection select location, K.Reports d := by
  unfold sqlWarnings
  split
  · exact forall_mem_singleton.mpr (K.warning _ _)
  · exact forall_mem_nil _

theorem statement_explained (sound : ModelSound m) (explained : Explained K m)
    (imports : ∀ url imported, i.imports.lookup url = some imported → Explained K imported)
    (s : Document.Statement) (tables : Answered K i.catalog s.tables)
    (sql : ∀ r ∈ s.sql?, ∀ fault, i.catalog.sqlBlock r.key = .error fault → K.Faults fault) :
    Explained K (statement i m s) := by
  cases s with
  | importing url span =>
    rw [statement]
    split
    · next imported found => exact importing_explained url span (imports url imported found) _ explained
    · exact explained
  | source name expr span =>
    rw [statement]
    have run := running_explained explained
      (source_builds (sound.surroundings (some name.node)) expr tables)
    exact claiming_explained explained (define_explained run.1 _ (run.2.map fun _ h => h))
  | query name expr span =>
    cases name with
    | none =>
      have run := running_explained explained (query_builds (sound.surroundings none) none expr tables)
      exact answer_explained run.1 run.2
    | some name =>
      rw [statement]
      have run := running_explained explained
        (query_builds (sound.surroundings none) (some name.node) expr tables)
      exact claiming_explained explained (define_explained run.1 _ (run.2.map fun _ h => h))
  | sql name connection select span =>
    rw [statement]
    refine claiming_explained explained (define_explained ?_ _ (sqlBlock_explained ?_))
    · exact addDiagnostics_explained explained (sqlWarnings_explained _ _ _)
    · exact sql ⟨connection, name.node, select⟩ rfl

end Statements

end Elaborate

namespace Document

theorem mem_tables {d : Document} (given : s ∈ d.statements) (mem : r ∈ s.tables) : r ∈ d.tables :=
  mem_ordered.mpr (mem_flatMap.mpr ⟨s, given, mem⟩)

theorem mem_sqlBlocks {d : Document} (given : s ∈ d.statements) (mem : r ∈ s.sql?) : r ∈ d.sqlBlocks :=
  mem_ordered.mpr (mem_filterMap.mpr ⟨s, given, mem⟩)

end Document

namespace Elaborate

/-- The model of a document depends on what it requests, and on nothing else of the catalog. -/
theorem document_ignores (i : Inputs) (d : Document) (tables : AgreeOn c i.catalog d.tables)
    (sql : ∀ r ∈ d.sqlBlocks, c.sqlBlocks.lookup r.key = i.catalog.sqlBlocks.lookup r.key) :
    document { i with catalog := c } d = document i d := by
  refine foldl_ext _ _ _ fun m s given => statement_ignores m s ?_ ?_
  · exact fun r mem => tables r (Document.mem_tables given mem)
  · exact fun r mem => sql r (Document.mem_sqlBlocks given mem)

/-- What a document complains about beyond its own faults lies with the schemas that it requests. -/
theorem document_explained (i : Inputs) (d : Document)
    (imports : ∀ url imported, i.imports.lookup url = some imported → ModelSound imported ∧ Explained K imported)
    (tables : Answered K i.catalog d.tables)
    (sql : ∀ r ∈ d.sqlBlocks, ∀ fault, i.catalog.sqlBlock r.key = .error fault → K.Faults fault) :
    Explained K (document i d) := by
  have steps : ∀ (rest : List Document.Statement) (m : Model), rest ⊆ d.statements → ModelSound m →
      Explained K m → Explained K (rest.foldl (statement i) m) := by
    intro rest
    induction rest with
    | nil => exact fun m _ _ explained => explained
    | cons s rest ih =>
      intro m given sound explained
      obtain ⟨here, others⟩ := cons_subset.mp given
      refine ih _ others (statement_sound sound s fun _ url imported found => (imports url imported found).1) ?_
      refine statement_explained sound explained (fun url imported found => (imports url imported found).2) s ?_ ?_
      · exact fun r mem => tables r (Document.mem_tables here mem)
      · exact fun r mem => sql r (Document.mem_sqlBlocks here mem)
  exact steps d.statements .empty (Subset.refl _) empty_sound
    ⟨by simp [Model.empty], by simp [Model.empty], by simp [Model.empty]⟩

def Supplied (c : Catalog) (tables : List TableRequest) : Prop :=
  ∀ r ∈ tables, (c.tables.lookup r.key).isSome

theorem Supplied.answered (supplied : Supplied c tables) : Answered (schemaComplaints c) c tables := by
  intro r mem fault failed _
  obtain ⟨message, same, failed⟩ := Catalog.find_supplied (supplied r mem) failed
  exact ⟨_, message, same, .inl failed⟩

theorem sqlBlock_answered {c : Catalog} (supplied : (c.sqlBlocks.lookup key).isSome)
    (failed : c.sqlBlock key = .error fault) : (schemaComplaints c).Faults fault := by
  intro _
  obtain ⟨message, same, failed⟩ := Catalog.find_supplied supplied failed
  exact ⟨_, message, same, .inr failed⟩

end Elaborate

end SemanticLayer
