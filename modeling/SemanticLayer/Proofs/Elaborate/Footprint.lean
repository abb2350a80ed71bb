import SemanticLayer.Proofs.Elaborate.Source

/-!
What the elaboration of a source or a query looks at: the schemas of the tables that it lists, and the definitions that
it mentions by name. Whatever else is known makes no difference.
-/
namespace SemanticLayer

open List hiding span

namespace Document

mutual

def SourceExpr.mentions : SourceExpr → List String
  | .named name | .fromSql name => [name.node]
  | .table _ _ _ => []
  | .fromQuery query _ => query.mentions
  | .refine base body _ => base.mentions ++ propertyMentions body

def propertyMentions : List SourceProperty → List String
  | [] => []
  | property :: rest => property.mentions ++ propertyMentions rest

def SourceProperty.mentions : SourceProperty → List String
  | .join joins => joinMentions joins
  | _ => []

def joinMentions : List JoinDecl → List String
  | [] => []
  | join :: rest => join.mentions ++ joinMentions rest

def JoinDecl.mentions : JoinDecl → List String
  | ⟨_, _, some source, _, _⟩ => source.mentions
  | ⟨name, _, none, _, _⟩ => [name.node]

def QueryExpr.mentions : QueryExpr → List String
  | ⟨.source source, _, _⟩ => source.mentions
  | ⟨.query name, _, _⟩ => [name.node]

end

def Statement.mentions : Statement → List String
  | .source _ expr _ => expr.mentions
  | .query _ expr _ => expr.mentions
  | .importing _ _ | .sql _ _ _ _ => []

end Document

namespace Elaborate

structure Knowledge where
  catalog : Catalog
  entities : List (String × Entity)
  invalid : List (String × Diagnostic)

def Surroundings.knowing (S : Surroundings) (k : Knowledge) : Surroundings :=
  ⟨S.url, k.catalog, k.entities, k.invalid, S.building⟩

structure Knowledge.Agrees (k : Knowledge) (S : Surroundings) (tables : List TableRequest) (names : List String) : Prop where
  tables : ∀ r ∈ tables, k.catalog.tables.lookup r.key = S.catalog.tables.lookup r.key
  entities : ∀ name ∈ names, k.entities.lookup name = S.entities.lookup name
  invalid : ∀ name ∈ names, k.invalid.lookup name = S.invalid.lookup name

variable {α β : Type} {S : Surroundings} {k : Knowledge}

theorem Knowledge.Agrees.split (agrees : k.Agrees S (a ++ b) (names ++ others)) :
    k.Agrees S a names ∧ k.Agrees S b others := by
  constructor
  · exact ⟨fun r mem => agrees.tables r (mem_append_left _ mem),
      fun name mem => agrees.entities name (mem_append_left _ mem),
      fun name mem => agrees.invalid name (mem_append_left _ mem)⟩
  · exact ⟨fun r mem => agrees.tables r (mem_append_right _ mem),
      fun name mem => agrees.entities name (mem_append_right _ mem),
      fun name mem => agrees.invalid name (mem_append_right _ mem)⟩

def Ignores (S : Surroundings) (k : Knowledge) (action : BuildM α) : Prop := action (S.knowing k) = action S

theorem ignores_bind {action : BuildM α} {next : α → BuildM β} (first : Ignores S k action)
    (rest : ∀ a, Ignores S k (next a)) : Ignores S k (action >>= next) := by
  show (action (S.knowing k) >>= fun a => next a (S.knowing k)) = action S >>= fun a => next a S
  rw [first, funext rest]

theorem ignores_read {next : Surroundings → BuildM α} (same : next (S.knowing k) = next S)
    (rest : Ignores S k (next S)) : Ignores S k (read >>= next) :=
  (congrFun same _).trans rest

theorem ignores_guard [Decidable bad] {next : BuildM α} (rest : Ignores S k next) :
    Ignores S k (do if bad then BuildM.fail span fault
                    next) := by
  by_cases h : bad
  · rw [if_pos h]
    exact ignores_bind rfl fun _ => rest
  · rw [if_neg h]
    exact rest

theorem ignores_report (f : LocatedFault) : Ignores S k (BuildM.report f) := by
  unfold BuildM.report
  split <;> rfl

theorem ignores_settle (found : List LocatedFault) : Ignores S k (BuildM.settle found) := by
  have reports : ∀ rest : List LocatedFault, Ignores S k (rest.forM BuildM.report) := by
    intro rest
    induction rest with
    | nil => rfl
    | cons f rest ih => exact ignores_bind (ignores_report f) fun _ => ih
  cases found with
  | nil => rfl
  | cons first rest => exact ignores_bind (reports rest) fun _ => rfl

/-- The joins among some declarations ignore what differs. -/
def JoinsIgnore (S : Surroundings) (k : Knowledge) (declarations : List Declaration) : Prop :=
  ∀ decl source, .join decl source ∈ declarations → Ignores S k source

theorem buildJoins_ignores (joins : JoinsIgnore S k kept) : Ignores S k (buildJoins kept) := by
  induction kept with
  | nil => rfl
  | cons d rest ih =>
    have others := ih fun decl source mem => joins decl source (mem_cons_of_mem _ mem)
    cases d with
    | join decl source =>
      rw [buildJoins_join]
      refine ignores_bind (congrArg ExceptT.lift (joins decl source mem_cons_self)) fun _ => ?_
      exact ignores_bind others fun _ => rfl
    | field _ _ | view _ =>
      exact others

theorem refine_ignores (base : Source) (body : List Document.SourceProperty) {declarations : List Declaration}
    (joins : JoinsIgnore S k declarations) (span : Span) :
    Ignores S k (refine base body declarations span) := by
  unfold Ignores
  rw [refine_eq]
  refine ignores_bind (buildJoins_ignores fun decl source mem => joins decl source ?_) fun built => ?_
  · exact (claimNames_claims S.url (reshape S.url base.fields body).1 declarations).given mem
  · exact ignores_bind (ignores_settle _) fun _ => ignores_bind (ignores_settle _) fun _ => rfl

theorem tableSource_ignores (agrees : k.Agrees S [⟨connection, path⟩] names) (span : Span) :
    Ignores S k (tableSource connection path span) := by
  have found : k.catalog.table (schemaKey connection path) = S.catalog.table (schemaKey connection path) := by
    unfold Catalog.table Catalog.find
    rw [show k.catalog.tables.lookup (schemaKey connection path) = _ from agrees.tables _ mem_cons_self]
    rfl
  show (BuildM.located span (k.catalog.table _) >>= _) (S.knowing k) = (BuildM.located span _ >>= _) S
  rw [found]
  cases S.catalog.table (schemaKey connection path) <;> rfl

variable {name : Document.Name}

section

variable (agrees : k.Agrees S tables [name.node])

include agrees

theorem entityOf?_ignores : Ignores S k (entityOf? name) := by
  have entities := agrees.entities _ mem_cons_self
  have invalid := agrees.invalid _ mem_cons_self
  show (do if (k.invalid.lookup name.node).isSome then BuildM.fail name.span (.invalidReference name.node)
           return k.entities.lookup name.node : BuildM (Option Entity)) (S.knowing k) =
    (do if (S.invalid.lookup name.node).isSome then BuildM.fail name.span (.invalidReference name.node)
        return S.entities.lookup name.node : BuildM (Option Entity)) S
  rw [entities, invalid]
  exact ignores_guard rfl

theorem namedSource_ignores : Ignores S k (namedSource name) := by
  refine ignores_read rfl (ignores_guard ?_)
  refine ignores_bind (entityOf?_ignores agrees) fun found => ?_
  match found with
  | none | some (.source _) | some (.query _) | some (.sqlBlock _) => rfl

theorem namedQuery_ignores : Ignores S k (namedQuery name) := by
  refine ignores_bind (entityOf?_ignores agrees) fun found => ?_
  match found with
  | none | some (.source _) | some (.query _) | some (.sqlBlock _) => rfl

theorem namedSql_ignores : Ignores S k (namedSql name) := by
  refine ignores_bind (entityOf?_ignores agrees) fun found => ?_
  match found with
  | none | some (.source _) | some (.query _) | some (.sqlBlock _) => rfl

end

theorem queryOver_ignores (name : Option String) (source : Source) (stages : List Stage)
    (pipeline : List Document.PipeElement) (span : Span) :
    Ignores S k (queryOver name source stages pipeline span) := by
  refine ignores_bind rfl fun location => ?_
  simp only
  cases pipelineStages location.url false (after location.url span source.fields stages)
    (stages.isEmpty && source.origin.isTable) pipeline with
  | error fault => rfl
  | ok added => exact ignores_bind rfl fun _ => ignores_guard rfl

mutual

theorem source_ignores : ∀ (e : Document.SourceExpr), k.Agrees S e.tables e.mentions → Ignores S k (source e)
  | .named name, agrees => by
    exact namedSource_ignores agrees
  | .table connection path span, agrees => by
    exact tableSource_ignores agrees span
  | .fromQuery inner span, agrees => by
    exact ignores_bind (query_ignores none inner agrees) fun _ => rfl
  | .fromSql name, agrees => by
    exact namedSql_ignores agrees
  | .refine base body span, agrees => by
    obtain ⟨first, second⟩ := agrees.split
    exact ignores_bind (source_ignores base first) fun built =>
      refine_ignores built body (bodyDeclarations_ignores body second) span

theorem query_ignores (name : Option String) :
    ∀ (e : Document.QueryExpr), k.Agrees S e.tables e.mentions → Ignores S k (query name e)
  | ⟨.source inner, pipeline, span⟩, agrees => by
    exact ignores_bind (ignores_bind (source_ignores inner agrees) fun _ => rfl) fun head =>
      queryOver_ignores name head.1 head.2 pipeline span
  | ⟨.query base, pipeline, span⟩, agrees => by
    exact ignores_bind (ignores_bind (namedQuery_ignores agrees) fun _ => rfl) fun head =>
      queryOver_ignores name head.1 head.2 pipeline span

theorem bodyDeclarations_ignores : ∀ (body : List Document.SourceProperty),
    k.Agrees S (Document.propertyTables body) (Document.propertyMentions body) → JoinsIgnore S k (bodyDeclarations body)
  | [], _ => by rw [bodyDeclarations]; exact fun _ _ mem => by cases mem
  | p :: rest, agrees => by
    obtain ⟨first, second⟩ := agrees.split
    intro decl source mem
    rcases mem_append.mp mem with mem | mem
    · exact propertyDeclarations_ignores p first decl source mem
    · exact bodyDeclarations_ignores rest second decl source mem

theorem propertyDeclarations_ignores : ∀ (p : Document.SourceProperty), k.Agrees S p.tables p.mentions →
    JoinsIgnore S k (propertyDeclarations p)
  | .join joins, agrees => by
    exact joinDeclarations_ignores joins agrees
  | .dimension _, _ | .measure _, _ | .declare _, _ | .view _, _ | .filter _, _ | .primaryKey _, _
  | .accept _, _ | .except _, _ | .rename _, _ => by
    intro decl source mem
    simp [propertyDeclarations] at mem

theorem joinDeclarations_ignores : ∀ (joins : List Document.JoinDecl),
    k.Agrees S (Document.joinTables joins) (Document.joinMentions joins) → JoinsIgnore S k (joinDeclarations joins)
  | [], _ => by rw [joinDeclarations]; exact fun _ _ mem => by cases mem
  | ⟨name, kind, none, condition, span⟩ :: rest, agrees => by
    intro decl source mem
    rcases mem_cons.mp mem with same | mem
    · cases same
      exact namedSource_ignores agrees.split.1
    · exact joinDeclarations_ignores rest agrees.split.2 decl source mem
  | ⟨name, kind, some inner, condition, span⟩ :: rest, agrees => by
    intro decl source mem
    rcases mem_cons.mp mem with same | mem
    · cases same
      exact source_ignores inner agrees.split.1
    · exact joinDeclarations_ignores rest agrees.split.2 decl source mem

end

end Elaborate

end SemanticLayer
