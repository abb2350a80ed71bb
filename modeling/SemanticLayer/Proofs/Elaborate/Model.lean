import SemanticLayer.Elaborate.Model
import SemanticLayer.Proofs.Elaborate.Source

/-!
The models of documents. All that a model offers is sound, imported definitions included. A definition that
fails leaves an error among the diagnostics, unless all that comes out of it is the echo of a name that one
of its own stages declares: the stage keeps the fault of that name to itself.
-/
namespace SemanticLayer.Elaborate

open List

/-- A model all of whose definitions can be planned. -/
structure ModelSound (m : Model) : Prop where
  entities : ∀ entry ∈ m.entities, EntitySound entry.2
  queries : ∀ q, .ok q ∈ m.queries → QueryBuilt q

def Failed (m : Model) : Prop := m.invalid ≠ [] ∨ ∃ diagnostic, .error diagnostic ∈ m.queries

/-- What a statement does to a model. `failure` is the fault that it came to, if it came to one, and
`names` are those that its stages declare. -/
structure Effect (m : Model) (names : List String) (failure : Option LocatedFault) (after : Model) :
    Prop where
  entities : ∀ entry ∈ after.entities, entry ∈ m.entities ∨ EntitySound entry.2
  queries : ∀ q, .ok q ∈ after.queries → .ok q ∈ m.queries ∨ QueryBuilt q
  fails : Failed after ↔ Failed m ∨ failure.isSome = true
  grows : m.diagnostics <+: after.diagnostics
  reported : ∀ f, failure = some f → after.hasErrors = true ∨
    ∃ name, f.fault = .invalidReference name ∧ ((m.invalid.lookup name).isSome = true ∨ name ∈ names)

def failureOf {ε α : Type} : Except ε α → Option ε
  | .error f => some f
  | .ok _ => none

section Effects

variable {m : Model} {names : List String} {reports : List Diagnostic}

theorem reported_of_admitted {f : LocatedFault} {after : Model}
    (admitted : Rooted m.invalid names reports f.fault)
    (kept : after.diagnostics = m.diagnostics ++ reports ++
      if f.fault.isCascade then [] else [f.diagnostic]) :
    after.hasErrors = true ∨
      ∃ name, f.fault = .invalidReference name ∧ ((m.invalid.lookup name).isSome = true ∨ name ∈ names) := by
  unfold Model.hasErrors
  rw [kept]
  cases cascade : f.fault.isCascade with
  | false => exact .inl (hasErrors_report _ f)
  | true =>
    refine (admitted cascade).imp_left fun errors => ?_
    unfold Diagnostic.hasErrors at *
    simp [errors]

theorem reportIn_diagnostics (m : Model) (f : LocatedFault) :
    (reportIn m f).diagnostics = m.diagnostics ++ if f.fault.isCascade then [] else [f.diagnostic] := by
  unfold reportIn addDiagnostics
  split <;> simp_all

theorem reportIn_entities (m : Model) (f : LocatedFault) : (reportIn m f).entities = m.entities := by
  unfold reportIn
  split <;> rfl

theorem reportIn_queries (m : Model) (f : LocatedFault) : (reportIn m f).queries = m.queries := by
  unfold reportIn
  split <;> rfl

theorem reportIn_invalid (m : Model) (f : LocatedFault) : (reportIn m f).invalid = m.invalid := by
  unfold reportIn
  split <;> rfl

theorem reportIn_effect (m : Model) (names : List String) (f : LocatedFault) :
    Effect m names none (reportIn m f) where
  entities entry mem := .inl (reportIn_entities m f ▸ mem)
  queries q mem := .inl (reportIn_queries m f ▸ mem)
  fails := by simp [Failed, reportIn_invalid, reportIn_queries]
  grows := by rw [reportIn_diagnostics]; exact prefix_append _ _
  reported g h := by cases h

theorem fault_effect {after : Model} (admitted : Rooted m.invalid names reports f.fault)
    (entities : after.entities = m.entities) (queries : ∀ q, .ok q ∈ after.queries → .ok q ∈ m.queries)
    (fails : Failed after) (kept : after.diagnostics = m.diagnostics ++ reports ++
      if f.fault.isCascade then [] else [f.diagnostic]) : Effect m names (some f) after where
  entities entry mem := .inl (entities ▸ mem)
  queries q mem := .inl (queries q mem)
  fails := by simp [fails]
  grows := by
    rw [kept, append_assoc]
    exact prefix_append _ _
  reported g same := by
    cases same
    exact reported_of_admitted admitted kept

theorem define_effect {outcome : Except LocatedFault Entity} (name : String)
    (yields : Yields (fun f => Rooted m.invalid names reports f.fault) outcome EntitySound) :
    Effect m names (failureOf outcome) (define (addDiagnostics m reports) name outcome) := by
  cases outcome with
  | ok entity =>
    refine ⟨fun entry mem => ?_, fun q mem => .inl mem, ?_, prefix_append _ _, fun f h => by cases h⟩
    · rcases mem_append.mp mem with mem | mem
      · exact .inl mem
      · rw [mem_singleton.mp mem]
        exact .inr yields
    · simp [Failed, failureOf, define, addDiagnostics]
  | error f =>
    refine fault_effect yields (reportIn_entities _ f) (fun q mem => ?_) ?_ (reportIn_diagnostics _ f)
    · exact reportIn_queries (addDiagnostics m reports) f ▸ mem
    · simp [Failed, define]

def answer (m : Model) (outcome : Except LocatedFault Query) : Model :=
  match outcome with
  | .ok q => { m with queries := m.queries ++ [.ok q] }
  | .error fault =>
    let m := reportIn m fault
    { m with queries := m.queries ++ [.error fault.diagnostic] }

theorem answer_effect {outcome : Except LocatedFault Query}
    (yields : Yields (fun f => Rooted m.invalid names reports f.fault) outcome QueryBuilt) :
    Effect m names (failureOf outcome) (answer (addDiagnostics m reports) outcome) := by
  cases outcome with
  | ok q =>
    refine ⟨fun entry mem => .inl mem, fun other mem => ?_, ?_, prefix_append _ _, fun f h => by cases h⟩
    · rcases mem_append.mp mem with mem | mem
      · exact .inl mem
      · cases mem_singleton.mp mem
        exact .inr yields
    · simp [Failed, failureOf, answer, addDiagnostics]
  | error f =>
    refine fault_effect yields (reportIn_entities _ f) (fun q mem => ?_) ?_ (reportIn_diagnostics _ f)
    · have mem : .ok q ∈ (reportIn (addDiagnostics m reports) f).queries ++ [.error f.diagnostic] := mem
      rw [reportIn_queries] at mem
      simpa [addDiagnostics] using mem
    · simp [Failed, answer]

end Effects

def surroundings (i : Inputs) (m : Model) (building : Option String) : Surroundings :=
  ⟨i.url, i.catalog, m.entities, m.invalid, building⟩

def statementStageNames : Document.Statement → List String
  | .source _ expr _ => sourceStageNames expr
  | .query _ expr _ => queryStageNames expr
  | .importing _ _ | .sql _ _ _ _ => []

def failure? (i : Inputs) (m : Model) : Document.Statement → Option LocatedFault
  | .importing _ _ => none
  | .source name expr _ =>
    if m.defines name.node then none else failureOf (running i m (some name.node) (source expr)).1
  | .query none expr _ => failureOf (running i m none (query none expr)).1
  | .query (some name) expr _ =>
    if m.defines name.node then none else failureOf (running i m none (query (some name.node) expr)).1
  | .sql name connection select span =>
    if m.defines name.node then none
    else failureOf (sqlBlock i name.node connection select (i.location span))

def isImport : Document.Statement → Bool
  | .importing _ _ => true
  | _ => false

section Statements

variable {i : Inputs} {m : Model}

theorem ModelSound.surroundings (sound : ModelSound m) (building : Option String) :
    (surroundings i m building).Sound :=
  fun _ _ found => sound.entities _ (mem_of_lookup found)

variable {names : List String}

theorem running_builds {α : Type} {action : BuildM α} {post : α → Prop}
    (builds : Builds .every (surroundings i m building) names action post) :
    ∃ reports, (running i m building action).2 = addDiagnostics m reports ∧
      Yields (fun f => Rooted m.invalid names reports f.fault) (running i m building action).1 post :=
  have ⟨_, _, yields⟩ := builds [] (forall_mem_nil _)
  ⟨_, rfl, yields.weaken (fun _ h => h.2) fun _ h => h⟩

theorem failureOf_map {ε α β : Type} (f : α → β) (outcome : Except ε α) :
    failureOf (outcome.map f) = failureOf outcome := by
  cases outcome <;> rfl

theorem claiming_effect {failure : Option LocatedFault} (effect : Effect m names failure (go ())) :
    Effect m names (if m.defines name.node then none else failure) (claiming i m name go) := by
  unfold claiming
  split
  · exact reportIn_effect m names _
  · exact effect

theorem defined_effect {α : Type} {action : BuildM α} {post : α → Prop} (name : String) (wrap : α → Entity)
    (builds : Builds .every (surroundings i m building) names action post)
    (good : ∀ a, post a → EntitySound (wrap a)) :
    Effect m names (failureOf (running i m building action).1)
      (define (running i m building action).2 name ((running i m building action).1.map wrap)) := by
  obtain ⟨reports, same, yields⟩ := running_builds builds
  rw [same, ← failureOf_map wrap]
  exact define_effect name (yields.map good)

theorem statement_effect (sound : ModelSound m) {s : Document.Statement} (own : isImport s = false) :
    Effect m (statementStageNames s) (failure? i m s) (statement i m s) := by
  cases s with
  | importing url span => cases own
  | source name expr span =>
    rw [statement]
    refine claiming_effect (defined_effect name.node _
      (source_builds (sound.surroundings (some name.node)) expr (answered_every _ _)) fun built good => ?_)
    obtain ⟨⟨fields, behind, stored, key, rows, sampled⟩, views, joins, origin, stages⟩ := good
    exact .mk (.mk fields behind stored key rows sampled) views joins origin stages
  | query name expr span =>
    cases name with
    | none =>
      obtain ⟨reports, same, yields⟩ :=
        running_builds (query_builds (sound.surroundings none) none expr (answered_every _ _))
      have run : statement i m (.query none expr span) =
          answer (running i m none (query none expr)).2 (running i m none (query none expr)).1 := rfl
      rw [run, same]
      exact answer_effect yields
    | some name =>
      rw [statement]
      exact claiming_effect (defined_effect name.node _
        (query_builds (sound.surroundings none) (some name.node) expr (answered_every _ _)) fun built good => good)
  | sql name connection select span =>
    rw [statement]
    refine claiming_effect (define_effect _ ?_)
    unfold sqlBlock
    split
    · trivial
    · next fault found => exact rooted_loud (find_loud _ _ fault found)

theorem Effect.sound {failure : Option LocatedFault} {after : Model} (sound : ModelSound m)
    (effect : Effect m names failure after) : ModelSound after where
  entities entry mem := (effect.entities entry mem).elim (sound.entities entry) id
  queries q mem := (effect.queries q mem).elim (sound.queries q) id

theorem importName_sound (sound : ModelSound m) (good : ModelSound imported) (url : String) (span : Span)
    (name : String) : ModelSound (importName i url span imported m name) := by
  unfold importName
  split
  · exact (reportIn_effect m [] _).sound sound
  · split
    · next entity _ found =>
      refine ⟨fun entry mem => ?_, sound.queries⟩
      rcases mem_append.mp mem with mem | mem
      · exact sound.entities entry mem
      · rw [mem_singleton.mp mem]
        exact good.entities _ (mem_of_lookup found)
    · exact ⟨sound.entities, sound.queries⟩
    · exact sound

theorem importing_sound (url : String) (span : Span) (good : ModelSound imported) (names : List String)
    (sound : ModelSound m) : ModelSound (names.foldl (importName i url span imported) m) := by
  induction names generalizing m with
  | nil => exact sound
  | cons name rest ih => exact ih (importName_sound sound good url span name)

theorem statement_sound (sound : ModelSound m) (s : Document.Statement)
    (imports : isImport s = true → ∀ url imported, i.imports.lookup url = some imported →
      ModelSound imported) : ModelSound (statement i m s) := by
  cases own : isImport s with
  | false => exact (statement_effect sound own).sound sound
  | true =>
    cases s with
    | importing url span =>
      rw [statement]
      split
      · next imported found => exact importing_sound url span (imports own url imported found) _ sound
      · exact sound
    | source _ _ _ | query _ _ _ | sql _ _ _ _ => cases own

theorem empty_sound : ModelSound .empty := ⟨by simp [Model.empty], by simp [Model.empty]⟩

theorem statements_sound {statements : List Document.Statement} (sound : ModelSound m)
    (imports : ∀ s ∈ statements, isImport s = true → ∀ url imported, i.imports.lookup url = some imported →
      ModelSound imported) : ModelSound (statements.foldl (statement i) m) := by
  induction statements generalizing m with
  | nil => exact sound
  | cons s rest ih =>
    obtain ⟨first, others⟩ := forall_mem_cons.mp imports
    exact ih (statement_sound sound s first) others

end Statements

/-- The models of documents whose imports are such models again. -/
inductive Built : Model → Prop where
  | document (i : Inputs) (d : Document)
      (imports : ∀ url imported, i.imports.lookup url = some imported → Built imported) :
      Built (document i d)

/-- Whatever elaboration accepts is sound. -/
theorem built_sound {m : Model} (built : Built m) : ModelSound m := by
  induction built with
  | document i d imports ih => exact statements_sound empty_sound fun _ _ _ => ih

end SemanticLayer.Elaborate
