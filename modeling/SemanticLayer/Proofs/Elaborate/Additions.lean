import SemanticLayer.Proofs.Elaborate.Model

/-!
Statements only add to a model. What one of them adds is a model of its own, in which the definitions before it are
looked up but not repeated.
-/
namespace SemanticLayer

def Document.Statement.definedName? : Document.Statement → Option Document.Name
  | .source name _ _ | .query (some name) _ _ | .sql name _ _ _ => some name
  | .importing _ _ | .query none _ _ => none

namespace Model

def append (m added : Model) : Model :=
  ⟨m.entities ++ added.entities, m.queries ++ added.queries, m.exports ++ added.exports, m.invalid ++ added.invalid,
    m.diagnostics ++ added.diagnostics⟩

theorem append_empty (m : Model) : m.append .empty = m := by simp [append, empty]

theorem append_assoc (m a b : Model) : (m.append a).append b = m.append (a.append b) := by simp [append]

theorem entity?_append (m added : Model) (name : String) :
    (m.append added).entity? name = (m.entity? name).or (added.entity? name) := List.lookup_append

theorem invalid?_append (m added : Model) (name : String) :
    (m.append added).invalid? name = (m.invalid? name).or (added.invalid? name) := List.lookup_append

theorem defines_append (m added : Model) (name : String) :
    (m.append added).defines name = (m.defines name || added.defines name) := by
  unfold defines
  rw [entity?_append, invalid?_append, Option.isSome_or, Option.isSome_or]
  simp only [Bool.or_assoc, Bool.or_left_comm]

end Model

namespace Elaborate

def told (diagnostics : List Diagnostic) : Model := addDiagnostics .empty diagnostics

section Appending

variable (m : Model)

theorem addDiagnostics_append (diagnostics : List Diagnostic) : addDiagnostics m diagnostics = m.append (told diagnostics) := by
  simp [addDiagnostics, told, Model.append, Model.empty]

theorem reportIn_append (added : Model) (f : LocatedFault) : reportIn (m.append added) f = m.append (reportIn added f) := by
  unfold reportIn addDiagnostics
  split
  · rfl
  · simp [Model.append]

theorem define_append (added : Model) (name : String) (outcome : Except LocatedFault Entity) :
    define (m.append added) name outcome = m.append (define added name outcome) := by
  cases outcome with
  | ok entity => simp [define, Model.append]
  | error fault =>
    unfold define
    dsimp only
    rw [reportIn_append]
    simp [Model.append]

theorem answer_append (added : Model) (outcome : Except LocatedFault Query) :
    answer (m.append added) outcome = m.append (answer added outcome) := by
  cases outcome with
  | ok q => simp [answer, Model.append]
  | error fault =>
    unfold answer
    dsimp only
    rw [reportIn_append]
    simp [Model.append]

end Appending

/-! ### What a statement adds -/

def outcome (i : Inputs) (m : Model) (building : Option String) (action : BuildM α) :
    Except LocatedFault α × List Diagnostic := (action (surroundings i m building)).run.run []

/-- What the exports of an imported model add. `taken` are the names that are defined. -/
def importAdds (i : Inputs) (url : String) (span : Span) (imported : Model) (taken : String → Bool) : List String → Model
  | [] => .empty
  | name :: rest =>
    if taken name then
      (told [(⟨.importCollision name url, i.location span⟩ : LocatedFault).diagnostic]).append
        (importAdds i url span imported taken rest)
    else
      let here := importName i url span imported .empty name
      here.append (importAdds i url span imported (fun other => taken other || here.defines other) rest)

def claimAdds (i : Inputs) (m : Model) (name : Document.Name) (added : Model) : Model :=
  if m.defines name.node then told [(⟨.duplicateName name.node, i.location name.span⟩ : LocatedFault).diagnostic] else added

def additions (i : Inputs) (m : Model) : Document.Statement → Model
  | .importing url span =>
    match i.imports.lookup url with
    | some imported => importAdds i url span imported m.defines imported.exports
    | none => .empty
  | .source name expr span =>
    let built := outcome i m (some name.node) (source expr)
    claimAdds i m name (define (told built.2) name.node
      (built.1.map fun s => .source { s with name := name.node, location := i.location span }))
  | .query none expr _ =>
    let built := outcome i m none (query none expr)
    answer (told built.2) built.1
  | .query (some name) expr _ =>
    let built := outcome i m none (query (some name.node) expr)
    claimAdds i m name (define (told built.2) name.node (built.1.map .query))
  | .sql name connection select span =>
    let location := i.location span
    claimAdds i m name (define (told (sqlWarnings i connection select location)) name.node
      (sqlBlock i name.node connection select location))

section Statements

variable {i : Inputs}

theorem running_outcome (m : Model) (building : Option String) (action : BuildM α) :
    running i m building action =
      ((outcome i m building action).1, m.append (told (outcome i m building action).2)) := by
  rw [← addDiagnostics_append]
  rfl

theorem reportIn_told (m : Model) (loud : f.fault.isCascade = false) :
    reportIn m f = m.append (told [f.diagnostic]) := by
  unfold reportIn
  rw [loud, ← addDiagnostics_append]
  rfl

theorem claiming_append (m : Model) (name : Document.Name) (adds : go () = m.append added) :
    claiming i m name go = m.append (claimAdds i m name added) := by
  unfold claiming claimAdds
  split
  · exact reportIn_told m rfl
  · exact adds

theorem importName_append (url : String) (span : Span) (imported m : Model) (free : m.defines name = false) :
    importName i url span imported m name = m.append (importName i url span imported .empty name) := by
  unfold importName
  rw [if_neg (by simp [free]), if_neg (by simp [Model.empty, Model.defines, Model.entity?, Model.invalid?])]
  split <;> simp [Model.append, Model.empty]

theorem importNames_append (url : String) (span : Span) (imported : Model) (names : List String) (m : Model) :
    names.foldl (importName i url span imported) m = m.append (importAdds i url span imported m.defines names) := by
  induction names generalizing m with
  | nil => exact m.append_empty.symm
  | cons name rest ih =>
    rw [List.foldl_cons, ih, importAdds]
    cases taken : m.defines name with
    | true =>
      have told_defines (other : String) (diagnostics : List Diagnostic) : (told diagnostics).defines other = false := rfl
      have collides : importName i url span imported m name =
          m.append (told [(⟨.importCollision name url, i.location span⟩ : LocatedFault).diagnostic]) := by
        unfold importName
        rw [if_pos taken]
        exact reportIn_told m rfl
      have same : (m.append (told [(⟨.importCollision name url, i.location span⟩ : LocatedFault).diagnostic])).defines =
          m.defines := by
        funext other
        rw [Model.defines_append, told_defines, Bool.or_false]
      rw [if_pos rfl, collides, same, Model.append_assoc]
    | false =>
      have more : (m.append (importName i url span imported .empty name)).defines =
          fun other => m.defines other || (importName i url span imported .empty name).defines other :=
        funext (Model.defines_append m _)
      rw [if_neg Bool.false_ne_true, importName_append url span imported m taken, more, Model.append_assoc]

theorem statement_additions (m : Model) (s : Document.Statement) : statement i m s = m.append (additions i m s) := by
  cases s with
  | importing url span =>
    rw [statement, additions]
    cases i.imports.lookup url with
    | none => exact m.append_empty.symm
    | some imported => exact importNames_append url span imported imported.exports m
  | source name expr span =>
    rw [statement, running_outcome]
    exact claiming_append m name (define_append _ _ _ _)
  | query name expr span =>
    cases name with
    | none =>
      have run : statement i m (.query none expr span) =
          answer (running i m none (query none expr)).2 (running i m none (query none expr)).1 := rfl
      rw [run, running_outcome]
      exact answer_append _ _ _
    | some name =>
      rw [statement, running_outcome]
      exact claiming_append m name (define_append _ _ _ _)
  | sql name connection select span =>
    rw [statement]
    refine claiming_append m name ?_
    dsimp only
    rw [addDiagnostics_append]
    exact define_append _ _ _ _

theorem document_additions (before : List Document.Statement) (s : Document.Statement) :
    document i ⟨before ++ [s]⟩ = (document i ⟨before⟩).append (additions i (document i ⟨before⟩) s) := by
  unfold document
  rw [List.foldl_append]
  exact statement_additions _ s

end Statements

end Elaborate

end SemanticLayer
