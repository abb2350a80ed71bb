import SemanticLayer.Proofs.Elaborate.Model

/-!
What a model holds: sources and stages, also those behind the sources that others are made of.
-/
namespace SemanticLayer

def Model.Records (m : Model) (q : Query) : Prop := (∃ name, m.query? name = some q) ∨ .ok q ∈ m.queries

theorem Elaborate.ModelSound.built (sound : ModelSound m) (recorded : m.Records q) : QueryBuilt q := by
  rcases recorded with ⟨name, found⟩ | mem
  · unfold Model.query? at found
    split at found
    · next q' is =>
      cases found
      exact sound.entities (name, .query q) (mem_of_lookup is)
    · cases found
  · exact sound.queries q mem

theorem Elaborate.ModelSound.recorded (sound : ModelSound m) (recorded : m.Records q) : QuerySound q :=
  (sound.built recorded).sound

/-- The sources that a source is made of: itself, those that it joins, and those behind its rows. -/
inductive Source.Holds : Source → Source → Prop where
  | self (s : Source) : Holds s s
  | join {s t : Source} {name : String} {j : Join} (found : s.fields.lookup? name = some (.join j))
      (holds : Holds j.source t) : Holds s t
  | origin (is : s.origin = .query q) (holds : Holds q.source t) : Holds s t

/-- Some stages over a namespace and those of their nests, each with the namespace that it reads. -/
inductive StagesOver : Namespace → List Stage → Namespace → Stage → Prop where
  | first : StagesOver ns (stage :: rest) ns stage
  | nest {ns input : Namespace} {outer stage : Stage} {rest : List Stage} {n : Nest} (mem : n ∈ outer.nests)
      (inner : StagesOver ns n.stages input stage) : StagesOver ns (outer :: rest) input stage
  | later (location : Location)
      (reads : StagesOver (.ofResult earlier.outputSchema location) rest input stage) :
      StagesOver ns (earlier :: rest) input stage

namespace Elaborate

theorem SourceBuilt.holds {s t : Source} (built : SourceBuilt s) (holds : s.Holds t) : SourceBuilt t := by
  induction holds with
  | self => exact built
  | join found _ ih => cases built with | mk _ _ joins => exact ih (joins _ _ found)
  | origin is _ ih => cases built with | mk _ _ _ origin => exact ih (origin _ is)

end Elaborate

theorem StageSound.nested (sound : StageSound n stage) (mem : nest ∈ stage.nests) : StagesSound n nest.stages := by
  obtain ⟨field, given, is⟩ := List.mem_filterMap.mp mem
  have output : OutputSound n field := by
    cases sound with
    | reduce _ _ outputs | project _ _ outputs => exact outputs field given
    | index => cases given
  cases output with
  | nest _ _ stages => cases is; exact stages
  | _ => cases is

theorem StagesOver.sound (reads : StagesOver ns stages input stage) (fields : FieldsSound ns)
    (sound : StagesSound (Names.of ns) stages) : FieldsSound input ∧ StageSound (Names.of input) stage := by
  induction reads with
  | first => cases sound with | cons first => exact ⟨fields, first⟩
  | nest mem _ ih => cases sound with | cons first => exact ih fields (first.nested mem)
  | later location _ ih =>
    cases sound with | cons _ later => exact ih (.ofResult _ _) (later.mono (ofResult_le _ _ _))

namespace Model

/-- The sources in a model. -/
inductive Holds (m : Model) : Source → Prop where
  | entity (mem : (name, .source s) ∈ m.entities) (holds : s.Holds t) : Holds m t
  | query (recorded : m.Records q) (holds : q.source.Holds t) : Holds m t

/-- The stages in a model, with the source that they are over. -/
inductive Runs (m : Model) : Source → List Stage → Prop where
  | query (recorded : m.Records q) : Runs m q.source q.stages
  | origin (holds : m.Holds s) (is : s.origin = .query q) : Runs m q.source q.stages
  | view (holds : m.Holds s)
      (found : s.fields.lookup? name = some (.view v)) : Runs m s v.stages

end Model

namespace Elaborate.ModelSound

theorem source (sound : ModelSound m) (holds : m.Holds s) : SourceBuilt s := by
  cases holds with
  | entity mem holds => exact SourceBuilt.holds (sound.entities _ mem) holds
  | query recorded holds => exact (sound.built recorded).source.holds holds

theorem staged (sound : ModelSound m) (runs : m.Runs s stages) :
    SourceBuilt s ∧ StagesBuilt (Names.of s.fields) (s.origin.isTable = true) stages := by
  cases runs with
  | query recorded =>
    have built := sound.built recorded
    cases built.sound with | mk _ _ stages => exact ⟨built.source, stages, built.calm⟩
  | origin holds is =>
    cases sound.source holds with
    | mk sound _ _ origin calm =>
      cases sound with
      | mk _ queries => cases queries _ is with | mk _ _ stages => exact ⟨origin _ is, stages, calm _ is⟩
  | view holds found =>
    have built := sound.source holds
    refine ⟨built, built.sound.fields.view found, ?_⟩
    cases built with | mk _ views => exact views _ _ found

end Elaborate.ModelSound

end SemanticLayer
