import SemanticLayer.Proofs.Plan.Accepted
import SemanticLayer.Proofs.Plan.Fuel

/-!
No definition comes back to itself. References go by name, also to hidden fields and through joins, and nothing in
the fields of a model tells in which order they were made. Still no chain of them goes on forever, and so the walks
that follow definitions come to an end.
-/
namespace SemanticLayer

def Namespace.Refers (ns : Namespace) (f g : List String) : Prop :=
  ∃ joins owner e path, Plan.definitionOf ns f = .ok (joins, owner, e) ∧ e.refersTo path = true ∧ g = joins ++ path

theorem Namespace.definitionOf_behind {ns owner : Namespace} (within : ns.within? place = some owner)
    (defined : Plan.definitionOf ns (place ++ (path ++ [last])) = .ok (joins, deeper, d)) :
    joins = place ++ path ∧ Plan.definitionOf owner (path ++ [last]) = .ok (path, deeper, d) := by
  obtain ⟨last', x, split, there, found, rfl⟩ := definitionOf_iff.mp defined
  rw [← List.append_assoc] at split
  obtain ⟨rfl, same⟩ := List.append_inj' split rfl
  cases same
  rw [within?_append, within] at there
  exact ⟨rfl, definitionOf_iff.mpr ⟨last, x, rfl, there, found, rfl⟩⟩

/-- In sound fields no chain of references goes on forever. -/
theorem FieldsSound.acyclic (sound : FieldsSound ns) : WellFounded fun g f => ns.Refers f g := by
  -- a chain of references that starts in an expression is a chain of the definitions that it is followed to
  have chain {place : List String} {owner : Namespace} {e : Expr} {l : Level} (within : ns.within? place = some owner)
      (level : e.level? (Names.of owner) = some l) {path : List String} (refers : e.refersTo path = true) :
      Acc (fun g f => ns.Refers f g) (place ++ path) := by
    refine follow_bound (K := 0) (S := fun _ place owner e => ns.within? place = some owner → ∀ path,
      e.refersTo path = true → Acc (fun g f => ns.Refers f g) (place ++ path)) ?_ owner.size rfl (sound.within within)
      level place (le_refl _) within path refers
    intro _ place owner e l inner level _ follows within path refers
    refine .intro _ ?_
    rintro _ ⟨joins, deeper, d, next, defined, further, rfl⟩
    obtain ⟨l', named, _⟩ := Expr.refers_level level refers
    obtain ⟨_, _, _, _, rfl, _⟩ := inner.definition named
    obtain ⟨rfl, here⟩ := Namespace.definitionOf_behind within defined
    obtain ⟨_, _, _, there, _⟩ := Namespace.definitionOf_iff.mp defined
    exact follows refers here there next further
  refine ⟨fun f => .intro f ?_⟩
  rintro _ ⟨joins, owner, e, path, defined, refers, rfl⟩
  obtain ⟨l, named⟩ := Namespace.level_of_definition defined
  obtain ⟨_, _, _, _, _, within, _, defined', level⟩ := sound.definition named
  cases defined.symm.trans defined'
  exact chain within level refers

namespace Model

/-- What the sources and the stages in a model are read from: fields, with the key of their rows if there is one. -/
inductive Inputs (m : Model) : Namespace → Option String → Prop where
  | source (holds : m.Holds s) : Inputs m s.fields s.primaryKey
  | stage (runs : m.Runs s stages)
      (reads : StagesOver s.fields stages input stage) : Inputs m input none

/-- The expressions in a model, each with the fields that it is about. -/
inductive Expresses (m : Model) : Namespace → Expr → Prop where
  | definition
      (input : m.Inputs ns key) (defined : Plan.definitionOf ns path = .ok (joins, owner, e)) : Expresses m owner e
  | filter {s : Source} {f : Filter} (holds : m.Holds s) (mem : f ∈ s.filters) : Expresses m s.fields f.expr
  | condition {s : Source} {name : String} {j : Join} {e : Expr} (holds : m.Holds s)
      (found : s.fields.lookup? name = some (.join j)) (is : j.correlation.condition? = some e) :
      Expresses m s.fields e
  | stage (runs : m.Runs s stages)
      (reads : StagesOver s.fields stages input stage) (mem : e ∈ stage.exprs) : Expresses m input e

end Model

namespace Elaborate.ModelSound

variable {m : Model}

theorem input (sound : ModelSound m) (input : m.Inputs ns key) :
    FieldsSound ns ∧ ∀ name ∈ key, (Names.of ns).level [name] = some .scalar := by
  cases input with
  | source holds => cases (sound.source holds).sound with | mk fields _ _ key => exact ⟨fields, key⟩
  | stage runs reads =>
    obtain ⟨source, stages⟩ := sound.staged runs
    exact ⟨(reads.sound source.sound.fields stages.sound).1, by simp⟩

theorem level (sound : ModelSound m) (given : m.Expresses ns e) : ∃ l, e.level? (Names.of ns) = some l := by
  cases given with
  | definition input defined =>
    obtain ⟨l, named⟩ := Namespace.level_of_definition defined
    obtain ⟨_, _, _, _, _, _, _, defined', level⟩ := (sound.input input).1.definition named
    cases defined.symm.trans defined'
    exact ⟨l, level⟩
  | filter holds mem => cases (sound.source holds).sound with | mk _ _ _ _ rows => exact ⟨_, rows _ mem⟩
  | condition holds found is => exact ⟨_, ((sound.source holds).sound.fields.joined found).2.condition is⟩
  | stage runs reads mem =>
    obtain ⟨source, stages⟩ := sound.staged runs
    exact (reads.sound source.sound.fields stages.sound).2.level mem

end Elaborate.ModelSound

open Plan in
/-- In a model that elaboration gives, no chain of references between the fields of an input goes on forever. Hence
following references ends in every expression of the model, wherever it is reached from an input: at the depth that
each of the three walks is given, nothing is left to follow, and what it would find below is of no account. -/
theorem definitions_acyclic {m : Model} (built : Elaborate.Built m) :
    (∀ root key, m.Inputs root key → WellFounded fun g f => root.Refers f g) ∧
      ∀ root key place ns e, m.Inputs root key → root.within? place = some ns → m.Expresses ns e →
        (∀ crosses reads bottom, (Expr.collectReads^[ns.size + 1] bottom) ⟨ns, place, crosses⟩ e reads =
          e.readsWithin (ns.size + 1) ⟨ns, place, crosses⟩ reads) ∧
        ∀ t : Target, t.tree.root = root → t.tree.key = key →
          (∀ paths bottom, (collect^[t.tree.depth] bottom) place ns e paths =
            collectWithin t.tree.depth place ns e paths) ∧
          ∀ bottom, ((compile t)^[t.depth] bottom) place ns e = t.compileAt place ns e := by
  have sound := Elaborate.built_sound built
  refine ⟨fun root key input => (sound.input input).1.acyclic, ?_⟩
  intro root key place ns e input within given
  obtain ⟨fields, keyed⟩ := sound.input input
  obtain ⟨l, level⟩ := sound.level given
  have inner := fields.within within
  refine ⟨fun crosses reads bottom => readsWithin_ends inner level (Nat.le_refl _) place crosses bottom reads, ?_⟩
  rintro t rfl rfl
  refine ⟨fun paths bottom => collectWithin_ends inner level ?_ place bottom paths, t.compileAt_ends fields keyed within level⟩
  exact Nat.succ_le_succ (within_le within)

open Elaborate in
theorem topOrigins_acyclic : Built (document flights ⟨[topOrigins]⟩) ∧
    (document flights ⟨[topOrigins]⟩).Inputs topOriginsQuery.source.fields none ∧
    WellFounded fun g f => Namespace.Refers topOriginsQuery.source.fields f g := by
  have built : Built (document flights ⟨[topOrigins]⟩) := .document _ _ nofun
  have input : (document flights ⟨[topOrigins]⟩).Inputs topOriginsQuery.source.fields none :=
    .source (.query topOrigins_recorded (.self _))
  exact ⟨built, input, (definitions_acyclic built).1 _ _ input⟩

end SemanticLayer
