import Mathlib.Data.List.Induction
import SemanticLayer.Proofs.Elaborate.Model

/-!
Which failures leave no error behind. A fault that echoes another one is not reported, since the other one
is; but a stage never reports the fault of a name that it declares itself. Where no error is reported and
something failed, that is the reason, and it lies in the first statement that failed.
-/
namespace SemanticLayer.Elaborate

open List

variable {i : Inputs}

/-- A statement after some others fails, and all that comes out is the echo of a name that one of its
stages declares. -/
def EchoesOwnStage (i : Inputs) (before : List Document.Statement) (s : Document.Statement) : Prop :=
  ∃ name ∈ statementStageNames s, ∃ location,
    failure? i (document i ⟨before⟩) s = some ⟨.invalidReference name, location⟩

theorem document_snoc (i : Inputs) (before : List Document.Statement) (s : Document.Statement) :
    document i ⟨before ++ [s]⟩ = statement i (document i ⟨before⟩) s := by
  unfold document
  rw [foldl_append]
  rfl

theorem document_sound (i : Inputs) (own : ∀ s ∈ statements, isImport s = false) :
    ModelSound (document i ⟨statements⟩) := by
  refine statements_sound empty_sound fun s mem imports => ?_
  rw [own s mem] at imports
  cases imports

theorem split_snoc {α : Type} {init before after : List α} {last x : α} :
    init ++ [last] = before ++ x :: after ↔
      (before = init ∧ x = last ∧ after = []) ∨ ∃ rest, after = rest ++ [last] ∧ init = before ++ x :: rest := by
  constructor
  · intro h
    rcases eq_nil_or_concat' after with rfl | ⟨rest, y, rfl⟩
    · obtain ⟨rfl, same⟩ := append_inj' h rfl
      exact .inl ⟨rfl, (singleton_inj.mp same).symm, rfl⟩
    · rw [← cons_append, ← append_assoc] at h
      obtain ⟨rfl, same⟩ := append_inj' h rfl
      rw [singleton_inj.mp same]
      exact .inr ⟨rest, rfl, rfl⟩
  · rintro (⟨rfl, rfl, rfl⟩ | ⟨rest, rfl, rfl⟩)
    · rfl
    · simp

/-- Where no error is reported, something failed exactly if a statement fails that only echoes a name of its
own stages. -/
theorem silent_failure_iff (i : Inputs) (d : Document) (own : ∀ s ∈ d.statements, isImport s = false)
    (quiet : (document i d).hasErrors = false) :
    Failed (document i d) ↔
      ∃ before s after, d.statements = before ++ s :: after ∧ EchoesOwnStage i before s := by
  obtain ⟨statements⟩ := d
  simp only at own ⊢
  induction statements using List.reverseRecOn with
  | nil => simp [document, Model.empty, Failed]
  | append_singleton init last ih =>
    have owns := List.forall_mem_append.mp own
    have effect := statement_effect (i := i) (document_sound i owns.1) (owns.2 last (List.mem_singleton_self _))
    rw [document_snoc] at quiet ⊢
    have quietBefore : (document i ⟨init⟩).hasErrors = false := by
      cases loud : (document i ⟨init⟩).hasErrors with
      | false => rfl
      | true =>
        have loud : (statement i (document i ⟨init⟩) last).hasErrors = true :=
          hasErrors_grows effect.grows loud
        rw [quiet] at loud
        cases loud
    have before := ih owns.1 quietBefore
    rw [effect.fails, before]
    constructor
    · rintro (⟨start, s, rest, rfl, echoes⟩ | failed)
      · exact ⟨start, s, rest ++ [last], by simp, echoes⟩
      · obtain ⟨⟨fault, location⟩, failed⟩ := Option.isSome_iff_exists.mp failed
        rcases effect.reported _ failed with loud | ⟨name, same, earlier | declared⟩
        · rw [quiet] at loud
          cases loud
        · -- an earlier definition failed, so there is such a statement before this one
          have earlier : Failed (document i ⟨init⟩) := by
            refine .inl fun empty => ?_
            rw [empty] at earlier
            cases earlier
          obtain ⟨start, s, rest, rfl, echoes⟩ := before.mp earlier
          exact ⟨start, s, rest ++ [last], by simp, echoes⟩
        · subst same
          exact ⟨init, last, [], rfl, name, declared, location, failed⟩
    · rintro ⟨start, s, rest, split, echoes⟩
      rcases split_snoc.mp split with ⟨rfl, rfl, rfl⟩ | ⟨rest, rfl, rfl⟩
      · obtain ⟨name, _, location, failed⟩ := echoes
        exact .inr (by rw [failed]; rfl)
      · exact .inl ⟨start, s, rest, rfl, echoes⟩

def oneColumn : Inputs :=
  ⟨"file:///t.model", ⟨[("t", .known [⟨"a", .number⟩])], []⟩, fun _ => .duckdb, []⟩

def listsUndefined : Document.Statement :=
  .query (some ⟨"q", default⟩)
    ⟨.source (.table none "t" default),
      [.stage ⟨[.declare [⟨⟨"x", default⟩, ⟨.field ⟨["bogus"], default⟩, default⟩, default⟩],
        .project [.reference ⟨["x"], default⟩ []]], default⟩], default⟩ default

theorem silent_failure_listed :
    (∀ s ∈ [listsUndefined], isImport s = false) ∧
      (document oneColumn ⟨[listsUndefined]⟩).hasErrors = false ∧ EchoesOwnStage oneColumn [] listsUndefined := by
  have own : ∀ s ∈ [listsUndefined], isImport s = false := by simp [listsUndefined, isImport]
  have quiet : (document oneColumn ⟨[listsUndefined]⟩).hasErrors = false := by decide +kernel
  have failed : (document oneColumn ⟨[listsUndefined]⟩).invalid.isEmpty = false := by decide +kernel
  refine ⟨own, quiet, ?_⟩
  obtain ⟨before, s, after, split, echoes⟩ :=
    (silent_failure_iff oneColumn ⟨[listsUndefined]⟩ own quiet).mp (.inl (List.isEmpty_eq_false_iff.mp failed))
  obtain ⟨rfl, rfl, _⟩ | ⟨_, _, impossible⟩ := split_snoc.mp (show [] ++ [listsUndefined] = _ from split)
  · exact echoes
  · simp at impossible

/-- The query fails, and nothing is reported. -/
theorem failed_without_error :
    ∃ i d, (∀ s ∈ d.statements, isImport s = false) ∧ (document i d).invalid ≠ [] ∧
      (document i d).hasErrors = false := by
  refine ⟨oneColumn, ⟨[listsUndefined]⟩, by simp [listsUndefined, isImport], ?_, by decide +kernel⟩
  have failed : (document oneColumn ⟨[listsUndefined]⟩).invalid.isEmpty = false := by decide +kernel
  exact List.isEmpty_eq_false_iff.mp failed

end SemanticLayer.Elaborate
