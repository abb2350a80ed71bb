import SemanticLayer.Plan.Basic
import Mathlib.Data.List.Forall2

/-!
Runs in lockstep. Two actions run from states that correspond: where one of them gives something the other does
too, and what they give corresponds, as do the states after it.
-/
namespace SemanticLayer.Plan

open List

section Results

variable {ε ε' α β γ δ : Type} {R : α → β → Prop} {S : γ → δ → Prop}

/-- Results of which each is there if the other is. -/
inductive Agree (R : α → β → Prop) : Except ε α → Except ε β → Prop where
  | ok (holds : R a b) : Agree R (.ok a) (.ok b)
  | error : Agree R (.error e) (.error e')

namespace Agree

variable {x : Except ε α} {y : Except ε β}

theorem found (agree : Agree R x y) {a : α} (is : x = .ok a) : ∃ b, y = .ok b ∧ R a b := by
  cases agree with
  | ok holds => cases is; exact ⟨_, rfl, holds⟩
  | error => cases is

protected theorem refl {R : α → α → Prop} (same : ∀ a, R a a) : ∀ x : Except ε α, Agree R x x
  | .ok a => .ok (same a)
  | .error _ => .error

protected theorem bind {f : α → Except ε γ} {g : β → Except ε δ} (agree : Agree R x y)
    (later : ∀ a b, R a b → Agree S (f a) (g b)) : Agree S (x.bind f) (y.bind g) := by
  cases agree with
  | ok holds => exact later _ _ holds
  | error => exact .error

protected theorem map {f : α → γ} {g : β → δ} (agree : Agree R x y) (each : ∀ a b, R a b → S (f a) (g b)) :
    Agree S (x.map f) (y.map g) := by
  cases agree with
  | ok holds => exact .ok (each _ _ holds)
  | error => exact .error

theorem imp {R' : α → β → Prop} (agree : Agree R x y) (weaker : ∀ a b, R a b → R' a b) : Agree R' x y := by
  cases agree with
  | ok holds => exact .ok (weaker _ _ holds)
  | error => exact .error

theorem mapError (agree : Agree R x y) (f : ε → ε') : Agree R (x.mapError f) (y.mapError f) := by
  cases agree with
  | ok holds => exact .ok holds
  | error => exact .error

end Agree

end Results

/-- Actions that go from state to state, and what they come to. -/
class Steps (m : Type → Type) (σ : outParam Type) [Monad m] where
  outcome {α : Type} : m α → σ → Except Fault (α × σ)
  outcome_pure {α : Type} (a : α) (s : σ) : outcome (pure a) s = .ok (a, s)
  outcome_bind {α β : Type} (x : m α) (f : α → m β) (s : σ) :
    outcome (x >>= f) s = (outcome x s).bind fun r => outcome (f r.1) r.2

export Steps (outcome outcome_pure outcome_bind)

instance : Steps CompileM Compilation where
  outcome x c := (x.run.run c).1.map (·, (x.run.run c).2)
  outcome_pure _ _ := rfl
  outcome_bind x f c := by
    rw [ExceptT.run_bind, StateT.run_bind]
    rcases x.run.run c with ⟨_ | a, mid⟩ <;> rfl

instance : Steps PlanM Progress where
  outcome x s := x.run s
  outcome_pure _ _ := rfl
  outcome_bind _ _ _ := rfl

instance : Steps RowsM (Compilation × Progress) where
  outcome x s := ((x.run s.1).run s.2).map fun r => (r.1.1, r.1.2, r.2)
  outcome_pure _ _ := rfl
  outcome_bind x f s := by
    rw [StateT.run_bind, StateT.run_bind]
    rcases (x.run s.1).run s.2 with _ | ⟨⟨a, c⟩, t⟩ <;> rfl

section Runs

variable {m : Type → Type} {σ : Type} [Monad m] [Steps m σ] {I : σ → σ → Prop} {α β γ δ : Type} {R : α → β → Prop}
  {S : γ → δ → Prop}

def Lockstep (I : σ → σ → Prop) (R : α → β → Prop) (x : m α) (y : m β) : Prop :=
  ∀ ⦃s t⦄, I s t → Agree (fun a b => R a.1 b.1 ∧ I a.2 b.2) (outcome x s) (outcome y t)

namespace Lockstep

protected theorem pure {a : α} {b : β} (holds : R a b) : Lockstep I R (pure a : m α) (pure b) := by
  intro s t states
  rw [outcome_pure, outcome_pure]
  exact .ok ⟨holds, states⟩

protected theorem bind {x : m α} {y : m β} {f : α → m γ} {g : β → m δ} (first : Lockstep I R x y)
    (later : ∀ a b, R a b → Lockstep I S (f a) (g b)) : Lockstep I S (x >>= f) (y >>= g) := by
  intro s t states
  rw [outcome_bind, outcome_bind]
  exact (first states).bind fun a b holds => later a.1 b.1 holds.1 holds.2

theorem imp {R' : α → β → Prop} {x : m α} {y : m β} (both : Lockstep I R x y) (weaker : ∀ a b, R a b → R' a b) :
    Lockstep I R' x y :=
  fun _ _ states => (both states).imp fun _ _ holds => ⟨weaker _ _ holds.1, holds.2⟩

protected theorem mapM [LawfulMonad m] {P : γ → δ → Prop} {f : γ → m α} {g : δ → m β} {items : List γ}
    {items' : List δ} (paired : List.Forall₂ P items items') (each : ∀ c d, P c d → Lockstep I R (f c) (g d)) :
    Lockstep I (List.Forall₂ R) (items.mapM f) (items'.mapM g) := by
  induction paired with
  | nil =>
    exact .pure .nil
  | cons here _ ih =>
    rw [mapM_cons, mapM_cons]
    exact (each _ _ here).bind fun a b holds => ih.bind fun as bs rest => .pure (.cons holds rest)

theorem mapM_map [LawfulMonad m] {h : γ → δ} {f : γ → m α} {g : δ → m β} {items : List γ}
    (each : ∀ c ∈ items, Lockstep I R (f c) (g (h c))) :
    Lockstep I (List.Forall₂ R) (items.mapM f) ((items.map h).mapM g) :=
  .mapM (forall₂_map_right_iff.mpr (forall₂_same.mpr each)) fun _ _ both => both

theorem self (x : m α) : Lockstep Eq Eq x x := by
  rintro s _ rfl
  exact .refl (fun _ => ⟨rfl, rfl⟩) _

end Lockstep

end Runs

def Pairs (C : Compilation → Compilation → Prop) (Q : Progress → Progress → Prop) (s t : Compilation × Progress) : Prop :=
  C s.1 t.1 ∧ Q s.2 t.2

namespace Lockstep

section Compiling

variable {C D : Compilation → Compilation → Prop} {α β : Type} {R : α → β → Prop} {x : CompileM α} {y : CompileM β}

theorem ofExcept {r : Except Fault α} {r' : Except Fault β} (agree : Agree R r r') :
    Lockstep C R (CompileM.ofExcept r) (CompileM.ofExcept r') :=
  fun _ _ states => agree.map fun _ _ holds => ⟨holds, states⟩

theorem ofDialect {r : Except Unsupported α} {r' : Except Unsupported β} (agree : Agree R r r') :
    Lockstep C R (CompileM.ofDialect r) (CompileM.ofDialect r') :=
  ofExcept (agree.mapError _)

protected theorem throw {fault : Fault} : Lockstep C R (throw fault : CompileM α) (throw fault' : CompileM β) :=
  ofExcept .error

protected theorem get : Lockstep C C (get : CompileM Compilation) (get : CompileM Compilation) :=
  fun _ _ states => .ok ⟨states, states⟩

protected theorem modify (both : ∀ c d, C c d → C (f c) (g d)) :
    Lockstep C Eq (modify f : CompileM PUnit) (modify g : CompileM PUnit) :=
  fun c d states => .ok ⟨rfl, both c d states⟩

theorem within {outer : CompileM α} {outer' : CompileM β} {enter enter' : Compilation → Compilation}
    {leave leave' : Compilation → Compilation → Compilation}
    (run : ∀ c, outer.run.run c = ((x.run.run (enter c)).1, leave c (x.run.run (enter c)).2))
    (run' : ∀ c, outer'.run.run c = ((y.run.run (enter' c)).1, leave' c (y.run.run (enter' c)).2))
    (push : ∀ {c d}, C c d → D (enter c) (enter' d))
    (pop : ∀ {c d inner inner'}, C c d → D inner inner' → C (leave c inner) (leave' d inner'))
    (both : Lockstep D R x y) : Lockstep C R outer outer' := by
  intro c d states
  have inside : Agree _ (Except.map _ (x.run.run (enter c)).1) (Except.map _ (y.run.run (enter' d)).1) := both (push states)
  show Agree _ (Except.map _ (outer.run.run c).1) (Except.map _ (outer'.run.run d).1)
  rw [run, run']
  generalize x.run.run (enter c) = first at inside ⊢
  generalize y.run.run (enter' d) = second at inside ⊢
  obtain ⟨_ | a, inner⟩ := first <;> obtain ⟨_ | b, inner'⟩ := second <;> cases inside
  · exact .error
  · next holds => exact .ok ⟨holds.1, pop states holds.2⟩

theorem withFilter
    (push : ∀ {c d}, C c d →
      D { c with filters := c.filters ++ [condition] } { d with filters := d.filters ++ [condition'] })
    (pop : ∀ {c d inner inner'}, C c d → D inner inner' →
      C { inner with filters := c.filters } { inner' with filters := d.filters }) (both : Lockstep D R x y) :
    Lockstep C R (CompileM.withFilter condition x) (CompileM.withFilter condition' y) :=
  within (fun _ => rfl) (fun _ => rfl) push pop both

theorem withoutFrame (push : ∀ {c d}, C c d → C { c with frame := none } { d with frame := none })
    (pop : ∀ {c d inner inner'}, C c d → C inner inner' → C { inner with frame := c.frame } { inner' with frame := d.frame })
    (both : Lockstep C R x y) : Lockstep C R (CompileM.withoutFrame x) (CompileM.withoutFrame y) :=
  within (fun _ => rfl) (fun _ => rfl) push pop both

end Compiling

section Planning

variable {Q : Progress → Progress → Prop} {C : Compilation → Compilation → Prop} {α β : Type} {R : α → β → Prop}

theorem liftExcept {r : Except Fault α} {r' : Except Fault β} (agree : Agree R r r') :
    Lockstep Q R (liftExcept r : PlanM α) (liftExcept r' : PlanM β) := by
  intro s t states
  cases agree with
  | ok holds => exact .ok ⟨holds, states⟩
  | error => exact .error

theorem fault {fault : Fault} :
    Lockstep Q R (MonadExcept.throw fault : PlanM α) (MonadExcept.throw fault' : PlanM β) :=
  fun _ _ _ => .error

theorem compiling {x : CompileM α} {y : CompileM β} (both : Lockstep C R x y) :
    Lockstep (Pairs C Q) R (RowsM.compiling x) (RowsM.compiling y) := by
  rintro ⟨c, s⟩ ⟨d, t⟩ ⟨states, progress⟩
  have run {α : Type} (x : CompileM α) (c : Compilation) (s : Progress) :
      outcome (RowsM.compiling x) (c, s) = (outcome x c).map fun r => (r.1, r.2, s) := by
    show Except.map _ ((RowsM.compiling x c).run s) = Except.map _ (Except.map _ (x.run.run c).1)
    unfold RowsM.compiling
    rcases x.run.run c with ⟨_ | a, mid⟩ <;> rfl
  rw [run, run]
  exact (both states).map fun _ _ holds => ⟨holds.1, holds.2, progress⟩

theorem lift {x : PlanM α} {y : PlanM β} (both : Lockstep Q R x y) :
    Lockstep (Pairs C Q) R (liftM x : RowsM α) (liftM y : RowsM β) := by
  rintro ⟨c, s⟩ ⟨d, t⟩ ⟨states, progress⟩
  have run {α : Type} (x : PlanM α) (c : Compilation) (s : Progress) :
      outcome (liftM x : RowsM α) (c, s) = (outcome x s).map fun r => (r.1, c, r.2) := by
    show Except.map _ ((StateT.lift x c).run s) = Except.map _ (x.run s)
    unfold StateT.lift
    rw [StateT.run_bind]
    rcases x.run s with _ | ⟨a, mid⟩ <;> rfl
  rw [run, run]
  exact (both progress).map fun _ _ holds => ⟨holds.1, states, holds.2⟩

theorem compilation : Lockstep (Pairs C Q) C (MonadState.get : RowsM Compilation) (MonadState.get : RowsM Compilation) :=
  fun _ _ states => .ok ⟨states.1, states⟩

theorem run {x : RowsM α} {y : RowsM β} (states : C c d) (both : Lockstep (Pairs C Q) R x y) :
    Lockstep Q (fun a b => R a.1 b.1 ∧ C a.2 b.2) (x.run c) (y.run d) := by
  intro s t progress
  have inside : Agree _ (Except.map _ ((x.run c).run s)) (Except.map _ ((y.run d).run t)) :=
    @both (c, s) (d, t) ⟨states, progress⟩
  show Agree _ ((x.run c).run s) ((y.run d).run t)
  generalize (x.run c).run s = first at inside ⊢
  generalize (y.run d).run t = second at inside ⊢
  cases first <;> cases second <;> cases inside
  · exact .error
  · next holds => exact .ok ⟨⟨holds.1, holds.2.1⟩, holds.2.2⟩

end Planning

end Lockstep

end SemanticLayer.Plan
