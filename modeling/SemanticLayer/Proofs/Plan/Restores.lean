import SemanticLayer.Proofs.Plan.Operators

/-!
What compiling does to its state, whether it succeeds or not: the filters and the frame are as they were, and keys and
widened aggregates are added after those that are there.
-/
namespace SemanticLayer.Plan

open List

namespace Compilation

abbrev Numbered (c : Compilation) : Prop :=
  c.ungroups.map Ungroup.label = (List.range c.ungroups.length).map fun i => s!"__u{i}"

/-- Compiling adds keys and widened aggregates, and puts everything else back. -/
structure Grows (c c' : Compilation) : Prop where
  keyed : c.keyed ⊆ c'.keyed
  ungroups : c.ungroups <+: c'.ungroups
  filters : c'.filters = c.filters
  frame : c'.frame = c.frame
  labels : c.Numbered → c'.Numbered
  partitioned : ∀ u ∈ c'.ungroups, u ∈ c.ungroups ∨
    ∃ frame ∈ c.frame, ∃ kind fields, u.partition = partitionOf frame kind fields

variable {c c' c'' : Compilation}

theorem Grows.refl (c : Compilation) : c.Grows c :=
  ⟨fun _ mem => mem, prefix_rfl, rfl, rfl, id, fun _ mem => .inl mem⟩

theorem Grows.trans (first : c.Grows c') (second : c'.Grows c'') : c.Grows c'' where
  keyed _ mem := second.keyed (first.keyed mem)
  ungroups := first.ungroups.trans second.ungroups
  filters := second.filters.trans first.filters
  frame := second.frame.trans first.frame
  labels numbered := second.labels (first.labels numbered)
  partitioned u mem := by
    rcases second.partitioned u mem with mem | new
    · exact first.partitioned u mem
    · exact .inr (first.frame ▸ new)

theorem Grows.reframe (grows : { c with frame := none }.Grows c') : c.Grows { c' with frame := c.frame } :=
  ⟨grows.keyed, grows.ungroups, grows.filters, rfl, grows.labels, fun u mem => .inl <| by
    -- Without a frame nothing is widened, so what is there was there before.
    rcases grows.partitioned u mem with mem | ⟨_, is, _⟩
    · exact mem
    · cases is⟩

theorem Grows.widen {f : UngroupFrame} (framed : c.frame = some f) : c.Grows { c with
    ungroups := c.ungroups ++ [⟨s!"__u{c.ungroups.length}", partitionOf f kind fields, value⟩] } where
  keyed _ mem := mem
  ungroups := prefix_append _ _
  filters := rfl
  frame := rfl
  labels (numbered : _ = _) := by simp [Numbered, range_succ, numbered]
  partitioned u mem := by
    rcases mem_append.mp mem with mem | mem
    · exact .inl mem
    · cases mem_singleton.mp mem
      exact .inr ⟨f, framed, kind, fields, rfl⟩

end Compilation

/-- Whatever comes of it, an action only lets the state grow. -/
def Restores {α : Type} (action : CompileM α) : Prop := ∀ c : Compilation, c.Grows (action.run.run c).2

namespace Restores

variable {α β : Type} {action : CompileM α}

theorem gives (restores : Restores action) (run : Gives action c a c') : c.Grows c' := by
  have grows := restores c
  rwa [show action.run.run c = _ from run] at grows

theorem pure (a : α) : Restores (Pure.pure a : CompileM α) := Compilation.Grows.refl

theorem throw (fault : Fault) : Restores (MonadExcept.throw fault : CompileM α) := Compilation.Grows.refl

theorem ofExcept (result : Except Fault α) : Restores (CompileM.ofExcept result) := Compilation.Grows.refl

theorem get : Restores (MonadState.get : CompileM Compilation) := Compilation.Grows.refl

theorem bind {f : α → CompileM β} (first : Restores action) (rest : ∀ a, Restores (f a)) : Restores (action >>= f) := by
  intro c
  have grows := first c
  rw [ExceptT.run_bind, StateT.run_bind]
  rcases run : action.run.run c with ⟨_ | a, mid⟩
  · rw [run] at grows
    exact grows
  · rw [run] at grows
    exact grows.trans (rest a mid)

theorem get_bind {f : Compilation → CompileM β} (rest : ∀ c : Compilation, c.Grows ((f c).run.run c).2) :
    Restores (MonadState.get >>= f) := rest

theorem mapM {f : α → CompileM β} {items : List α} (each : ∀ a ∈ items, Restores (f a)) : Restores (items.mapM f) := by
  induction items with
  | nil => exact pure []
  | cons a rest ih =>
    rw [mapM_cons]
    exact (each a mem_cons_self).bind fun b => (ih fun a mem => each a (mem_cons_of_mem _ mem)).bind fun bs => pure _

theorem withFilter (restores : Restores action) : Restores (CompileM.withFilter condition action) := by
  intro c
  obtain ⟨keyed, ungroups, _, frame, labels, partitioned⟩ := restores { c with filters := c.filters ++ [condition] }
  exact ⟨keyed, ungroups, rfl, frame, labels, partitioned⟩

theorem compileUngroup {inner : CompileM Sql.Expr} (restores : Restores inner) :
    Restores (compileUngroup kind fields inner) := by
  refine get_bind fun c => ?_
  cases framed : c.frame with
  | none => exact .refl c
  | some frame =>
    dsimp only
    split
    · exact .refl c
    have grows := restores { c with frame := none }
    rw [ExceptT.run_bind, StateT.run_bind]
    rcases run : inner.run.run { c with frame := none } with ⟨result, mid⟩
    have unframed : (CompileM.withoutFrame inner).run.run c = (result, { mid with frame := c.frame }) :=
      congrArg (fun r : Except Fault Sql.Expr × Compilation => (r.1, ({ r.2 with frame := c.frame } : Compilation))) run
    rw [run] at grows
    rw [unframed]
    cases result with
    | error fault => exact grows.reframe
    | ok value => exact grows.reframe.trans (.widen framed)

variable {follow : CompileAt} (follows : ∀ place ns e, Restores (follow place ns e))

include follows

theorem compileField (place : List String) (ns : Namespace) (path : List String) :
    Restores (compileField follow place ns path) := (ofExcept _).bind fun _ => follows _ _ _

theorem distinctKey (t : Target) (path : List String) : Restores (distinctKey t follow path) := by
  refine (ofExcept _).bind fun key => ?_
  cases key with
  | some key => exact (ofExcept _).bind fun ns => compileField follows _ _ _
  | none =>
    refine bind (fun c => ?_) fun _ => pure _
    exact ⟨fun _ mem => JoinPaths.mem_insert.mpr (.inr mem), prefix_rfl, rfl, rfl, id, fun _ mem => .inl mem⟩

theorem compileAggregate (t : Target) (function : AggregateFunction) (path : List String) (arg : Option Sql.Expr) :
    Restores (compileAggregate t follow function path arg) := by
  have keyed {γ : Type} {f : Sql.Expr → CompileM γ} (rest : ∀ key, Restores (f key)) :
      Restores (Plan.distinctKey t follow path >>= f) := (distinctKey follows t path).bind rest
  refine get.bind fun c => ?_
  dsimp only
  split
  · exact keyed fun key => pure _
  · split
    · exact keyed fun key => pure _
    · exact pure _
  · refine keyed fun key => ?_
    cases arg with
    | none => exact throw _
    | some value => exact pure _
  · refine keyed fun key => ?_
    cases arg with
    | none => exact throw _
    | some value => exact pure _
  · exact pure _

theorem compile (t : Target) (place : List String) (ns : Namespace) (e : Expr) :
    Restores (compile t follow place ns e) := by
  induction e using Expr.parts_induction with
  | step e ih =>
    cases operator : isOperator e with
    | true =>
      rw [compile_operator operator]
      exact (mapM ih).bind fun xs => ofExcept _
    | false =>
      cases e with
      | field path =>
        exact compileField follows _ _ _
      | aggregate function locality arg =>
        rw [Plan.compile, compileOption_eq]
        refine ((mapM ih).bind fun xs => pure _).bind fun arg => compileAggregate follows _ _ _ _
      | filtered a condition =>
        exact (ih _ (by simp [Expr.parts])).bind fun x => (ih _ (by simp [Expr.parts])).withFilter
      | ungroup kind a fields =>
        exact (ih _ (by simp [Expr.parts])).compileUngroup
      | _ => cases operator

end Restores

theorem Target.restores (t : Target) : ∀ (fuel : Nat) (place : List String) (ns : Namespace) (e : Expr),
    Restores (t.compileWithin fuel place ns e)
  | 0, _, _, _ => .throw _
  | fuel + 1, place, ns, e => .compile (t.restores fuel) t place ns e

end SemanticLayer.Plan
