import SemanticLayer.Proofs.Plan.Operators

/-!
Compiling expressions. An expression of sound fields in which nothing is widened always compiles: the
definitions that it names are found, and where an aggregate needs a key there is one.
-/
namespace SemanticLayer.Plan

open List

def Reaches {m : Type → Type} {σ α : Type} [Monad m] [Runs m σ] (P : σ → Prop) (action : m α) (Q : α → Prop) : Prop :=
  ∀ s, P s → ∃ a s', Gives action s a s' ∧ P s' ∧ Q a

abbrev Succeeds {m : Type → Type} {σ α : Type} [Monad m] [Runs m σ] (action : m α) : Prop :=
  Reaches (fun _ => True) action fun _ => True

section

variable {m : Type → Type} {σ α β : Type} [Monad m] [Runs m σ] {P : σ → Prop} {Q : α → Prop} {R : β → Prop} {x : m α}
  {f : α → m β}

namespace Reaches

theorem pure {a : α} (holds : Q a) : Reaches P (Pure.pure a : m α) Q :=
  fun s kept => ⟨a, s, gives_pure.mpr ⟨rfl, rfl⟩, kept, holds⟩

theorem bind (first : Reaches P x Q) (second : ∀ a, Q a → Reaches P (f a) R) : Reaches P (x >>= f) R := by
  intro s kept
  obtain ⟨a, s', ran, kept, holds⟩ := first s kept
  obtain ⟨b, s'', ran', kept, holds⟩ := second a holds s' kept
  exact ⟨b, s'', gives_bind.mpr ⟨a, s', ran, ran'⟩, kept, holds⟩

theorem weaken {S : α → Prop} (reaches : Reaches P x Q) (le : ∀ a, Q a → S a) : Reaches P x S := by
  intro s kept
  obtain ⟨a, s', ran, kept, holds⟩ := reaches s kept
  exact ⟨a, s', ran, kept, le a holds⟩

theorem ofExcept {P : Compilation → Prop} {r : Except Fault α} {a : α} (ok : r = .ok a) (holds : Q a) :
    Reaches P (CompileM.ofExcept r) Q :=
  fun s kept => ⟨a, s, gives_ofExcept.mpr ⟨ok, rfl⟩, kept, holds⟩

theorem get {P : Compilation → Prop} : Reaches P (MonadState.get : CompileM Compilation) P :=
  fun s kept => ⟨s, s, rfl, kept, kept⟩

theorem mapM [LawfulMonad m] {S : α → β → Prop} : ∀ (items : List α),
    (∀ a ∈ items, Reaches P (f a) (S a)) → Reaches P (items.mapM f) (List.Forall₂ S items)
  | [], _ => by
    exact pure .nil
  | a :: rest, each => by
    rw [mapM_cons]
    refine bind (each a mem_cons_self) fun b first => ?_
    exact bind (mapM rest fun a mem => each a (mem_cons_of_mem _ mem)) fun bs later =>
      pure (.cons first later)

end Reaches

namespace Succeeds

theorem pure (a : α) : Succeeds (Pure.pure a : m α) := Reaches.pure trivial

theorem bind (first : Succeeds x) (second : ∀ a, Succeeds (f a)) : Succeeds (x >>= f) :=
  Reaches.bind first fun a _ => second a

theorem get : Succeeds (MonadState.get : CompileM Compilation) := Reaches.get

theorem modify (f : Compilation → Compilation) : Succeeds (modify f : CompileM PUnit) := fun s _ =>
  ⟨⟨⟩, f s, rfl, trivial, trivial⟩

theorem ofExcept {r : Except Fault α} {a : α} (ok : r = .ok a) : Succeeds (CompileM.ofExcept r) :=
  Reaches.ofExcept ok trivial

theorem mapM [LawfulMonad m] (items : List α) (each : ∀ a ∈ items, Succeeds (f a)) : Succeeds (items.mapM f) :=
  (Reaches.mapM items each).weaken fun _ _ => trivial

end Succeeds

end

theorem ofExcept_bind {α β : Type} {r : Except Fault α} {a : α} (ok : r = .ok a) (f : α → CompileM β) :
    CompileM.ofExcept r >>= f = f a := by
  rw [ok]
  rfl

theorem Succeeds.withFilter {α : Type} {action : CompileM α} (succeeds : Succeeds action) (condition : Sql.Expr) :
    Succeeds (CompileM.withFilter condition action) := by
  intro s _
  obtain ⟨a, s', ran, _⟩ := succeeds { s with filters := s.filters ++ [condition] } trivial
  exact ⟨a, { s' with filters := s.filters }, gives_withFilter.mpr ⟨s', ran, rfl⟩, trivial, trivial⟩

/-- What makes it possible to compile an expression, or several: `has` tells which parts there are. -/
structure Compilable (t : Target) (follow : CompileAt) (place : List String) (ns : Namespace)
    (has : (Expr → Bool) → Bool) : Prop where
  refers : ∀ {path}, has (Expr.isFieldAt path) = true → Succeeds (compileField follow place ns path)
  computes : ∀ {path}, has (Expr.isAggregateAt path) = true → Succeeds (distinctKey t follow (place ++ path))
  plain : has Expr.isUngroup = false
  complete : has Expr.isBare = false

section Compile

variable {t : Target} {follow : CompileAt} {place : List String} {ns : Namespace}

theorem Compilable.part {part : (Expr → Bool) → Bool} (compilable : Compilable t follow place ns has)
    (le : ∀ test, part test = true → has test = true) : Compilable t follow place ns part := by
  refine ⟨fun h => compilable.refers (le _ h), fun h => compilable.computes (le _ h), ?_, ?_⟩
  · exact Bool.eq_false_iff.mpr fun h => Bool.eq_false_iff.mp compilable.plain (le _ h)
  · exact Bool.eq_false_iff.mpr fun h => Bool.eq_false_iff.mp compilable.complete (le _ h)

theorem keyedSum_ok {arg : Option Sql.Expr} {f : Sql.Expr → Sql.Expr → Sql.Expr} {fault : Fault}
    (keyed : Succeeds (distinctKey t follow path)) (argued : arg.isSome = true) :
    Succeeds (distinctKey t follow path >>= fun key => match arg with
      | some value => Pure.pure (f key value)
      | none => throw fault) := by
  refine .bind keyed fun key => ?_
  obtain ⟨value, rfl⟩ := Option.isSome_iff_exists.mp argued
  exact .pure _

theorem compileAggregate_ok {arg : Option Sql.Expr} (keyed : Succeeds (distinctKey t follow path))
    (argued : arg.isSome = true ∨ function = .count) : Succeeds (compileAggregate t follow function path arg) := by
  refine .bind .get fun s => ?_
  dsimp only
  split
  · exact .bind keyed fun key => .pure _
  · split
    · exact .bind keyed fun key => .pure _
    · exact .pure _
  · exact keyedSum_ok keyed (argued.resolve_right (by decide))
  · exact keyedSum_ok keyed (argued.resolve_right (by decide))
  · exact .pure _

theorem assemble_ok (casts : d.conventions.safeCast.isSome = true) (place : List String) (e : Expr)
    (xs : List Sql.Expr) : ∃ x, assemble d place e xs = .ok x := by
  unfold assemble
  split
  case h_6 a type safe x =>
    obtain ⟨kind, isKind⟩ := Option.isSome_iff_exists.mp casts
    cases safe with
    | false => exact ⟨_, rfl⟩
    | true => exact ⟨.cast x (d.typeName type) kind, by rw [Dialect.cast, if_pos rfl, isKind]⟩
  all_goals exact ⟨_, rfl⟩

theorem compile_ok (casts : t.dialect.conventions.safeCast.isSome = true) (e : Expr)
    (compilable : Compilable t follow place ns (e.any ·)) : Succeeds (compile t follow place ns e) := by
  induction e using Expr.parts_induction with
  | step e ih =>
    have part {p : Expr} (mem : p ∈ e.parts) : Succeeds (compile t follow place ns p) :=
      ih p mem (compilable.part fun _ => Expr.any_part mem)
    cases operator : isOperator e with
    | true =>
      rw [compile_operator operator]
      refine .bind (.mapM e.parts fun p => part) fun xs => ?_
      obtain ⟨x, is⟩ := assemble_ok casts place e xs
      exact .ofExcept (by rw [is]; rfl)
    | false =>
      cases e with
      | field path =>
        exact compilable.refers (Expr.field_refersTo path)
      | aggregate function locality arg =>
        have keyed := compilable.computes (Expr.aggregate_computesAt function locality arg)
        rw [compile]
        cases arg with
        | none =>
          have counts : function = .count := by
            simpa [Expr.any, Expr.anyOption, Expr.isBare] using compilable.complete
          exact .bind (.pure none) fun _ => compileAggregate_ok keyed (.inr counts)
        | some a =>
          rw [compileOption, bind_assoc]
          refine .bind (part mem_cons_self) fun arg => ?_
          rw [pure_bind]
          exact compileAggregate_ok keyed (.inl rfl)
      | filtered a filter =>
        exact .bind (part (by simp [Expr.parts])) fun condition => (part (by simp [Expr.parts])).withFilter condition
      | ungroup =>
        have plain := compilable.plain
        simp [Expr.any, Expr.isUngroup] at plain
      | _ => cases operator

end Compile

theorem compileField_eq (defined : definitionOf ns path = .ok (joins, owner, d)) :
    compileField follow place ns path = follow (place ++ joins) owner d := by
  unfold compileField
  rw [ofExcept_bind defined]

/-- A base relation of which expressions are compiled: what they lead to is closed and holds nothing that is
widened, and the key of the relation is one of its dimensions. -/
structure Base (R : Namespace → Expr → Prop) (J : Namespace → Join → Prop) (root : Namespace)
    (key : Option String) : Prop where
  closed : Closed R J
  plain : ∀ {ns e}, R ns e → e.containsUngroup = false
  sound : FieldsSound root
  keyed : ∀ name ∈ key, (Names.of root).level [name] = some .scalar

namespace Target

variable {t : Target} {R : Namespace → Expr → Prop} {J : Namespace → Join → Prop} {root ns : Namespace}
  {key : Option String} {fuel : Nat} {place : List String}

variable {e : Expr}

section

variable (casts : t.dialect.conventions.safeCast.isSome = true)

include casts

theorem scalar_ok (sound : FieldsSound ns)
    (level : e.level? (Names.of ns) = some .scalar) (enough : ns.size + 1 ≤ fuel) :
    Succeeds (t.compileWithin fuel place ns e) := by
  refine follow_bound (K := 0) (S := fun fuel place ns e => e.level? (Names.of ns) = some .scalar →
    Succeeds (t.compileWithin fuel place ns e)) ?_ ns.size rfl sound level place enough level
  intro fuel place ns e l sound _ _ follows level
  refine compile_ok casts e ⟨fun refers => ?_, fun computes => ?_, Expr.scalar_plain level,
    Expr.level_complete level⟩
  · obtain ⟨l', named, scalar⟩ := Expr.refers_level level refers
    obtain rfl := scalar rfl
    obtain ⟨joins, _, owner, d, _, _, _, defined, level⟩ := sound.definition named
    rw [compileField_eq defined]
    exact follows refers defined level
  · cases (Expr.computes_level level computes).2

theorem distinctKey_ok (base : Base R J root key)
    (spans : t.tree.Over J root key) (placed : Placed J root place ns) (enough : root.size + 1 ≤ fuel) :
    Succeeds (distinctKey t (t.compileWithin fuel) place) := by
  obtain ⟨own, found, keyed⟩ := spans.keyAt base.sound base.keyed placed
  unfold distinctKey
  rw [ofExcept_bind found]
  cases own with
  | none => exact .bind (.modify _) fun _ => .pure _
  | some name =>
    obtain ⟨joins, _, owner, d, _, within, sound, defined, level⟩ :=
      (base.sound.within placed.within).definition (keyed name rfl)
    have outer := within_le placed.within
    have inner := within_le within
    dsimp only
    rw [ofExcept_bind (spans.fieldsAt placed), compileField_eq defined]
    exact scalar_ok casts sound level (by omega)

theorem compileWithin_ok (base : Base R J root key)
    (spans : t.tree.Over J root key) (placed : Placed J root place ns) (level : e.level? (Names.of ns) = some l)
    (reached : R ns e) (enough : ns.size + 1 + (root.size + 1) ≤ fuel) :
    Succeeds (t.compileWithin fuel place ns e) := by
  refine follow_bound (S := fun fuel place ns e => R ns e → Placed J root place ns →
    Succeeds (t.compileWithin fuel place ns e)) ?_ ns.size rfl (base.sound.within placed.within) level place
    enough reached placed
  intro fuel place ns e l sound level enough follows reached placed
  refine compile_ok casts e ⟨fun refers => ?_, fun computes => ?_, base.plain reached,
    Expr.level_complete level⟩
  · obtain ⟨l', named, _⟩ := Expr.refers_level level refers
    obtain ⟨joins, last, owner, d, split, within, _, defined, _⟩ := sound.definition named
    rw [compileField_eq defined]
    exact follows refers defined (base.closed.definition reached refers defined)
      (placed.append (read_placed base.closed reached (.inl ⟨last, split ▸ refers⟩) within))
  · obtain ⟨inner, within⟩ := Option.isSome_iff_exists.mp (Expr.computes_level level computes).1
    exact distinctKey_ok casts base spans
      (placed.append (read_placed base.closed reached (.inr computes) within)) enough

theorem scalarAt_ok (spans : t.tree.Over J root key)
    (sound : FieldsSound ns) (placed : Placed J root place ns) (level : e.level? (Names.of ns) = some .scalar) :
    Succeeds (t.compileAt place ns e) := by
  refine scalar_ok casts sound level ?_
  have size := within_le placed.within
  rw [depth, spans.root_eq]
  omega

theorem compileAt_ok (base : Base R J root key)
    (spans : t.tree.Over J root key) (placed : Placed J root place ns) (level : e.level? (Names.of ns) = some l)
    (reached : R ns e) : Succeeds (t.compileAt place ns e) := by
  refine compileWithin_ok casts base spans placed level reached ?_
  have size := within_le placed.within
  rw [depth, spans.root_eq]
  omega

end

end Target

end SemanticLayer.Plan
