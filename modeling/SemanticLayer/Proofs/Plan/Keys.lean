import SemanticLayer.Proofs.Plan.Closure
import SemanticLayer.Proofs.Plan.Offered

/-!
Generated keys. Compiling puts its filters and its frame back, and whatever relation it reads a generated key of is
given one where its rows are planned.
-/
namespace SemanticLayer

open List Plan

/-- A column that may be called like a generated key only if it is one of a keyed path, or if it is stored: an
expression at a place, or a definition, names it. -/
def Plan.Target.Keys (t : Target) (place : List String) (e : Expr) (paths : JoinPaths) (table : Option String)
    (name : String) : Prop :=
  name = distinctKeyColumn → (∃ path ∈ paths, t.tree.keyAt path = .ok none ∧ table = some (aliasOf path)) ∨
    ((Expr.column name).Occurs e ∧ table = some (aliasOf place)) ∨
    ∃ origin ns path joins owner d, t.tree.root.within? origin = some ns ∧ definitionOf ns path = .ok (joins, owner, d) ∧
      (Expr.column name).Occurs d ∧ table = some (aliasOf (origin ++ joins))

def Plan.Compilation.written (c : Compilation) : List Sql.Expr := c.ungroups.flatMap fun u => u.value :: u.partition

theorem Plan.Target.keys_grounds {t : Target} (sound : FieldsSound t.tree.root)
    (keyed : ∀ name ∈ t.tree.key, (Names.of t.tree.root).level [name] = some .scalar) (place : List String) (e : Expr) :
    Grounds t (fun _ => True) (t.Keys place e) where
  sound := sound
  numbers := .any
  keyed := keyed
  owns within defined name occurs _ := .inr (.inr ⟨_, _, _, _, _, _, within, defined, occurs, rfl⟩)
  mono le table name keys is := by
    refine (keys is).imp_left ?_
    rintro ⟨path, mem, given⟩
    exact ⟨path, le mem, given⟩
  generated mem none _ := .inl ⟨_, mem, none, rfl⟩

theorem Plan.planFrame_wraps (sound : InputSound input) (spans : tree.Over (fun _ _ => True) input.fields input.key)
    (run : Gives (planFrame p ⟨p.dialect, tree⟩ input conditions) (c, s) frame (c', s')) :
    c' = c ∧ frame.source = aliased c.keyed [] input.relation ∧
      Forall₂ (fun path join => ∃ relation, join.table = aliased c.keyed path relation) tree.ordered frame.joins := by
  obtain ⟨filters, mid, joins, first, second, rfl⟩ := planFrame_inv run
  obtain ⟨same, _⟩ := gives_mapM_each (P := fun s => s.1 = c) first rfl
    fun e mem ⟨c₁, s₁⟩ x ⟨c₂, s₂⟩ holds step => by
      obtain ⟨compiled, rfl⟩ := gives_compiling.mp step
      obtain ⟨rfl, _⟩ := (root_steady sound spans (sound.filters e mem)).comes compiled
      exact ⟨holds, trivial⟩
  obtain ⟨rfl, joins⟩ := gives_mapM_each (P := fun s => s.1 = c)
    (Q := fun path join => ∃ relation, join.table = aliased c.keyed path relation) second same
    fun path mem ⟨c₁, s₁⟩ join ⟨c₂, s₂⟩ holds step => by
      obtain ⟨j, conditions, relation, found, compiled, _, rfl⟩ := planJoin_inv step
      have steady := (grounds sound .any spans).joinConditions_steady found
        (fun _ _ _ _ => trivial) fun _ _ _ _ => trivial
      obtain ⟨rfl, _⟩ := steady.comes compiled
      cases holds
      refine ⟨rfl, relation, ?_⟩
      unfold joinOn
      split <;> rfl
  exact ⟨rfl, rfl, joins⟩

open Elaborate

end SemanticLayer
