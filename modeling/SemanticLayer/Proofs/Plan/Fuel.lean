import Mathlib.Logic.Function.Iterate
import SemanticLayer.Proofs.Elaborate.Levels
import SemanticLayer.Proofs.Plan.Compile

/-!
How deep definitions are followed. The walks over an expression go on in the definitions that it names. In sound
fields each of them is over within the depth that it is given: what stands below that depth is never asked.
-/
namespace SemanticLayer.Plan

open List

variable {t : Target} {follow follow' : CompileAt} {place : List String} {ns : Namespace}

theorem ofExcept_ok_bind {α β : Type} (a : α) (f : α → CompileM β) : CompileM.ofExcept (.ok a) >>= f = f a := rfl

theorem ofExcept_bind_congr {α β : Type} {x : Except Fault α} {f g : α → CompileM β} (same : ∀ a, x = .ok a → f a = g a) :
    CompileM.ofExcept x >>= f = CompileM.ofExcept x >>= g := by
  cases x with
  | error => rfl
  | ok a => exact same a rfl

theorem mapM_same {m : Type → Type} [Monad m] [LawfulMonad m] {α β : Type} {f g : α → m β} {items : List α}
    (each : ∀ a ∈ items, f a = g a) : items.mapM f = items.mapM g := by
  induction items with
  | nil => rw [mapM_nil, mapM_nil]
  | cons a rest ih =>
    rw [mapM_cons, mapM_cons, each a mem_cons_self, ih fun a mem => each a (mem_cons_of_mem _ mem)]

theorem compileField_congr
    (same : ∀ {joins owner d}, definitionOf ns path = .ok (joins, owner, d) →
      follow (place ++ joins) owner d = follow' (place ++ joins) owner d) :
    compileField follow place ns path = compileField follow' place ns path :=
  ofExcept_bind_congr fun _ is => same is

theorem distinctKey_congr
    (same : ∀ {key ns}, t.tree.keyAt path = .ok (some key) →
      t.tree.fieldsAt path = .ok ns → compileField follow path ns [key] = compileField follow' path ns [key]) :
    distinctKey t follow path = distinctKey t follow' path := by
  refine ofExcept_bind_congr fun key isKey => ?_
  cases key with
  | none => rfl
  | some key => exact ofExcept_bind_congr fun ns found => same isKey found

theorem compile_congr (e : Expr)
    (refers : ∀ {path}, e.refersTo path = true → compileField follow place ns path = compileField follow' place ns path)
    (computes : ∀ {path}, e.computesAt path = true → distinctKey t follow (place ++ path) = distinctKey t follow' (place ++ path)) :
    compile t follow place ns e = compile t follow' place ns e := by
  induction e using Expr.parts_induction with
  | step e ih =>
    have parts : ∀ p ∈ e.parts, compile t follow place ns p = compile t follow' place ns p := fun p mem =>
      ih p mem (fun h => refers (Expr.any_part mem h)) (fun h => computes (Expr.any_part mem h))
    cases operator : isOperator e with
    | true =>
      rw [compile_operator operator, compile_operator operator, mapM_same parts]
    | false =>
      cases e with
      | field path =>
        exact refers (Expr.field_refersTo path)
      | aggregate function locality arg =>
        have key := computes (Expr.aggregate_computesAt function locality arg)
        have args : arg.toList.mapM (compile t follow place ns) = arg.toList.mapM (compile t follow' place ns) := mapM_same parts
        rw [compile, compile, compileOption_eq, compileOption_eq, args]
        unfold compileAggregate
        rw [key]
      | filtered a condition =>
        rw [compile, compile, parts a mem_cons_self, parts condition (mem_cons_of_mem _ mem_cons_self)]
      | ungroup kind a fields => rw [compile, compile, parts a mem_cons_self]
      | _ => cases operator

section Reads

variable {follow follow' : Place → Expr → Reads → Reads} {place : Place}

theorem collectReads_congr (e : Expr)
    (same : ∀ {path joins owner d crosses}, e.refersTo path = true → definitionOf place.owner path = .ok (joins, owner, d) →
      follow ⟨owner, place.path ++ joins, crosses⟩ d = follow' ⟨owner, place.path ++ joins, crosses⟩ d) (reads : Reads) :
    e.collectReads follow place reads = e.collectReads follow' place reads := by
  induction e using Expr.parts_induction generalizing reads with
  | step e ih =>
    by_cases named : e.isName = true
    · cases e with
      | column name => rw [Expr.collectReads, Expr.collectReads]
      | field path =>
        rw [Expr.collectReads, Expr.collectReads]
        split
        · next joins relationships owner f resolved =>
          refine congrFun (same (Expr.field_refersTo path) ?_) reads
          unfold definitionOf
          rw [resolved]
          rfl
        · rfl
      | _ => cases named
    · rw [Elaborate.collectReads_parts (by simpa using named), Elaborate.collectReads_parts (by simpa using named)]
      refine foldl_ext _ _ _ fun reads part mem => ih part mem (fun refers => same (Expr.any_part mem refers)) reads

end Reads

theorem foldlM_same {α β ε : Type} {f g : β → α → Except ε β} {items : List α} (each : ∀ a ∈ items, ∀ b, f b a = g b a)
    (b : β) : items.foldlM f b = items.foldlM g b := by
  induction items generalizing b with
  | nil => rfl
  | cons a rest ih =>
    obtain ⟨here, others⟩ := forall_mem_cons.mp each
    rw [foldlM_cons, here]
    exact bind_congr (ih others)

theorem collect_congr {follow follow' : Follow} (e : Expr)
    (same : ∀ {path joins owner d}, e.refersTo path = true → definitionOf ns path = .ok (joins, owner, d) →
      follow (place ++ joins) owner d = follow' (place ++ joins) owner d) (paths : JoinPaths) :
    collect follow place ns e paths = collect follow' place ns e paths := by
  induction e using Expr.parts_induction generalizing paths with
  | step e ih =>
    have parts := foldlM_same fun p mem => ih p mem fun refers => same (Expr.any_part mem refers)
    cases e with
    | column name => rw [collect, collect]
    | field path =>
      rw [collect, collect]
      cases defined : definitionOf ns path with
      | error fault => rfl
      | ok found => exact congrFun (same (Expr.field_refersTo path) defined) _
    | aggregate function locality arg =>
      rw [collect, collect, collectOption_eq, collectOption_eq]
      exact parts _
    | _ =>
      rw [collect_parts (by simp) (by simp) (by simp), collect_parts (by simp) (by simp) (by simp)]
      exact parts _

variable {e : Expr}

theorem readsWithin_ends (sound : FieldsSound ns) (level : e.level? (Names.of ns) = some l)
    (enough : ns.size + 1 ≤ fuel) (place : List String) (crosses : Bool) (bottom : Place → Expr → Reads → Reads)
    (reads : Reads) : (Expr.collectReads^[fuel] bottom) ⟨ns, place, crosses⟩ e reads =
      e.readsWithin fuel ⟨ns, place, crosses⟩ reads := by
  refine follow_bound (K := 0) (S := fun fuel place ns e => ∀ crosses reads,
    (Expr.collectReads^[fuel] bottom) ⟨ns, place, crosses⟩ e reads = e.readsWithin fuel ⟨ns, place, crosses⟩ reads)
    ?_ ns.size rfl sound level place enough crosses reads
  intro fuel place ns e l sound _ _ follows crosses reads
  rw [Function.iterate_succ_apply']
  exact collectReads_congr e (fun refers defined => funext (follows refers defined _)) reads

theorem collectWithin_ends (sound : FieldsSound ns) (level : e.level? (Names.of ns) = some l)
    (enough : ns.size + 1 ≤ fuel) (place : List String) (bottom : Follow) (paths : JoinPaths) :
    (collect^[fuel] bottom) place ns e paths = collectWithin fuel place ns e paths := by
  refine follow_bound (K := 0) (S := fun fuel place ns e => ∀ paths,
    (collect^[fuel] bottom) place ns e paths = collectWithin fuel place ns e paths)
    ?_ ns.size rfl sound level place enough paths
  intro fuel place ns e l sound _ _ follows paths
  rw [Function.iterate_succ_apply']
  exact collect_congr e (fun refers defined => funext (follows refers defined)) paths

namespace Target

theorem compileWithin_scalar (sound : FieldsSound ns) (level : e.level? (Names.of ns) = some .scalar)
    (enough : ns.size + 1 ≤ fuel) (place : List String) (bottom : CompileAt) :
    ((compile t)^[fuel] bottom) place ns e = t.compileWithin fuel place ns e := by
  refine follow_bound (K := 0) (S := fun fuel place ns e => e.level? (Names.of ns) = some .scalar →
    ((compile t)^[fuel] bottom) place ns e = t.compileWithin fuel place ns e) ?_ ns.size rfl sound level place
    enough level
  intro fuel place ns e l sound _ _ follows level
  rw [Function.iterate_succ_apply']
  refine compile_congr e (fun refers => compileField_congr fun defined => ?_) fun computes => ?_
  · obtain ⟨l', named, scalar⟩ := Expr.refers_level level refers
    cases scalar rfl
    obtain ⟨_, _, _, _, _, _, _, defined', leveled⟩ := sound.definition named
    cases defined.symm.trans defined'
    exact follows refers defined leveled
  · cases (Expr.computes_level level computes).2

/-- Going over to a key takes at most as much again as there are fields. -/
theorem compileWithin_ends (root : FieldsSound t.tree.root)
    (keyed : ∀ name ∈ t.tree.key, (Names.of t.tree.root).level [name] = some .scalar) (sound : FieldsSound ns)
    (level : e.level? (Names.of ns) = some l) (enough : ns.size + 1 + (t.tree.root.size + 1) ≤ fuel)
    (place : List String) (bottom : CompileAt) :
    ((compile t)^[fuel] bottom) place ns e = t.compileWithin fuel place ns e := by
  refine follow_bound (S := fun fuel place ns e =>
    ((compile t)^[fuel] bottom) place ns e = t.compileWithin fuel place ns e) ?_ ns.size rfl sound level place enough
  intro fuel place ns e l sound level most follows
  rw [Function.iterate_succ_apply']
  refine compile_congr e (fun refers => compileField_congr fun defined => follows refers defined) fun _ => ?_
  refine distinctKey_congr fun isKey found => compileField_congr fun defined => ?_
  have within := fieldsAt_within found
  obtain ⟨within', leveled⟩ := definition_within root within defined (by rw [Expr.level?]; exact keyAt_level root keyed isKey found)
  exact compileWithin_scalar (root.within within') leveled (Nat.le_trans (Nat.succ_le_succ (within_le within')) most) _ bottom

theorem compileAt_ends (root : FieldsSound t.tree.root)
    (keyed : ∀ name ∈ t.tree.key, (Names.of t.tree.root).level [name] = some .scalar)
    (within : t.tree.root.within? place = some ns) (level : e.level? (Names.of ns) = some l) (bottom : CompileAt) :
    ((compile t)^[t.depth] bottom) place ns e = t.compileAt place ns e := by
  refine compileWithin_ends root keyed (root.within within) level ?_ place bottom
  have fewer := within_le within
  unfold depth
  omega

theorem compileWithin_add (fuel more : Nat) : t.compileWithin (fuel + more) = (compile t)^[fuel] (t.compileWithin more) := by
  induction fuel with
  | zero => rw [Nat.zero_add]; rfl
  | succ fuel ih =>
    funext place ns e
    rw [Nat.add_right_comm, compileWithin, ih, Function.iterate_succ_apply']

end Target

end SemanticLayer.Plan
