import SemanticLayer.Proofs.Elaborate.Scope
import SemanticLayer.Proofs.Model.Sound

/-!
The level that elaboration gives an expression is the one that the expression has over the names it was
elaborated against, and what it reads lies on joins. This is a judgement that every rule passes on.
-/
namespace SemanticLayer.Elaborate

open List

open Level (both both_some)

def supAll (levels : List Level) : Level := levels.foldr Level.sup .scalar

/-- A typed expression whose level is right over some names, and which reads what can be joined. -/
structure Leveled (n : Names) (t : Typed) : Prop where
  level : t.expr.level? n = some t.level
  reads : ∀ p ∈ t.reads, n.joins p.1 = true

theorem leveled_mono (le : n ≤ m) {t : Typed} (leveled : Leveled n t) : Leveled m t :=
  ⟨Expr.level?_mono le _ leveled.level, fun p mem => le.2.1 _ (leveled.reads p mem)⟩

def Reads.Has (reads : Reads) (path : List String) : Prop := ∃ p ∈ reads, p.1 = path

section Has

variable {reads a b : Reads} {path p : List String} {crosses : Bool}

theorem has_cons : Reads.Has (first :: reads) p ↔ first.1 = p ∨ Reads.Has reads p := by
  simp [Reads.Has]

theorem has_add : Reads.Has (reads.add path crosses) p ↔ path = p ∨ Reads.Has reads p := by
  induction reads with
  | nil => exact has_cons
  | cons first rest ih =>
    rw [Reads.add]
    split
    · exact has_cons
    · split
      · next same =>
        rw [has_cons, has_cons, ← same]
        exact (or_iff_right_of_imp .inl).symm
      · rw [has_cons, has_cons, ih]
        exact or_left_comm

theorem has_foldl {α : Type} {f : Reads → α → Reads} {G : α → Prop} {items : List α}
    (each : ∀ a ∈ items, ∀ reads, Reads.Has (f reads a) p ↔ Reads.Has reads p ∨ G a) (reads : Reads) :
    Reads.Has (items.foldl f reads) p ↔ Reads.Has reads p ∨ ∃ a ∈ items, G a := by
  induction items generalizing reads with
  | nil => simp
  | cons first rest ih =>
    rw [foldl_cons, ih fun a mem => each a (mem_cons_of_mem _ mem), each first mem_cons_self, or_assoc]
    simp

theorem has_union : Reads.Has (a.union b) p ↔ Reads.Has a p ∨ Reads.Has b p :=
  has_foldl (G := fun q : List String × Bool => q.1 = p) (fun _ _ _ => has_add.trans or_comm) a

theorem has_unions (parts : List Typed) : Reads.Has (parts.foldl (fun reads part => reads.union part.reads) a) p ↔
    Reads.Has a p ∨ ∃ part ∈ parts, Reads.Has part.reads p :=
  has_foldl (G := fun part : Typed => Reads.Has part.reads p) (fun _ _ _ => has_union) a

end Has

theorem build_level (parts : List Typed) :
    (if parts.any Typed.isAggregate then Level.aggregate else .scalar) =
      supAll (parts.map Typed.level) := by
  induction parts with
  | nil => rfl
  | cons first rest ih =>
    show _ = first.level.sup (supAll (rest.map Typed.level))
    rw [← ih]
    cases h : first.level <;> simp [Typed.isAggregate, Level.isAggregate, h, Level.sup]

variable {n : Names} {ns : Namespace}

theorem levelList_leveled {parts : List Typed} (leveled : ∀ part ∈ parts, Leveled n part) :
    Expr.levelList n (parts.map Typed.expr) = some (supAll (parts.map Typed.level)) := by
  induction parts with
  | nil => rfl
  | cons first rest ih =>
    rw [map_cons, Expr.levelList, (leveled first mem_cons_self).level,
      ih fun x mem => leveled x (mem_cons_of_mem _ mem)]
    rfl

theorem build_leveled {e : Expr} (leveled : ∀ part ∈ parts, Leveled n part) (operation : e.isOperation = true)
    (same : e.parts = parts.map Typed.expr) (type : AtomicType) : Own (Typed.build e type parts) (Leveled n) := by
  have level : e.level? n = some (supAll (parts.map Typed.level)) := by
    rw [Expr.level?_operation operation, same, levelList_leveled leveled]
  unfold Typed.build
  simp only [build_level]
  split
  · rfl
  · refine ⟨level, fun p mem => ?_⟩
    obtain ⟨_, mem, _⟩ | ⟨part, given, q, mem, same⟩ := (has_unions _).mp ⟨p, mem, rfl⟩
    · cases mem
    · exact same ▸ (leveled part (mem_filter.mp given).1).reads q mem

theorem conjunction_level {condition : Expr} {conditions : List Expr}
    (scalar : ∀ e ∈ conditions, e.level? n = some .scalar) (h : Expr.conjunction? conditions = some condition) :
    condition.level? n = some .scalar := by
  have folded : ∀ (rest : List Expr) (e : Expr), e.level? n = some .scalar →
      (∀ x ∈ rest, x.level? n = some .scalar) → (rest.foldl Expr.and e).level? n = some .scalar := by
    intro rest
    induction rest with
    | nil => exact fun e here _ => here
    | cons x rest ih =>
      intro e here all
      refine ih _ ?_ fun y mem => all y (mem_cons_of_mem _ mem)
      rw [Expr.and, Expr.level?, here, all x mem_cons_self]
      rfl
  cases conditions with
  | nil => cases h
  | cons e rest =>
    cases h
    exact folded rest e (scalar e mem_cons_self) fun x mem => scalar x (mem_cons_of_mem _ mem)

theorem scalar_of_not {t : Typed} (h : t.isAggregate = false) : t.level = .scalar := by
  cases hl : t.level
  · rfl
  · simp [Typed.isAggregate, Level.isAggregate, hl] at h

theorem aggregate_of {t : Typed} (h : t.isAggregate = true) : t.level = .aggregate := by
  cases hl : t.level
  · simp [Typed.isAggregate, Level.isAggregate, hl] at h
  · rfl

theorem filtered_leveled {t : Typed} {conditions : List Typed} (leveled : Leveled n t)
    (aggregate : t.isAggregate = true) (scalars : ∀ e ∈ conditions, Leveled n e ∧ e.isAggregate = false) :
    Leveled n (t.filtered conditions) := by
  unfold Typed.filtered
  split
  · exact leveled
  · next condition h =>
    have level := leveled.level
    have scalar : condition.level? n = some .scalar := by
      refine conjunction_level ?_ h
      intro e mem
      obtain ⟨x, given, rfl⟩ := mem_map.mp mem
      rw [(scalars x given).1.level, scalar_of_not (scalars x given).2]
    exact ⟨by simp [Expr.level?, level, scalar, aggregate_of aggregate], leveled.reads⟩

theorem aggregate_leveled (scalars : ∀ a ∈ arg, Leveled n a ∧ a.isAggregate = false)
    (argued : arg.isSome = true ∨ function = .count) (joined : n.joins path = true) :
    Leveled n (.aggregate function path arg type) := by
  refine ⟨?_, by simp [Typed.aggregate]⟩
  have scalar : Expr.levelOption n (arg.map Typed.expr) = some .scalar := by
    cases arg with
    | none => rfl
    | some a =>
      have leveled := scalars a rfl
      rw [Option.map_some, Expr.levelOption, leveled.1.level, scalar_of_not leveled.2]
  rcases argued with argued | argued <;>
    simp [Typed.aggregate, Expr.level?, joined, scalar, argued]

theorem ungroup_leveled {t : Typed} (leveled : Leveled n t) (kind : UngroupKind) (fields : List String) :
    Own (Typed.ungroup kind fields t) (Leveled n) := by
  unfold Typed.ungroup
  split
  · rfl
  · next aggregate =>
    split
    · rfl
    · have aggregate : t.isAggregate = true := by simpa using aggregate
      have level := leveled.level
      exact ⟨by simp [Expr.level?, level, aggregate_of aggregate], leveled.reads⟩

theorem locality_joined (base : n.joins [] = true) (joined : ∀ p ∈ reads, n.joins p.1 = true) :
    Own (Typed.locality reads) fun path => n.joins path = true := by
  have longest : ∀ (rest : Reads) (best : List String), n.joins best = true →
      (∀ p ∈ rest, n.joins p.1 = true) →
      n.joins (rest.foldl (fun best p => if best.length ≤ p.1.length then p.1 else best) best) = true := by
    intro rest
    induction rest with
    | nil => exact fun best here _ => here
    | cons first rest ih =>
      intro best here all
      refine ih _ ?_ fun p mem => all p (mem_cons_of_mem _ mem)
      simp only
      split
      · exact all first mem_cons_self
      · exact here
  unfold Typed.locality
  cases reads with
  | nil => exact base
  | cons first rest =>
    simp only [Reads.deepest?]
    split
    · rfl
    · exact longest rest first.1 (joined first mem_cons_self) fun p mem => joined p (mem_cons_of_mem _ mem)

section Reading

def PlacedIn (root : Namespace) (place : Place) : Prop := root.within? place.path = some place.owner

def Joined (root : Namespace) (reads : Reads) : Prop := ∀ p ∈ reads, (root.within? p.1).isSome = true

theorem joined_add (joined : Joined root reads) (within : (root.within? path).isSome = true) :
    Joined root (reads.add path crosses) := by
  intro p mem
  rcases has_add.mp ⟨p, mem, rfl⟩ with same | ⟨q, mem, same⟩
  · exact same ▸ within
  · exact same ▸ joined q mem

variable {follow : Place → Expr → Reads → Reads} {place : Place}

theorem collectReadsList_eq (es : List Expr) (reads : Reads) : Expr.collectReadsList follow place es reads =
    es.foldl (fun reads p => p.collectReads follow place reads) reads := by
  induction es generalizing reads with
  | nil => rw [Expr.collectReadsList]; rfl
  | cons e rest ih => rw [Expr.collectReadsList, ih]; rfl

theorem collectReadsOption_eq (e : Option Expr) (reads : Reads) : Expr.collectReadsOption follow place e reads =
    e.toList.foldl (fun reads p => p.collectReads follow place reads) reads := by
  cases e with
  | none => rw [Expr.collectReadsOption]; rfl
  | some e => rw [Expr.collectReadsOption]; rfl

theorem collectReadsArms_eq (arms : List (Expr × Expr)) (reads : Reads) :
    Expr.collectReadsArms follow place arms reads = (arms.flatMap fun arm => [arm.1, arm.2]).foldl
      (fun reads p => p.collectReads follow place reads) reads := by
  induction arms generalizing reads with
  | nil => rw [Expr.collectReadsArms]; rfl
  | cons arm rest ih => rw [Expr.collectReadsArms, ih]; rfl

theorem collectReads_parts {e : Expr} (operator : e.isName = false) (reads : Reads) :
    e.collectReads follow place reads = e.parts.foldl (fun reads p => p.collectReads follow place reads) reads := by
  cases e with
  | column | field => cases operator
  | literal | now => rw [Expr.collectReads]; rfl
  | choose arms otherwise =>
    rw [Expr.collectReads, Expr.parts, foldl_append, collectReadsArms_eq, collectReadsOption_eq]
  | isIn a values negated => rw [Expr.collectReads, Expr.parts, foldl_cons, collectReadsList_eq]
  | call function args => rw [Expr.collectReads, Expr.parts, collectReadsList_eq]
  | aggregate function locality arg => rw [Expr.collectReads, Expr.parts, collectReadsOption_eq]
  | _ => rw [Expr.collectReads]; rfl

theorem collectReads_keeps {P : Reads → Prop} (adds : ∀ {reads}, P reads → P (reads.add place.path place.crosses))
    (follows : ∀ {path r f reads}, place.owner.resolveDefined path = .ok r ∧ r.field = .dimension f → P reads →
      P (follow ⟨r.owner, place.path ++ r.joinPath, place.crosses || r.relationships.any JoinKind.isMany⟩ f.expr reads))
    (e : Expr) (holds : P reads) : P (e.collectReads follow place reads) := by
  induction e using Expr.parts_induction generalizing reads with
  | step e ih =>
    by_cases named : e.isName = true
    · cases e with
      | column name =>
        exact adds holds
      | field path =>
        rw [Expr.collectReads]
        split
        · next resolved => exact follows ⟨resolved, rfl⟩ holds
        · exact holds
      | _ => cases named
    · rw [collectReads_parts (by simpa using named)]
      exact List.foldlRecOn e.parts _ holds fun _ holds part mem => ih part mem holds

/-- What is kept at every place that the definitions of an expression lead to, is kept by all that it reads. -/
theorem reads_keeps {P : Reads → Prop} {Q : Place → Prop} (none : P [])
    (adds : ∀ {place reads}, Q place → P reads → P (reads.add place.path place.crosses))
    (follows : ∀ {place : Place} {path r}, Q place → place.owner.resolveDefined path = .ok r →
      Q ⟨r.owner, place.path ++ r.joinPath, place.crosses || r.crossesMany⟩)
    (here : Q place) (e : Expr) : P (e.reads place) := by
  have within : ∀ depth place e reads, Q place → P reads → P (Expr.readsWithin depth place e reads) := by
    intro depth
    induction depth with
    | zero => exact fun _ _ _ _ holds => holds
    | succ depth ih =>
      intro place e reads here holds
      exact collectReads_keeps (P := P) (adds here) (fun resolved holds => ih _ _ _ (follows here resolved.1) holds) e holds
  exact within _ place e [] here none

theorem placed_resolved {root : Namespace} {place : Place} (placed : PlacedIn root place)
    (resolved : place.owner.resolveDefined path = .ok r) : root.within? (place.path ++ r.joinPath) = some r.owner := by
  obtain ⟨last, _, within, _⟩ := Namespace.resolved_spec resolved
  rw [Namespace.within?_append, placed]
  exact within

theorem reads_joined {root : Namespace} (place : Place) (placed : PlacedIn root place) (e : Expr) :
    Joined root (e.reads place) := by
  refine reads_keeps (forall_mem_nil _) (fun placed joined => joined_add joined ?_)
    placed_resolved placed e
  rw [placed]
  rfl

end Reading

def shapeLevel? : Shape → Option Level
  | .dimension => some .scalar
  | .measure => some .aggregate
  | _ => none

/-- A reference whose expression has the level of what it refers to. -/
structure Refers (n : Names) (path : List String) (r : Reference) : Prop where
  level : ∀ l, shapeLevel? r.shape = some l → (r.inline.getD (.field path)).level? n = some l
  paths : ∀ p ∈ r.paths, n.joins p.1 = true
  joined : ∀ source, r.shape = .join source → n.joins path = true

def shapeOf : FieldDef → Shape
  | .dimension _ => .dimension
  | .measure _ => .measure
  | .join j => .join j.source
  | .view v => .view v
  | .nested _ _ => .nestedResult

theorem refer_found (h : ns.refer path = .ok r) :
    ∃ last owner field, path = r.joinPath ++ [last] ∧ ns.within? r.joinPath = some owner ∧
      owner.lookup? last = some field ∧ r.shape = shapeOf field ∧ r.inline = none := by
  obtain ⟨⟨joinPath, relationships, owner, f⟩, hr, h⟩ := bind_eq_ok h
  obtain ⟨last, split, within, field, _⟩ := Namespace.resolved_spec (Namespace.resolveDefined_of_resolve hr)
  refine ⟨last, owner, f, ?_⟩
  cases f <;> cases h <;> exact ⟨split, within, field, rfl, rfl⟩

theorem refer_refers (h : ns.refer path = .ok r) : Refers (Names.of ns) path r := by
  obtain ⟨⟨joinPath, relationships, owner, f⟩, hr, shape⟩ := bind_eq_ok h
  obtain ⟨last, rfl, within, field, _⟩ := Namespace.resolved_spec (Namespace.resolveDefined_of_resolve hr)
  have level : (Names.of ns).level (joinPath ++ [last]) = f.level? := by
    show (ns.field? _).bind _ = _
    rw [Namespace.field?_snoc, within]
    simp [field]
  have alone : ∀ p ∈ ([(joinPath, relationships.any JoinKind.isMany)] : Reads),
      (Names.of ns).joins p.1 = true := by
    intro p mem
    cases mem_singleton.mp mem
    show (ns.within? _).isSome = true
    rw [within]
    rfl
  cases f with
  | dimension f =>
    cases shape
    refine ⟨fun l hl => by rw [← hl]; exact level, ?_, fun _ is => by cases is⟩
    intro p mem
    simp only [Reference.paths] at mem
    split at mem
    · exact alone p mem
    · exact reads_joined ⟨owner, joinPath, _⟩ within f.expr p mem
  | measure f =>
    cases shape
    exact ⟨fun l hl => by rw [← hl]; exact level, alone, fun _ is => by cases is⟩
  | join j =>
    cases shape
    refine ⟨(fun _ is => by cases is), alone, fun source _ => ?_⟩
    exact Option.isSome_of_eq_some (Namespace.within?_join within field)
  | view _ | nested _ _ =>
    cases shape
    exact ⟨(fun _ is => by cases is), alone, fun _ is => by cases is⟩

theorem refer_join {source : Source} (h : ns.refer path = .ok r) (shape : r.shape = .join source) :
    ns.within? path = some source.fields := by
  obtain ⟨last, owner, field, rfl, within, found, same, _⟩ := refer_found h
  rw [shape] at same
  cases field <;> cases same
  exact Namespace.within?_join within found

theorem refer_dimension (h : ns.refer path = .ok r) (shape : r.shape = .dimension) :
    (Names.of ns).level path = some .scalar := by
  obtain ⟨_, _, _, _, _, _, _, inline⟩ := refer_found h
  have level := (refer_refers h).level .scalar (by rw [shape]; rfl)
  rw [inline, Option.getD_none] at level
  exact level

theorem ofReference_leveled (refers : Refers n path r) (text : String) :
    Own (Typed.ofReference path text r) (Leveled n) := by
  unfold Typed.ofReference
  cases hs : r.shape
  case dimension => exact ⟨refers.level .scalar (by rw [hs]; rfl), refers.paths⟩
  case measure => exact ⟨refers.level .aggregate (by rw [hs]; rfl), by simp⟩
  all_goals rfl

/-- Levels are right. The names that fields are found under may become more as the state grows. -/
def levels {σ : Type} {Grows : σ → σ → Prop} (level : σ → List String → Option Level)
    (joins : List String → Bool) (columns : String → Bool) (base : joins [] = true)
    (grow : ∀ {s t path l}, Grows s t → level s path = some l → level t path = some l) :
    Judgement Grows where
  Good s t := Leveled ⟨level s, joins, columns⟩ t
  Refers s := Refers ⟨level s, joins, columns⟩
  Reaches path := joins path = true
  stable {s t _} grows good :=
    have le : (⟨level s, joins, columns⟩ : Names) ≤ ⟨level t, joins, columns⟩ :=
      ⟨fun _ _ h => grow grows h, fun _ h => h, fun _ h => h⟩
    leveled_mono le good
  literal s l := ⟨by rw [Typed.ofLiteral, Typed.scalar, Expr.level?], by simp [Typed.ofLiteral, Typed.scalar]⟩
  now s := ⟨by rw [Typed.scalar, Expr.level?], by simp [Typed.scalar]⟩
  reference refers := ofReference_leveled refers
  joined refers h := refers.joined _ h
  deepest good := locality_joined base good.reads
  base := base
  wrap good operation part := ⟨by
    rw [Expr.level?_operation operation, part, Expr.levelList, Expr.levelList, Expr.both_scalar]
    exact good.level, good.reads⟩
  build goods operation same := build_leveled goods operation same
  aggregate scalars argued joined := aggregate_leveled scalars argued joined
  filtered good aggregate scalars := filtered_leveled good aggregate scalars
  ungroup good := ungroup_leveled good

end SemanticLayer.Elaborate
