import SemanticLayer.Proofs.Plan.Reading

/-!
Which rows of joined relations decide the value of an expression. Joined rows agree only as far as the
relationships of joins promise: a row has one row at most behind a `one` join, and a row behind a `many` join is
that of one row only. So a row decides just what is reached from it by going back along `many` joins and then on
along `one` joins.
-/
namespace SemanticLayer

open List

/-- A row of joined relations: the rows of the relations, by the paths of joins that lead to them. Where no row
was found, none is found further on. -/
structure JoinedRow (R : Type) where
  at? : List String → Option R
  parent : ∀ {place : List String} {name : String},
    (at? (place ++ [name])).isSome = true → (at? place).isSome = true

namespace Namespace

/-- What the relationships of joins promise of two joined rows. -/
structure Promise {R : Type} (ns : Namespace) (a b : JoinedRow R) : Prop where
  one : ∀ {place : List String} {parent : Namespace} {name : String} {j : Join}, ns.within? place = some parent →
    parent.lookup? name = some (.join j) → j.relationship = .one →
    a.at? place = b.at? place → a.at? (place ++ [name]) = b.at? (place ++ [name])
  many : ∀ {place : List String} {parent : Namespace} {name : String} {j : Join}, ns.within? place = some parent →
    parent.lookup? name = some (.join j) → j.relationship = .many →
    ∀ r, a.at? (place ++ [name]) = some r → b.at? (place ++ [name]) = some r → a.at? place = b.at? place

def joinsAll (kind : JoinKind) : Namespace → List String → Bool
  | _, [] => true
  | ns, name :: rest =>
    match ns.lookup? name with
    | some (.join j) => j.relationship == kind && joinsAll kind j.source.fields rest
    | _ => false

/-- Whether the row on a path decides that on another one: from where the two part, the joins back are `many`, and
those on are `one`. -/
def determines : Namespace → List String → List String → Bool
  | ns, name :: locality, other :: path =>
    if name = other then
      match ns.lookup? name with
      | some (.join j) => determines j.source.fields locality path
      | _ => false
    else joinsAll .many ns (name :: locality) && joinsAll .one ns (other :: path)
  | ns, locality, path => joinsAll .many ns locality && joinsAll .one ns path

section Joins

variable {ns parent : Namespace} {name : String} {rest place locality path : List String} {kind : JoinKind} {j : Join}

theorem joinsAll_cons : joinsAll kind ns (name :: rest) = true ↔
    ∃ j, ns.lookup? name = some (.join j) ∧ j.relationship = kind ∧ joinsAll kind j.source.fields rest = true := by
  rw [joinsAll]
  split
  · next j found => simp [found]
  · next other =>
    simp only [Bool.false_eq_true, false_iff]
    rintro ⟨j, found, _⟩
    exact other j found

theorem joinsAll_single (found : ns.lookup? name = some (.join j)) :
    joinsAll kind ns [name] = true ↔ j.relationship = kind := by
  simp [found, joinsAll]

theorem joinsAll_snoc (within : ns.within? place = some parent) (found : parent.lookup? name = some (.join j)) :
    joinsAll kind ns (place ++ [name]) = true ↔ joinsAll kind ns place = true ∧ j.relationship = kind := by
  induction place generalizing ns with
  | nil =>
    cases within
    rw [nil_append, joinsAll_single found]
    simp [joinsAll]
  | cons first place ih =>
    obtain ⟨k, here, there⟩ := within?_cons_inv within
    rw [cons_append, joinsAll_cons, joinsAll_cons]
    simp only [here, Option.some.injEq, FieldDef.join.injEq, exists_eq_left', ih there]
    exact and_assoc.symm

theorem determines_nil : determines ns locality [] = joinsAll .many ns locality := by
  cases locality <;> simp [determines, joinsAll]

theorem nil_determines : determines ns [] path = joinsAll .one ns path := by
  cases path <;> simp [determines, joinsAll]

theorem determines_same (found : ns.lookup? name = some (.join j)) :
    determines ns (name :: locality) (name :: path) = determines j.source.fields locality path := by
  rw [determines, if_pos rfl, found]

theorem determines_other (different : name ≠ other) :
    determines ns (name :: locality) (other :: path) =
      (joinsAll .many ns (name :: locality) && joinsAll .one ns (other :: path)) := by
  rw [determines, if_neg different]

theorem determines_self (within : ns.within? place = some parent) : determines ns place place = true := by
  induction place generalizing ns with
  | nil => rfl
  | cons first place ih =>
    obtain ⟨k, here, there⟩ := within?_cons_inv within
    rw [determines_same here]
    exact ih there

/-- What is decided, decides the row behind a `one` join. -/
theorem determines_one (within : ns.within? place = some parent) (found : parent.lookup? name = some (.join j))
    (one : j.relationship = .one) (here : determines ns locality place = true) :
    determines ns locality (place ++ [name]) = true := by
  induction place generalizing ns locality with
  | nil =>
    cases within
    rw [determines_nil] at here
    cases locality with
    | nil => rw [nil_determines]; exact (joinsAll_single found).mpr one
    | cons first locality =>
      have different : first ≠ name := by
        rintro rfl
        obtain ⟨k, found', many, _⟩ := joinsAll_cons.mp here
        cases found.symm.trans found'
        cases one.symm.trans many
      rw [nil_append, determines_other different, here]
      exact (joinsAll_single found).mpr one
  | cons next place ih =>
    cases locality with
    | nil =>
      exact (joinsAll_snoc within found).mpr ⟨here, one⟩
    | cons first locality =>
      by_cases same : first = next
      · subst same
        obtain ⟨k, isJoin, there⟩ := within?_cons_inv within
        rw [determines_same isJoin] at here
        rw [cons_append, determines_same isJoin]
        exact ih there here
      · rw [determines_other same, Bool.and_eq_true] at here
        rw [cons_append, determines_other same, Bool.and_eq_true]
        exact ⟨here.1, (joinsAll_snoc within found).mpr ⟨here.2, one⟩⟩

/-- What is decided behind a `many` join, decides the row before it. -/
theorem determines_many (within : ns.within? place = some parent) (found : parent.lookup? name = some (.join j))
    (many : j.relationship = .many) (here : determines ns locality (place ++ [name]) = true) :
    determines ns locality place = true := by
  induction place generalizing ns locality with
  | nil =>
    cases within
    rw [determines_nil]
    rw [nil_append] at here
    cases locality with
    | nil =>
      cases many.symm.trans ((joinsAll_single found).mp here)
    | cons first locality =>
      by_cases same : first = name
      · subst same
        rw [determines_same found, determines_nil] at here
        exact joinsAll_cons.mpr ⟨j, found, many, here⟩
      · rw [determines_other same, Bool.and_eq_true] at here
        exact here.1
  | cons next place ih =>
    cases locality with
    | nil =>
      exact ((joinsAll_snoc within found).mp here).1
    | cons first locality =>
      by_cases same : first = next
      · subst same
        obtain ⟨k, isJoin, there⟩ := within?_cons_inv within
        rw [cons_append, determines_same isJoin] at here
        rw [determines_same isJoin]
        exact ih there here
      · rw [cons_append, determines_other same, Bool.and_eq_true] at here
        rw [determines_other same, Bool.and_eq_true]
        exact ⟨here.1, ((joinsAll_snoc within found).mp here.2).1⟩

end Joins

section Promised

variable {R : Type} {ns inner : Namespace} {a b : JoinedRow R} {place path locality : List String} {r : R}

section

variable (promise : ns.Promise a b) (within : ns.within? place = some inner)

include promise within

theorem Promise.back
    (many : joinsAll .many inner path = true) (left : a.at? (place ++ path) = some r)
    (right : b.at? (place ++ path) = some r) : a.at? place = b.at? place ∧ (a.at? place).isSome = true := by
  induction path generalizing place inner with
  | nil =>
    rw [append_nil] at left right
    exact ⟨left.trans right.symm, Option.isSome_of_eq_some left⟩
  | cons name path ih =>
    obtain ⟨j, found, isMany, rest⟩ := joinsAll_cons.mp many
    rw [append_cons] at left right
    obtain ⟨same, present⟩ := ih (within?_join within found) rest left right
    obtain ⟨x, isRow⟩ := Option.isSome_iff_exists.mp present
    exact ⟨promise.many within found isMany x isRow (same ▸ isRow), a.parent present⟩

theorem Promise.on
    (one : joinsAll .one inner path = true) (same : a.at? place = b.at? place) :
    a.at? (place ++ path) = b.at? (place ++ path) := by
  induction path generalizing place inner with
  | nil => rwa [append_nil]
  | cons name path ih =>
    obtain ⟨j, found, isOne, rest⟩ := joinsAll_cons.mp one
    rw [append_cons]
    exact ih (within?_join within found) rest (promise.one within found isOne same)

theorem Promise.determined
    (determined : determines inner locality path = true) (left : a.at? (place ++ locality) = some r)
    (right : b.at? (place ++ locality) = some r) : a.at? (place ++ path) = b.at? (place ++ path) := by
  induction locality generalizing place inner path with
  | nil =>
    rw [append_nil] at left right
    exact promise.on within determined (left.trans right.symm)
  | cons first locality ih =>
    cases path with
    | nil =>
      rw [determines_nil] at determined
      rw [append_nil]
      exact (promise.back within determined left right).1
    | cons next path =>
      by_cases same : first = next
      · subst same
        rw [determines, if_pos rfl] at determined
        split at determined
        · next j found =>
          rw [append_cons] at left right ⊢
          exact ih (within?_join within found) determined left right
        · cases determined
      · rw [determines_other same, Bool.and_eq_true] at determined
        exact promise.on within determined.2 (promise.back within determined.1 left right).1

end

/-- Two rows that differ wherever a path does not decide. -/
def apart (ns : Namespace) (locality : List String) (side : Bool) : JoinedRow Bool where
  at? path := some (side && !determines ns locality path)
  parent := fun _ => rfl

theorem apart_eq : (apart ns locality false).at? path = (apart ns locality true).at? path ↔
    determines ns locality path = true := by
  simp [apart]

theorem apart_promise (ns : Namespace) (locality : List String) :
    ns.Promise (apart ns locality false) (apart ns locality true) where
  one within found one same := apart_eq.mpr (determines_one within found one (apart_eq.mp same))
  many within found many _ left right :=
    apart_eq.mpr (determines_many within found many (apart_eq.mp (left.trans right.symm)))

end Promised

end Namespace

structure Operations (R V : Type) where
  column : Option R → String → V
  node : Expr → List V → V

namespace Expr

/-- The value of an expression on a joined row. A column is read from the row of the relation that the expression
stands at, and a field has the value of its definition. -/
inductive Evaluates {R V : Type} (O : Operations R V) (row : JoinedRow R) :
    List String → Namespace → Expr → V → Prop where
  | column :
      Evaluates O row place ns (.column name) (O.column (row.at? place) name)
  | field {place path joins : List String} {ns owner : Namespace} {d : Expr} {v : V}
      (defined : Plan.definitionOf ns path = .ok (joins, owner, d))
      (value : Evaluates O row (place ++ joins) owner d v) : Evaluates O row place ns (.field path) v
  | node {place : List String} {ns : Namespace} {e : Expr} {vs : List V} (operator : e.isName = false)
      (length : vs.length = e.parts.length)
      (values : ∀ (i : Nat) (p : Expr) (v : V), e.parts[i]? = some p → vs[i]? = some v → Evaluates O row place ns p v) :
      Evaluates O row place ns e (O.node e vs)

/-- The nodes that an expression comes to, each with the namespace that it stands in. -/
inductive ComesTo : Namespace → Expr → Namespace → Expr → Prop where
  | here : ComesTo ns e ns e
  | part {ns owner : Namespace} {p e x : Expr} (mem : p ∈ e.parts) (inner : ComesTo ns p owner x) :
      ComesTo ns e owner x
  | field {ns inside owner : Namespace} {path joins : List String} {d x : Expr}
      (defined : Plan.definitionOf ns path = .ok (joins, inside, d)) (inner : ComesTo inside d owner x) :
      ComesTo ns (.field path) owner x

/-- The row on a path decides the value of an expression: joined rows with the same row there have one and the
same value. -/
def DeterminedBy (ns : Namespace) (locality : List String) (e : Expr) : Prop :=
  ∀ (R V : Type) (O : Operations R V) (a b : JoinedRow R), ns.Promise a b →
    ∀ r, a.at? locality = some r → b.at? locality = some r →
      ∃ v, (∀ w, e.Evaluates O a [] ns w ↔ w = v) ∧ ∀ w, e.Evaluates O b [] ns w ↔ w = v

section Values

variable {R V : Type} {O : Operations R V} {row a b : JoinedRow R} {place path : List String} {ns : Namespace}
  {e : Expr} {column : String}

theorem Evaluates.unique {v w : V} (first : e.Evaluates O row place ns v) (second : e.Evaluates O row place ns w) :
    v = w := by
  induction first generalizing w with
  | column =>
    cases second with
    | column => rfl
    | node operator => cases operator
  | field defined _ ih =>
    cases second with
    | field defined' value =>
      cases defined.symm.trans defined'
      exact ih value
    | node operator => cases operator
  | @node place ns e vs operator length values ih =>
    cases second with
    | column => cases operator
    | field => cases operator
    | @node _ _ _ ws _ length' values' =>
      have same : vs = ws := by
        refine ext_getElem (length.trans length'.symm) fun i small small' => ?_
        have part : e.parts[i]? = some e.parts[i] := List.getElem?_eq_getElem (length ▸ small)
        exact ih i _ _ part (List.getElem?_eq_getElem small) (values' i _ _ part (List.getElem?_eq_getElem small'))
      rw [same]

theorem Evaluates.congr {v : V} (value : e.Evaluates O a place ns v)
    (agree : ∀ path column, e.Mentions ns path column → a.at? (place ++ path) = b.at? (place ++ path)) :
    e.Evaluates O b place ns v := by
  induction value with
  | column =>
    have here := agree [] _ .column
    rw [append_nil] at here
    rw [here]
    exact .column
  | field defined _ ih =>
    refine .field defined (ih fun path column mentions => ?_)
    rw [List.append_assoc]
    exact agree _ column (.field defined mentions)
  | node operator length _ ih =>
    refine .node operator length fun i p v isPart isValue => ih i p v isPart isValue fun path column mentions => ?_
    exact agree path column (.part (mem_of_getElem? isPart) mentions)

theorem values_exist {P : Expr → V → Prop} {ps : List Expr} (each : ∀ p ∈ ps, ∃ v, P p v) :
    ∃ vs : List V, vs.length = ps.length ∧
      ∀ (i : Nat) (p : Expr) (v : V), ps[i]? = some p → vs[i]? = some v → P p v := by
  induction ps with
  | nil => exact ⟨[], rfl, by simp⟩
  | cons first rest ih =>
    obtain ⟨⟨v, value⟩, others⟩ := forall_mem_cons.mp each
    obtain ⟨vs, length, values⟩ := ih others
    refine ⟨v :: vs, by simp [length], fun i p w isPart isValue => ?_⟩
    cases i with
    | zero =>
      cases isPart
      cases isValue
      exact value
    | succ i => exact values i p w isPart isValue

theorem evaluates_exists {l : Level} (sound : FieldsSound ns) (level : e.level? (Names.of ns) = some l)
    (O : Operations R V) (row : JoinedRow R) (place : List String) : ∃ v, e.Evaluates O row place ns v := by
  refine follow_bound (K := 0) (S := fun _ place ns e => ∃ v, e.Evaluates O row place ns v) ?_ ns.size rfl sound level
    place (Nat.le_refl _)
  intro _ place ns e l sound level _ follows
  -- references inside of the expression are followed; its other parts are smaller
  have parts : ∀ x : Expr, (∀ test, x.any test = true → e.any test = true) → (∃ l, x.level? (Names.of ns) = some l) →
      ∃ v, x.Evaluates O row place ns v := by
    intro x
    induction x using parts_induction with
    | step x ih =>
      rintro inside ⟨l, level⟩
      by_cases named : x.isName = true
      · cases x with
        | column name => exact ⟨_, .column⟩
        | field path =>
          obtain ⟨joins, _, owner, d, _, _, _, defined, _⟩ := sound.definition level
          obtain ⟨v, value⟩ := follows (inside _ (field_refersTo path)) defined
          exact ⟨v, .field defined value⟩
        | _ => cases named
      · obtain ⟨vs, length, values⟩ := values_exist fun p mem =>
          ih p mem (fun test holds => inside test (any_part mem holds))
            ((level_parts level p mem).imp fun _ found => found.1)
        exact ⟨_, .node (by simpa using named) length values⟩
  exact parts e (fun _ => id) ⟨l, level⟩

end Values

inductive Tree where
  | leaf (row : Option Bool)
  | node (parts : List Tree)

def freely : Operations Bool Tree := ⟨fun row _ => .leaf row, fun _ => .node⟩

variable {e : Expr}

theorem Mentions.differ {column : String} (mentions : e.Mentions ns path column)
    (different : a.at? (place ++ path) ≠ b.at? (place ++ path)) (left : e.Evaluates freely a place ns v) :
    ¬e.Evaluates freely b place ns v := by
  intro right
  induction mentions generalizing place v with
  | column =>
    rw [append_nil] at different
    cases left with
    | node operator => cases operator
    | column =>
      generalize same : freely.column (a.at? place) _ = v at right
      cases right with
      | column => exact different (Tree.leaf.inj same)
      | node operator => cases operator
  | field defined _ ih =>
    rw [← List.append_assoc] at different
    cases left with
    | node operator => cases operator
    | field defined' left =>
      cases defined.symm.trans defined'
      cases right with
      | node operator => cases operator
      | field defined' right =>
        cases defined.symm.trans defined'
        exact ih different left right
  | @part ns p e rest name mem _ ih =>
    obtain ⟨i, small, rfl⟩ := getElem_of_mem mem
    have isPart : e.parts[i]? = some e.parts[i] := List.getElem?_eq_getElem small
    cases left with
    | column => cases mem
    | field => cases mem
    | @node _ _ _ vs _ length values =>
      generalize same : freely.node e vs = v at right
      cases right with
      | column => cases mem
      | field => cases mem
      | @node _ _ _ ws _ length' values' =>
        cases Tree.node.inj same
        have isValue : vs[i]? = some vs[i] := List.getElem?_eq_getElem (length ▸ small)
        exact ih different (values i _ _ isPart isValue) (values' i _ _ isPart isValue)

theorem ComesTo.leveled (comes : e.ComesTo ns owner x) (sound : FieldsSound ns)
    (level : e.level? (Names.of ns) = some l) : FieldsSound owner ∧ ∃ l, x.level? (Names.of owner) = some l := by
  induction comes generalizing l with
  | here => exact ⟨sound, l, level⟩
  | part mem _ ih =>
    obtain ⟨_, level, _⟩ := level_parts level _ mem
    exact ih sound level
  | field defined _ ih =>
    obtain ⟨_, _, _, _, _, _, sound', defined', level⟩ := sound.definition level
    cases defined.symm.trans defined'
    exact ih sound' level

/-- The row on a path decides the value of an expression just if it decides the rows of all columns that the
expression comes to. -/
theorem determinedBy_iff (sound : FieldsSound ns) (level : e.level? (Names.of ns) = some l)
    (joined : (ns.within? locality).isSome = true) :
    e.DeterminedBy ns locality ↔
      ∀ path column, e.Mentions ns path column → ns.determines locality path = true := by
  constructor
  · intro determined path column mentions
    by_contra undetermined
    obtain ⟨inner, within⟩ := Option.isSome_iff_exists.mp joined
    have self := Namespace.determines_self within
    obtain ⟨v, left, right⟩ := determined Bool Tree freely _ _ (Namespace.apart_promise ns locality) false
      (by simp [Namespace.apart]) (by simp [Namespace.apart, self])
    refine mentions.differ ?_ ((left v).mpr rfl) ((right v).mpr rfl)
    exact fun same => undetermined (Namespace.apart_eq.mp same)
  · intro determined R V O a b promise r left right
    obtain ⟨v, value⟩ := evaluates_exists sound level O a []
    have value' : e.Evaluates O b [] ns v := value.congr fun path column mentions =>
      promise.determined rfl (determined path column mentions) left right
    refine ⟨v, fun w => ⟨fun other => other.unique value, fun same => same ▸ value⟩,
      fun w => ⟨fun other => other.unique value', fun same => same ▸ value'⟩⟩

end Expr

end SemanticLayer
