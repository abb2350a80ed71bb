import Mathlib.Data.List.Perm.Subperm
import SemanticLayer.Plan.Index
import SemanticLayer.Proofs.Model.Sound

/-!
What an expression leads to. A definition names fields, whose definitions name others, and reading a field
behind joins brings in the conditions of the joins and the filters of the joined sources. In sound fields
such a chain of definitions is no longer than the number of fields.
-/
namespace SemanticLayer

open List

namespace Expr

def isFieldAt (path : List String) : Expr → Bool
  | .field p => p == path
  | _ => false

def isAggregateAt (path : List String) : Expr → Bool
  | .aggregate _ locality _ => locality == path
  | _ => false

def isBare : Expr → Bool
  | .aggregate function _ none => function != .count
  | _ => false

def refersTo (path : List String) (e : Expr) : Bool := e.any (isFieldAt path)

def computesAt (path : List String) (e : Expr) : Bool := e.any (isAggregateAt path)

theorem field_refersTo (path : List String) : (Expr.field path).refersTo path = true := by
  simp [refersTo, any, isFieldAt]

theorem aggregate_computesAt (function : AggregateFunction) (locality : List String) (arg : Option Expr) :
    (Expr.aggregate function locality arg).computesAt locality = true := by
  simp [computesAt, any, isAggregateAt]

def ReadsAt (path : List String) (e : Expr) : Prop :=
  (∃ name, e.refersTo (path ++ [name]) = true) ∨ e.computesAt path = true

def HasPart (test : Expr → Bool) (n : Names) (l : Level) : Prop :=
  ∃ part l', test part = true ∧ part.level? n = some l' ∧ (l = .scalar → l' = .scalar)

section Parts

variable {n : Names} {test : Expr → Bool}

theorem any_level (e : Expr) (level : e.level? n = some l) (holds : e.any test = true) : HasPart test n l := by
  induction e using parts_induction generalizing l with
  | step e ih =>
    rw [any_parts, Bool.or_eq_true, any_eq_true] at holds
    rcases holds with here | ⟨p, mem, inside⟩
    · exact ⟨e, l, here, level, id⟩
    · obtain ⟨l', level, scalar⟩ := level_parts level p mem
      obtain ⟨x, k, tested, level, scalar'⟩ := ih p mem level inside
      exact ⟨x, k, tested, level, fun whole => scalar' (scalar whole)⟩

end Parts

variable {n : Names} {e : Expr} {l : Level}

theorem refers_level (level : e.level? n = some l) (refers : e.refersTo path = true) :
    ∃ l', n.level path = some l' ∧ (l = .scalar → l' = .scalar) := by
  obtain ⟨part, l', tested, level, scalar⟩ := any_level e level refers
  cases part with
  | field p =>
    have same : p = path := by simpa [isFieldAt] using tested
    rw [same] at level
    exact ⟨l', level, scalar⟩
  | _ => cases tested

/-- Aggregates are computed at joins, and nowhere in a scalar expression. -/
theorem computes_level (level : e.level? n = some l) (computes : e.computesAt path = true) :
    n.joins path = true ∧ l = .aggregate := by
  obtain ⟨part, l', tested, level, scalar⟩ := any_level e level computes
  cases part with
  | aggregate function locality arg =>
    have same : locality = path := by simpa [isAggregateAt] using tested
    obtain ⟨rfl, joined, _, _⟩ := aggregate_level level
    refine ⟨same ▸ joined, ?_⟩
    cases l with
    | scalar => cases scalar rfl
    | aggregate => rfl
  | _ => cases tested

theorem level_complete (level : e.level? n = some l) : e.any isBare = false := by
  cases h : e.any isBare with
  | false => rfl
  | true =>
    obtain ⟨part, l', tested, level, _⟩ := any_level e level h
    cases part with
    | aggregate function locality arg =>
      obtain ⟨_, _, argument, _⟩ := aggregate_level level
      cases arg with
      | none =>
        rcases argument with argument | rfl
        · cases argument
        · cases tested
      | some arg => cases tested
    | _ => cases tested

theorem scalar_plain (level : e.level? n = some .scalar) : e.containsUngroup = false := by
  cases h : e.containsUngroup with
  | false => rfl
  | true =>
    obtain ⟨part, l', tested, level, scalar⟩ := any_level e level h
    cases part with
    | ungroup kind inner fields =>
      obtain ⟨rfl, _⟩ := ungroup_level level
      cases scalar rfl
    | _ => cases tested

end Expr

def joinsSize (entries : List (Slot FieldDef)) : Nat :=
  slotsSize (entries.filter fun slot => slot.field.isJoin)

theorem join_size (j : Join) : (FieldDef.join j).size = Namespace.size j.source.fields + 1 := by
  obtain ⟨_, _, ⟨_, _, ⟨_⟩, _, _, _⟩, _, _⟩ := j
  simp [FieldDef.size, Join.size, Source.size, Namespace.size]

theorem slot_size (mem : slot ∈ entries) : slot.field.size ≤ slotsSize entries := by
  induction entries with
  | nil => cases mem
  | cons first rest ih =>
    rcases mem_cons.mp mem with rfl | mem
    · exact Nat.le_add_right _ _
    · exact Nat.le_trans (ih mem) (Nat.le_add_left _ _)

theorem leveled_size (entries : List (Slot FieldDef)) :
    (entries.filter fun slot => slot.field.level?.isSome).length + joinsSize entries ≤
      slotsSize entries := by
  induction entries with
  | nil => simp [joinsSize]
  | cons first rest ih =>
    obtain ⟨name, field, hidden⟩ := first
    unfold joinsSize at ih ⊢
    have leveled : field.level?.isSome = true → field.isJoin = false ∧ field.size = 1 := by
      cases field <;> simp [FieldDef.level?, FieldDef.isJoin, FieldDef.join?, FieldDef.size]
    rw [slotsSize, filter_cons, filter_cons]
    by_cases isLeveled : field.level?.isSome = true
    · obtain ⟨notJoin, one⟩ := leveled isLeveled
      rw [if_pos isLeveled, if_neg (by simp [notJoin]), length_cons]
      omega
    · rw [if_neg isLeveled]
      by_cases isJoin : field.isJoin = true
      · rw [if_pos isJoin, slotsSize]
        omega
      · rw [if_neg isJoin]
        omega

theorem Ordered.length_le (ordered : Ordered ns order) : order.length + joinsSize ns.entries ≤ ns.size := by
  have subset : order ⊆ (ns.entries.filter fun slot => slot.field.level?.isSome).map Slot.name := by
    intro name mem
    obtain ⟨field, found, defined⟩ := ordered.defined mem
    have leveled : field.level?.isSome = true := by cases defined <;> rfl
    obtain ⟨slot, given, same, rfl⟩ := Slots.slot_of_lookup? found
    exact mem_map.mpr ⟨slot, mem_filter.mpr ⟨given, leveled⟩, same⟩
  have fewer := (subperm_of_subset ordered.nodup subset).length_le
  rw [length_map] at fewer
  exact Nat.le_trans (Nat.add_le_add_right fewer _) (leveled_size ns.entries)

theorem inner_size {ns : Namespace} (found : ns.lookup? name = some (.join j)) :
    Namespace.size j.source.fields + 1 ≤ joinsSize ns.entries := by
  obtain ⟨slot, mem, _, same⟩ := Slots.slot_of_lookup? found
  rw [← join_size, ← same]
  exact slot_size (mem_filter.mpr ⟨mem, by rw [same]; rfl⟩)

theorem joinsSize_le (ns : Namespace) : joinsSize ns.entries ≤ ns.size :=
  Nat.le_trans (Nat.le_add_left _ _) (leveled_size ns.entries)

theorem within_size : ∀ {path : List String} {ns : Namespace},
    ns.within? path = some owner → path ≠ [] → owner.size + 1 ≤ joinsSize ns.entries
  | [], _, _, nonempty => (nonempty rfl).elim
  | name :: rest, ns, h, _ => by
    obtain ⟨join, found, within⟩ := Namespace.within?_cons_inv h
    have first := inner_size found
    cases rest with
    | nil => cases within; exact first
    | cons next rest =>
      have deeper := within_size within (cons_ne_nil next rest)
      have least := joinsSize_le join.source.fields
      omega

theorem within_le {ns : Namespace} (within : ns.within? path = some owner) : owner.size ≤ ns.size := by
  cases path with
  | nil => cases within; exact Nat.le_refl _
  | cons name rest =>
    have fewer := within_size within (cons_ne_nil name rest)
    have least := joinsSize_le ns
    omega

/-- What the definition of a field needs of an order is only what comes before it. -/
theorem Ordered.before (ordered : Ordered ns order) (mem : name ∈ order) :
    ∃ earlier field, Ordered ns earlier ∧ earlier.length < order.length ∧
      ns.lookup? name = some field ∧ field.Defined ((Names.of ns).only earlier) := by
  induction ordered with
  | nil => cases mem
  | @cons own order field earlier fresh found defined ih =>
    rcases mem_cons.mp mem with rfl | mem
    · exact ⟨order, field, earlier, Nat.lt_succ_self _, found, defined⟩
    · obtain ⟨start, field, ordered, shorter, rest⟩ := ih mem
      exact ⟨start, field, ordered, Nat.lt_succ_of_lt shorter, rest⟩

theorem FieldsSound.definition (sound : FieldsSound ns) (level : (Names.of ns).level path = some l) :
    ∃ joins last owner d, path = joins ++ [last] ∧ ns.within? joins = some owner ∧ FieldsSound owner ∧
      Plan.definitionOf ns path = .ok (joins, owner, d) ∧ d.level? (Names.of owner) = some l := by
  obtain ⟨joins, last, owner, field, f, split, within, found, leveled, is, defined⟩ :=
    Namespace.definitionOf_of_level level
  have sound := sound.within within
  refine ⟨joins, last, owner, f.expr, split, within, sound, defined, ?_⟩
  have fits := sound.fits found
  rcases is with rfl | rfl
  · cases leveled
    cases fits with | defined fits => cases fits with | dimension level => exact level
  · cases leveled
    cases fits with | defined fits => cases fits with | measure level => exact level

/-- What holds of an expression once it holds of the definitions that it names. A chain of definitions visits
no field twice, so that a bound on its length is met. -/
theorem follow_bound {S : Nat → List String → Namespace → Expr → Prop}
    (step : ∀ {fuel place ns e l}, FieldsSound ns → e.level? (Names.of ns) = some l → K ≤ fuel →
      (∀ {path joins owner d}, e.refersTo path = true → Plan.definitionOf ns path = .ok (joins, owner, d) →
        S fuel (place ++ joins) owner d) → S (fuel + 1) place ns e) :
    ∀ (size : Nat) {ns : Namespace}, ns.size = size → FieldsSound ns → ∀ {e : Expr} {l : Level},
      e.level? (Names.of ns) = some l → ∀ {fuel : Nat} (place : List String), size + 1 + K ≤ fuel →
      S fuel place ns e := by
  intro size
  induction size using Nat.strongRecOn with
  | ind size smaller =>
    intro ns isSize sound
    -- along an order of definitions, each step goes to an earlier one or behind a join
    have along : ∀ (length : Nat) {order : List String}, order.length = length → Ordered ns order →
        ∀ {e : Expr} {l : Level}, e.level? ((Names.of ns).only order) = some l → ∀ {fuel : Nat}
          (place : List String), length + joinsSize ns.entries + 1 + K ≤ fuel → S fuel place ns e := by
      intro length
      induction length using Nat.strongRecOn with
      | ind length shorter =>
        intro order isLength ordered e l level fuel place enough
        obtain ⟨fuel, rfl⟩ : ∃ k, fuel = k + 1 := ⟨fuel - 1, by omega⟩
        refine step sound (Expr.level?_mono (Names.only_le _ _) _ level) (by omega) ?_
        intro path joins owner d refers defined
        obtain ⟨l', level, _⟩ := Expr.refers_level level refers
        obtain ⟨joins', last, owner', d', rfl, within, sound', defined', level'⟩ :=
          sound.definition ((Names.only_le _ _).1 _ _ level)
        rw [defined] at defined'
        cases defined'
        cases joins with
        | nil =>
          cases within
          have mem : last ∈ order := by
            simp only [Names.only, nil_append] at level
            split at level
            · assumption
            · cases level
          obtain ⟨earlier, field, ordered', fewer, found, fits⟩ := ordered.before mem
          obtain ⟨x, fieldLevel⟩ : ∃ x, d.level? ((Names.of ns).only earlier) = some x := by
            unfold Plan.definitionOf at defined
            simp only [nil_append, Namespace.resolveDefined, Namespace.resolveWith, found] at defined
            cases fits with
            | dimension level => cases defined; exact ⟨_, level⟩
            | measure level => cases defined; exact ⟨_, level⟩
          exact shorter _ (by omega) rfl ordered' fieldLevel _ (by omega)
        | cons name rest =>
          have fewer := within_size within (cons_ne_nil name rest)
          have least := joinsSize_le ns
          exact smaller _ (by omega) rfl sound' level' _ (by omega)
    intro e l level fuel place enough
    cases sound with
    | mk _ ordered _ _ _ =>
      obtain ⟨order, ordered, complete⟩ := ordered
      have fits := ordered.length_le
      exact along order.length rfl ordered (Expr.level?_mono (Namespace.names_le_only complete) _ level)
        place (by omega)

namespace OutputField

def expr? : OutputField → Option Expr
  | .dimension f | .measure f => some f.expr
  | .nest _ => none

def nest? : OutputField → Option Nest
  | .nest n => some n
  | _ => none

end OutputField

namespace Stage

def outputs : Stage → List OutputField
  | .reduce fields _ _ _ | .project fields _ _ => fields
  | .index _ _ _ => []

def exprs : Stage → List Expr
  | .reduce fields having _ r =>
    fields.filterMap OutputField.expr? ++ having.map Filter.expr ++ r.filters.map Filter.expr
  | .project fields _ r => fields.filterMap OutputField.expr? ++ r.filters.map Filter.expr
  | .index fields weight r =>
    fields.map (fun f => .field f.path) ++ [weight.getD Plan.standardWeight] ++ r.filters.map Filter.expr

def nests (stage : Stage) : List Nest := stage.outputs.filterMap OutputField.nest?

end Stage

mutual

/-- The expressions of some stages over a namespace, each with the namespace that it is read in. -/
inductive StagesRead : Namespace → List Stage → Namespace → Expr → Prop where
  | first
      (reads : StageReads ns stage owner e) : StagesRead ns (stage :: rest) owner e
  | later
      (reads : StagesRead (.ofResult stage.outputSchema default) rest owner e) :
      StagesRead ns (stage :: rest) owner e

inductive StageReads : Namespace → Stage → Namespace → Expr → Prop where
  | own {ns : Namespace} {stage : Stage} {e : Expr} (mem : e ∈ stage.exprs) : StageReads ns stage ns e
  | nest {ns owner : Namespace} {stage : Stage} {n : Nest} {e : Expr} (mem : n ∈ stage.nests)
      (reads : StagesRead ns n.stages owner e) : StageReads ns stage owner e

end

mutual

theorem StagesRead.elsewhere (other : Namespace) :
    StagesRead ns stages owner e → ∃ owner, StagesRead other stages owner e
  | .first reads =>
    let ⟨owner, reads⟩ := reads.elsewhere other
    ⟨owner, .first reads⟩
  | .later reads => ⟨owner, .later reads⟩

theorem StageReads.elsewhere (other : Namespace) :
    StageReads ns stage owner e → ∃ owner, StageReads other stage owner e
  | .own mem => ⟨other, .own mem⟩
  | .nest mem reads =>
    let ⟨owner, reads⟩ := reads.elsewhere other
    ⟨owner, .nest mem reads⟩

end

/-- The nests in some stages, at any depth. -/
inductive StagesHold : List Stage → Nest → Prop where
  | here (mem : stage ∈ stages) (nest : n ∈ stage.nests) :
      StagesHold stages n
  | inside (mem : stage ∈ stages)
      (nest : outer ∈ stage.nests) (inner : StagesHold outer.stages n) : StagesHold stages n

def Correlation.condition? : Correlation → Option Expr
  | .key e | .on e => some e
  | .free => none

theorem Join.Correlated.condition {j : Join} (correlated : j.Correlated n) (is : j.correlation.condition? = some e) :
    e.level? n = some .scalar := by
  obtain ⟨_, _, _, correlation, _⟩ := j
  cases correlation with
  | key => cases is; exact correlated.1
  | on => cases is; exact correlated
  | free => cases is

mutual

/-- The expressions that a query comes to over its own source, each with its namespace: those of the query,
the definitions that they name, and what the joins bring that they read. -/
inductive Query.Reaches (q : Query) : Namespace → Expr → Prop where
  | filter {f : Filter} (mem : f ∈ q.source.filters) : Reaches q q.source.fields f.expr
  | stage (reads : StagesRead q.source.fields q.stages ns e) : Reaches q ns e
  | definition (reached : Reaches q ns e)
      (refers : e.refersTo path = true) (defined : Plan.definitionOf ns path = .ok (joins, owner, d)) :
      Reaches q owner d
  | condition {parent : Namespace} {j : Join} {e : Expr} (joined : ReachesJoin q parent j)
      (is : j.correlation.condition? = some e) : Reaches q parent e
  | restriction (joined : ReachesJoin q parent j)
      (mem : f ∈ j.source.filters) : Reaches q j.source.fields f.expr

/-- The joins that these expressions read, each with the namespace that it is a field of. -/
inductive Query.ReachesJoin (q : Query) : Namespace → Join → Prop where
  | read {ns parent : Namespace} {e : Expr} {place rest : List String} {name : String} {j : Join}
      (reached : Reaches q ns e) (reads : e.ReadsAt (place ++ name :: rest))
      (within : ns.within? place = some parent) (found : parent.lookup? name = some (.join j)) :
      ReachesJoin q parent j

end

/-- The queries whose rows a query draws on: itself, and those behind its source and the joins that it reads. -/
inductive Query.Draws : Query → Query → Prop where
  | self (q : Query) : Draws q q
  | source {q inner r : Query} (origin : q.source.origin = .query inner) (draws : Draws inner r) : Draws q r
  | join {q inner r : Query} {parent : Namespace} {j : Join} (joined : q.ReachesJoin parent j)
      (origin : j.source.origin = .query inner) (draws : Draws inner r) : Draws q r

/-- Expressions and joins that are closed under what they lead to. -/
structure Closed (R : Namespace → Expr → Prop) (J : Namespace → Join → Prop) : Prop where
  definition : ∀ {ns owner e d path joins}, R ns e → e.refersTo path = true →
    Plan.definitionOf ns path = .ok (joins, owner, d) → R owner d
  read : ∀ {ns parent e place rest name j}, R ns e → e.ReadsAt (place ++ name :: rest) →
    ns.within? place = some parent → parent.lookup? name = some (.join j) → J parent j
  condition : ∀ {parent j e}, J parent j → j.correlation.condition? = some e → R parent e
  restriction : ∀ {parent j f}, J parent j → f ∈ j.source.filters → R j.source.fields f.expr

theorem Query.reaches_closed (q : Query) : Closed q.Reaches q.ReachesJoin where
  definition := .definition
  read := .read
  condition := .condition
  restriction := .restriction

def Flat (ns : Namespace) : Prop := ∀ name f, ns.lookup? name = some f →
  (∃ field location, f = .nested field location) ∨ ∃ x column, f = .dimension x ∧ x.expr = .column column

theorem flat_ofResult (fields : List ResultField) (location : Location) :
    Flat (Namespace.ofResult fields location) := by
  intro name f found
  rw [lookup?_ofResult] at found
  obtain ⟨field, _, rfl⟩ := Option.map_eq_some_iff.mp found
  unfold FieldDef.ofResult
  split
  · exact .inr ⟨_, _, rfl, rfl⟩
  · exact .inl ⟨_, _, rfl⟩

theorem flat_ofColumns (columns : TableSchema) (location : Location) :
    Flat (Namespace.ofColumns columns location) := by
  intro name f found
  unfold Namespace.ofColumns at found
  rw [Slots.lookup?_ofList, ← map_reverse, lookup_keyed] at found
  obtain ⟨column, _, rfl⟩ := Option.map_eq_some_iff.mp found
  exact .inr ⟨_, _, rfl, rfl⟩

def Joinless (ns : Namespace) : Prop := ∀ name j, ns.lookup? name ≠ some (.join j)

theorem Joinless.within {inner : Namespace} (joinless : Joinless ns) (within : ns.within? path = some inner) :
    path = [] ∧ inner = ns := by
  cases path with
  | nil => cases within; exact ⟨rfl, rfl⟩
  | cons name rest =>
    obtain ⟨j, found, _⟩ := Namespace.within?_cons_inv within
    exact (joinless name j found).elim

theorem Flat.joinless (flat : Flat ns) : Joinless ns := by
  intro name j found
  rcases flat name _ found with ⟨_, _, impossible⟩ | ⟨_, _, impossible, _⟩ <;> cases impossible

def FlatExpr (ns : Namespace) (e : Expr) : Prop := Flat ns ∧ e.containsUngroup = false

theorem Flat.definition (flat : Flat ns) (defined : Plan.definitionOf ns path = .ok (joins, owner, d)) :
    owner = ns ∧ ∃ column, d = .column column := by
  obtain ⟨last, x, _, within, found, rfl⟩ := Namespace.definitionOf_iff.mp defined
  obtain ⟨_, rfl⟩ := flat.joinless.within within
  refine ⟨rfl, ?_⟩
  rcases found with found | found
  · rcases flat last _ found with ⟨_, _, impossible⟩ | ⟨_, column, same, is⟩
    · cases impossible
    · cases same
      exact ⟨column, is⟩
  · rcases flat last _ found with ⟨_, _, impossible⟩ | ⟨_, _, impossible, _⟩ <;> cases impossible

theorem flat_closed : Closed FlatExpr fun _ _ => False where
  definition := by
    rintro ns owner e d path joins ⟨flat, _⟩ _ defined
    obtain ⟨rfl, column, rfl⟩ := flat.definition defined
    exact ⟨flat, rfl⟩
  read := by
    rintro ns parent e place rest name j ⟨flat, _⟩ _ within found
    obtain ⟨_, rfl⟩ := flat.joinless.within within
    exact flat.joinless name j found
  condition := False.elim
  restriction := False.elim

end SemanticLayer
