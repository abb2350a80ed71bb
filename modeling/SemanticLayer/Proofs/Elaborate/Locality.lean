import SemanticLayer.Proofs.Elaborate.Model
import SemanticLayer.Proofs.Model.Determined

/-!
Where an aggregate is computed, and whether its argument has one value there. What an elaborated scalar reads
covers all columns that it comes to. So an aggregate without a path in front is computed behind all of them; one
with a path is computed there, whatever it reads.
-/
namespace SemanticLayer.Elaborate

open List hiding span

open Memo

theorem resolved_dimension (level : (Names.of ns).level path = some .scalar)
    (defined : Plan.definitionOf ns path = .ok (joins, owner, d)) :
    ∃ relationships f, ns.resolveDefined path = .ok ⟨joins, relationships, owner, .dimension f⟩ ∧ d = f.expr := by
  obtain ⟨⟨joinPath, relationships, owner', field⟩, resolved, defined⟩ := bind_eq_ok defined
  obtain ⟨last, split, within, found, _⟩ := Namespace.resolved_spec resolved
  have isLevel : field.level? = some .scalar := by
    rw [split] at level
    have here : (ns.field? (joinPath ++ [last])).bind FieldDef.level? = some .scalar := level
    rw [Namespace.field?_snoc, within] at here
    simpa [found] using here
  cases field with
  | dimension f =>
    cases defined
    exact ⟨relationships, f, resolved, rfl⟩
  | _ => cases isLevel

theorem mentions_parts {x : Expr} (operator : x.isName = false) (mentions : x.Mentions ns path column) :
    ∃ p ∈ x.parts, p.Mentions ns path column := by
  cases mentions with
  | column | field => cases operator
  | part mem inner => exact ⟨_, mem, inner⟩

theorem reads_iff {e : Expr} (sound : FieldsSound ns) (level : e.level? (Names.of ns) = some .scalar)
    (place : List String) (crosses : Bool) (p : List String) :
    Reads.Has (e.reads ⟨ns, place, crosses⟩) p ↔ ∃ path column, e.Mentions ns path column ∧ p = place ++ path := by
  have all := follow_bound (K := 0) (S := fun fuel place ns e => e.level? (Names.of ns) = some .scalar →
    ∀ crosses reads, Reads.Has (e.readsWithin fuel ⟨ns, place, crosses⟩ reads) p ↔
      Reads.Has reads p ∨ ∃ path column, e.Mentions ns path column ∧ p = place ++ path)
    ?_ ns.size rfl sound level place (Nat.le_refl _) level crosses []
  · exact all.trans (or_iff_right (by simp [Reads.Has]))
  intro fuel place ns e l sound _ _ follows scalar crosses reads
  have parts : ∀ x : Expr, (∀ test, x.any test = true → e.any test = true) → x.level? (Names.of ns) = some .scalar →
      ∀ reads, Reads.Has (x.collectReads (Expr.readsWithin fuel) ⟨ns, place, crosses⟩ reads) p ↔
        Reads.Has reads p ∨ ∃ path column, x.Mentions ns path column ∧ p = place ++ path := by
    intro x
    induction x using Expr.parts_induction with
    | step x ih =>
      intro inside scalar reads
      by_cases named : x.isName = true
      · cases x with
        | column name =>
          rw [Expr.collectReads, has_add, or_comm]
          refine or_congr_right ⟨fun same => ⟨[], name, .column, same ▸ (append_nil _).symm⟩, ?_⟩
          rintro ⟨path, _, mentions, rfl⟩
          cases mentions with
          | column => exact (append_nil place).symm
          | part mem _ => cases mem
        | field target =>
          obtain ⟨_, _, _, _, _, _, _, defined, level⟩ := sound.definition scalar
          obtain ⟨relationships, f, resolved, rfl⟩ := resolved_dimension scalar defined
          rw [Expr.collectReads, resolved]
          refine (follows (inside _ (Expr.field_refersTo target)) defined level _ _).trans (or_congr_right ?_)
          constructor
          · rintro ⟨path, column, mentions, rfl⟩
            exact ⟨_, column, .field defined mentions, List.append_assoc _ _ _⟩
          · rintro ⟨_, column, mentions, rfl⟩
            cases mentions with
            | part mem _ => cases mem
            | field defined' mentions =>
              cases defined.symm.trans defined'
              exact ⟨_, column, mentions, (List.append_assoc _ _ _).symm⟩
        | _ => cases named
      · have operator : x.isName = false := by simpa using named
        have each (part : Expr) (mem : part ∈ x.parts) :=
          ih part mem (fun test holds => inside test (Expr.any_part mem holds)) (by
            obtain ⟨l, level, isScalar⟩ := Expr.level_parts scalar part mem
            exact isScalar rfl ▸ level)
        rw [collectReads_parts operator, has_foldl each]
        refine or_congr_right ⟨?_, ?_⟩
        · rintro ⟨part, mem, path, column, mentions, is⟩
          exact ⟨path, column, .part mem mentions, is⟩
        · rintro ⟨path, column, mentions, is⟩
          obtain ⟨part, mem, mentions⟩ := mentions_parts operator mentions
          exact ⟨part, mem, path, column, mentions, is⟩
  exact parts e (fun _ => id) scalar reads

theorem refer_reads {root : Namespace} (refers : root.refer path = .ok r) (shape : r.shape = .dimension) :
    ∃ owner d, Plan.definitionOf root path = .ok (r.joinPath, owner, d) ∧ root.within? r.joinPath = some owner ∧
      r.crosses = root.crosses r.joinPath ∧ r.reads = d.reads ⟨owner, r.joinPath, root.crosses r.joinPath⟩ := by
  obtain ⟨⟨joins, relationships, owner, field⟩, resolved, is⟩ := bind_eq_ok refers
  obtain ⟨last, split, within, found, crosses⟩ := Namespace.resolved_spec (Namespace.resolveDefined_of_resolve resolved)
  have defined := Namespace.resolveDefined_of_resolve resolved
  cases field with
  | dimension f =>
    cases is
    refine ⟨owner, f.expr, ?_, within, crosses, by rw [← crosses]⟩
    rw [Plan.definitionOf, defined]
    rfl
  | _ =>
    cases is
    cases shape

theorem paths_iff {root : Namespace} (sound : FieldsSound root) (refers : root.refer path = .ok r)
    (shape : r.shape = .dimension) (q : List String) : Reads.Has r.paths q ↔
      (∃ column, (Expr.field path).Mentions root q column) ∨
        (∀ p column, ¬(Expr.field path).Mentions root p column) ∧ q = r.joinPath := by
  obtain ⟨owner, d, defined, _, _, reads⟩ := refer_reads refers shape
  have level := refer_dimension refers shape
  obtain ⟨_, _, _, _, _, _, sound', defined', scalar⟩ := sound.definition level
  cases defined.symm.trans defined'
  have mentioned (p : List String) : Reads.Has r.reads p ↔ ∃ column, (Expr.field path).Mentions root p column := by
    rw [reads, reads_iff sound' scalar]
    constructor
    · rintro ⟨rest, column, mentions, rfl⟩
      exact ⟨column, .field defined mentions⟩
    · rintro ⟨column, mentions⟩
      cases mentions with
      | part mem _ => cases mem
      | field defined' mentions =>
        cases defined.symm.trans defined'
        exact ⟨_, column, mentions, rfl⟩
  unfold Reference.paths
  split
  · next empty =>
    have none (p : List String) (column : String) : ¬(Expr.field path).Mentions root p column := by
      intro mentions
      obtain ⟨_, mem, _⟩ := (mentioned p).mpr ⟨column, mentions⟩
      rw [List.isEmpty_iff.mp empty] at mem
      cases mem
    simp [Reads.Has, none, eq_comm]
  · next some =>
    obtain ⟨first, mem⟩ := List.exists_mem_of_ne_nil r.reads (by simpa using some)
    obtain ⟨column, mentions⟩ := (mentioned first.1).mp ⟨first, mem, rfl⟩
    rw [mentioned]
    exact (or_iff_left fun none => none.1 first.1 column mentions).symm

/-- An elaborated scalar reads the paths of all columns that it comes to. -/
def Covered (ns : Namespace) (t : Typed) : Prop :=
  t.isAggregate = false → ∀ path column, t.expr.Mentions ns path column → Reads.Has t.reads path

def CoveredAt (ns : Namespace) (path : List String) (r : Reference) : Prop :=
  r.shape = .dimension → ∀ p column, (r.inline.getD (.field path)).Mentions ns p column → Reads.Has r.paths p

section Covered

variable {ns : Namespace} {t e : Typed}

variable {x : Expr}

theorem covered_of_aggregate (aggregate : t.isAggregate = true) : Covered ns t := by
  intro scalar
  rw [aggregate] at scalar
  cases scalar

theorem not_mentions (operator : x.isName = false) (leaf : x.parts = []) : ¬x.Mentions ns path column := by
  intro mentions
  obtain ⟨p, mem, _⟩ := mentions_parts operator mentions
  rw [leaf] at mem
  cases mem

theorem leaf_covered (operator : x.isName = false) (leaf : x.parts = []) :
    Covered ns (.scalar x type) := fun _ _ _ mentions => (not_mentions operator leaf mentions).elim

theorem covered_of {type : AtomicType} (covered : Covered ns t) (operator : x.isName = false)
    (part : x.parts = [t.expr]) : Covered ns { t with expr := x, type := type } := by
  intro scalar path column mentions
  obtain ⟨p, mem, inner⟩ := mentions_parts operator mentions
  rw [part] at mem
  cases mem_singleton.mp mem
  exact covered scalar path column inner

theorem build_covered {type : AtomicType} (operator : x.isName = false) (same : x.parts = parts.map Typed.expr)
    (covered : ∀ part ∈ parts, Covered ns part) (h : Typed.build x type parts = .ok t) : Covered ns t := by
  unfold Typed.build at h
  simp only at h
  split at h
  · cases h
  · cases h
    intro scalar path column mentions
    obtain ⟨p, mem, inner⟩ := mentions_parts operator mentions
    rw [same] at mem
    obtain ⟨part, given, rfl⟩ := mem_map.mp mem
    have plain : part.isAggregate = false := by
      by_contra aggregate
      have some : parts.any Typed.isAggregate = true := any_eq_true.mpr ⟨part, given, by simpa using aggregate⟩
      simp [Typed.isAggregate, some, Level.isAggregate] at scalar
    exact (has_unions _).mpr (.inr ⟨part, mem_filter.mpr ⟨given, by simp [plain]⟩,
      covered part given plain path column inner⟩)

theorem operation_name (operation : x.isOperation = true) : x.isName = false := by
  cases x <;> first | rfl | cases operation

theorem filtered_covered {conditions : List Typed} (aggregate : t.isAggregate = true) :
    Covered ns (t.filtered conditions) := by
  refine covered_of_aggregate ?_
  unfold Typed.filtered
  split
  · exact aggregate
  · exact aggregate

theorem ungroup_covered (h : Typed.ungroup kind fields t = .ok e) : Covered ns e := by
  unfold Typed.ungroup at h
  split at h
  · cases h
  · next aggregate =>
    split at h
    · cases h
    · cases h
      refine covered_of_aggregate (?_ : t.isAggregate = true)
      simpa using aggregate

theorem ofReference_covered (covered : CoveredAt ns path r) (h : Typed.ofReference path text r = .ok t) :
    Covered ns t := by
  unfold Typed.ofReference at h
  cases shape : r.shape with
  | dimension =>
    simp only [shape] at h
    cases h
    exact fun _ => covered shape
  | measure =>
    simp only [shape] at h
    cases h
    exact covered_of_aggregate rfl
  | _ => simp only [shape] at h; cases h

theorem refer_covered (sound : FieldsSound ns) (h : ns.refer path = .ok r) : CoveredAt ns path r := by
  intro shape p column mentions
  obtain ⟨_, _, _, _, _, _, _, inline⟩ := refer_found h
  rw [inline] at mentions
  exact (paths_iff sound h shape p).mpr (.inl ⟨column, mentions⟩)

end Covered

theorem Yields.and {ε α : Type} {Faults : ε → Prop} {result : Except ε α} {P Q : α → Prop}
    (first : Yields Faults result P) (second : ∀ a, result = .ok a → Q a) :
    Yields Faults result fun a => P a ∧ Q a := by
  cases result with
  | error f => exact first
  | ok a => exact ⟨first, second a rfl⟩

/-- Levels are right, and scalars read what they come to. -/
def coverage (ns : Namespace) : Judgement Keeps where
  Good s t := (stageLevels ns).Good s t ∧ Covered ns t
  Refers s path r := (stageLevels ns).Refers s path r ∧ CoveredAt ns path r
  Reaches := (stageLevels ns).Reaches
  stable grows good := ⟨(stageLevels ns).stable grows good.1, good.2⟩
  literal s l := ⟨(stageLevels ns).literal s l, leaf_covered rfl rfl⟩
  now s := ⟨(stageLevels ns).now s, leaf_covered rfl rfl⟩
  reference refers text := ((stageLevels ns).reference refers.1 text).and fun _ h => ofReference_covered refers.2 h
  joined refers h := (stageLevels ns).joined refers.1 h
  deepest good := (stageLevels ns).deepest good.1
  base := (stageLevels ns).base
  wrap good operation part :=
    ⟨(stageLevels ns).wrap good.1 operation part, covered_of good.2 (operation_name operation) part⟩
  build goods operation same type :=
    ((stageLevels ns).build (fun p mem => (goods p mem).1) operation same type).and fun _ h =>
      build_covered (operation_name operation) same (fun p mem => (goods p mem).2) h
  aggregate scalars argued reaches :=
    ⟨(stageLevels ns).aggregate (fun a mem => ⟨(scalars a mem).1.1, (scalars a mem).2⟩) argued reaches,
      covered_of_aggregate rfl⟩
  filtered good aggregate scalars :=
    ⟨(stageLevels ns).filtered good.1 aggregate fun e mem => ⟨(scalars e mem).1.1, (scalars e mem).2⟩,
      filtered_covered aggregate⟩
  ungroup good kind fields := ((stageLevels ns).ungroup good.1 kind fields).and fun _ h => ungroup_covered h

theorem locality_starts (h : Typed.locality reads = .ok locality) (has : Reads.Has reads p) : p <+: locality := by
  obtain ⟨q, mem, rfl⟩ := has
  unfold Typed.locality at h
  cases reads with
  | nil => cases mem
  | cons first rest =>
    simp only [Reads.deepest?] at h
    split at h
    · cases h
    · next all =>
      cases h
      have starts := List.find?_eq_none.mp all q mem
      simpa using starts

section Fields

variable {ns : Namespace} {url : String} {inlining : Bool} {t : Typed}

theorem coverage_judges (url : String) (inlining : Bool) (sound : FieldsSound ns) :
    Scope.Judges ⟨url, ns, [], inlining⟩ (coverage ns) [] where
  root _ _ h := ⟨refer_refers h, refer_covered sound h⟩
  declared given _ _ := by rcases given with given | given <;> cases given
  good h := by cases h
  faultless h := by cases h

theorem typed_leveled (sound : FieldsSound ns) {e : Document.Expr}
    (accepted : ((Scope.typed ⟨url, ns, [], inlining⟩ e).run.run []).1 = .ok t) :
    t.expr.level? (Names.of ns) = some t.level :=
  ((typed_ensures (coverage_judges url inlining sound) e ⟨.known, forall_mem_nil _⟩).2.2.value accepted).1.level

theorem joinLocality_named {σ : Type} {D : Discipline σ} {J : Judgement D.Grows} {c : Context σ} {s : σ}
    (finds : Finds D J c) (path : Document.FieldPath) :
    Ensures D s (joinLocality c path) fun _ p => p = path.names := by
  refine ensures_bind (refer_ensures finds path) fun t r _ _ => ?_
  split
  · exact ensures_pure rfl
  · exact ensures_fail c rfl

/-- An aggregate is computed on the path in front of it, or behind all that its argument reads. -/
theorem aggregate_located (sound : FieldsSound ns) {function : AggregateFunction} {source : Option Document.FieldPath}
    (accepted : ((Scope.typed ⟨url, ns, [], inlining⟩ ⟨.aggregate function source (some x), span⟩).run.run []).1 = .ok t) :
    ∃ f locality arg, t.expr = .aggregate f locality (some arg) ∧ (∀ path, source = some path → locality = path.names) ∧
      (source = none → ∀ path column, arg.Mentions ns path column → path <+: locality) := by
  have finds := context_finds (coverage_judges url inlining sound)
  have ensures : Ensures (Scope.discipline ⟨url, ns, [], inlining⟩ (coverage ns).Good [] []) []
      (Scope.typed ⟨url, ns, [], inlining⟩ ⟨.aggregate function source (some x), span⟩) fun _ t =>
        ∃ f locality arg, t.expr = .aggregate f locality (some arg) ∧
          (∀ path, source = some path → locality = path.names) ∧
          (source = none → ∀ path column, arg.Mentions ns path column → path <+: locality) := by
    refine ensures_bind (Q := fun memo arg => ∃ a, arg = some a ∧ (coverage ns).Good memo a)
      (ensures_map (expr_ensures finds x []) fun memo a good => ⟨a, rfl, good⟩) ?_
    rintro memo _ _ ⟨a, rfl, good⟩
    refine ensures_unless _ rfl fun scalar => ?_
    refine ensures_bind (ensures_own _ (aggregateType_own _ _)) fun memo type _ _ => ?_
    cases source with
    | some path =>
      refine ensures_bind (joinLocality_named finds path) ?_
      rintro memo _ _ rfl
      refine ensures_pure ⟨_, _, _, rfl, fun other is => ?_, fun is => ?_⟩
      · cases is
        rfl
      · cases is
    | none =>
      refine ensures_bind (ensures_own _ ((coverage ns).deepest good).named) fun memo locality _ isLocality => ?_
      refine ensures_pure ⟨_, locality, a.expr, rfl, fun other is => ?_, fun _ path column mentions => ?_⟩
      · cases is
      · exact locality_starts isLocality (good.2 scalar path column mentions)
  exact (ensures ⟨.known, forall_mem_nil _⟩).2.2.value accepted

end Fields

theorem source_fields_sound (built : Built m) (named : m.source? name = some s) : FieldsSound s.fields := by
  unfold Model.source? at named
  split at named
  · next found =>
    cases named
    exact (SourceBuilt.sound ((built_sound built).entities (name, .source s) (mem_of_lookup found))).fields
  · cases named

/-- Whether an aggregate has one value of its argument for each row that it is computed for. -/
theorem arguments_determined_iff {m : Model} (built : Built m) {name : String} {s : Source}
    (named : m.source? name = some s) {url : String} {inlining : Bool} {e : Document.Expr} {t : Typed}
    (accepted : ((Scope.typed ⟨url, s.fields, [], inlining⟩ e).run.run []).1 = .ok t) :
    (∀ owner f locality arg, t.expr.ComesTo s.fields owner (.aggregate f locality (some arg)) →
      (arg.DeterminedBy owner locality ↔
        ∀ path column, arg.Mentions owner path column → owner.determines locality path = true)) ∧
    ∀ function source x span, e = ⟨.aggregate function source (some x), span⟩ →
      ∃ f locality arg, t.expr = .aggregate f locality (some arg) ∧
        (∀ path, source = some path → locality = path.names) ∧
        (source = none → ∀ path column, arg.Mentions s.fields path column → path <+: locality) := by
  have sound := source_fields_sound built named
  constructor
  · intro owner f locality arg comes
    obtain ⟨sound', l, level⟩ := comes.leveled sound (typed_leveled sound accepted)
    obtain ⟨_, joined, _, argument⟩ := Expr.aggregate_level level
    obtain ⟨l, level, _⟩ := Expr.covers_option argument arg (Option.mem_toList.mpr rfl)
    exact Expr.determinedBy_iff sound' level joined
  · rintro function source x span rfl
    exact aggregate_located sound accepted

def shopTables : Inputs :=
  ⟨"file:///shop.model",
    ⟨[("orders", .known [⟨"id", .number⟩, ⟨"customer_id", .number⟩, ⟨"total", .number⟩]),
      ("customers", .known [⟨"id", .number⟩, ⟨"credit", .number⟩]),
      ("items", .known [⟨"order_id", .number⟩, ⟨"price", .number⟩])], []⟩, fun _ => .duckdb, []⟩

def fieldAt (path : List String) : Document.Expr := ⟨.field ⟨path, default⟩, default⟩

def shop : Document :=
  ⟨[.source ⟨"customers", default⟩ (.refine (.table none "customers" default) [.primaryKey ⟨"id", default⟩] default)
      default,
    .source ⟨"orders", default⟩ (.refine (.table none "orders" default)
      [.join [⟨⟨"customers", default⟩, .one, some (.named ⟨"customers", default⟩), some (.key (fieldAt ["customer_id"])),
          default⟩,
        ⟨⟨"items", default⟩, .many, some (.table none "items" default),
          some (.on ⟨.binary .eq (fieldAt ["items", "order_id"]) (fieldAt ["id"]), default⟩), default⟩]] default) default]⟩

def orderSource : Source :=
  let location : Location := ⟨"file:///shop.model", default⟩
  let table (name : String) (columns : TableSchema) (key : Option String) : Source :=
    ⟨name, .table name none, Namespace.ofColumns columns location, key, [], location⟩
  let customers := table "customers" [⟨"id", .number⟩, ⟨"credit", .number⟩] (some "id")
  let items := table "items" [⟨"order_id", .number⟩, ⟨"price", .number⟩] none
  let orders := table "orders" [⟨"id", .number⟩, ⟨"customer_id", .number⟩, ⟨"total", .number⟩] none
  let customer : Join := ⟨"customers", .one, customers, .key (.field ["customer_id"]), location⟩
  let item : Join := ⟨"items", .many, items, .on (.binary .eq (.field ["items", "order_id"]) (.field ["id"])), location⟩
  { orders with fields := (orders.fields.insert "customers" (.join customer)).insert "items" (.join item) }

theorem orders_named : (document shopTables shop).source? "orders" = some orderSource := rfl

def overOrders (e : Document.Expr) : Except LocatedFault Typed :=
  ((Scope.typed ⟨"file:///shop.model", orderSource.fields, [], false⟩ e).run.run []).1

def summed (source : Option Document.FieldPath) (x : Document.Expr) : Document.Expr :=
  ⟨.aggregate .sum source (some x), default⟩

def withTotal (path : List String) : Document.Expr := ⟨.binary .add (fieldAt path) (fieldAt ["total"]), default⟩

theorem mentions_stored (defined : Plan.definitionOf ns path = .ok (joins, owner, .column name))
    (mentions : (Expr.field path).Mentions ns p column) : p = joins := by
  cases mentions with
  | part mem _ => cases mem
  | field defined' inner =>
    cases defined.symm.trans defined'
    cases inner with
    | column => exact append_nil joins
    | part mem _ => cases mem

theorem mentions_total : (Expr.field ["total"]).Mentions orderSource.fields [] "total" :=
  @Expr.Mentions.field _ _ _ [] [] _ _ rfl .column

/-- Summed over items, the total of an order has one value for each of them. -/
theorem itemTotals_determined : Built (document shopTables shop) ∧
    (document shopTables shop).source? "orders" = some orderSource ∧
    ∃ t arg, overOrders (summed none (withTotal ["items", "price"])) = .ok t ∧
      t.expr = .aggregate .sum ["items"] (some arg) ∧ arg.DeterminedBy orderSource.fields ["items"] ∧
      (∃ column, arg.Mentions orderSource.fields [] column) ∧
      ∀ path column, arg.Mentions orderSource.fields path column → path <+: ["items"] := by
  have built : Built (document shopTables shop) := .document _ _ fun _ _ found => by cases found
  obtain ⟨t, accepted⟩ : ∃ t, overOrders (summed none (withTotal ["items", "price"])) = .ok t := ⟨_, rfl⟩
  obtain ⟨nodes, located⟩ := arguments_determined_iff built orders_named accepted
  obtain ⟨f, locality, arg, is, _, starts⟩ := located _ _ _ _ rfl
  have isNode : t.expr = .aggregate .sum ["items"] (some (.binary .add (.field ["items", "price"]) (.field ["total"]))) := by
    cases accepted
    rfl
  cases is.symm.trans isNode
  refine ⟨built, orders_named, t, _, accepted, isNode, ?_, ⟨"total", ?_⟩, starts rfl⟩
  · have here : t.expr.ComesTo orderSource.fields orderSource.fields t.expr := .here
    refine (nodes _ .sum ["items"] _ (isNode ▸ here)).mpr fun path column mentions => ?_
    obtain ⟨p, mem, inner⟩ := mentions_parts rfl mentions
    rcases List.mem_pair.mp mem with rfl | rfl
    · rw [mentions_stored rfl inner]
      rfl
    · rw [mentions_stored rfl inner]
      rfl
  · exact .part (List.mem_cons_of_mem _ List.mem_cons_self) mentions_total

/-- Summed over customers, it has many: that path may be written in front, or be the deepest that is read. -/
theorem customerTotals_undetermined : Built (document shopTables shop) ∧
    (document shopTables shop).source? "orders" = some orderSource ∧
    (∃ t, overOrders (summed (some ⟨["customers"], default⟩) (fieldAt ["total"])) = .ok t ∧
      t.expr = .aggregate .sum ["customers"] (some (.field ["total"])) ∧
      ¬(Expr.field ["total"]).DeterminedBy orderSource.fields ["customers"]) ∧
    ∃ t arg, overOrders (summed none (withTotal ["customers", "credit"])) = .ok t ∧
      t.expr = .aggregate .sum ["customers"] (some arg) ∧ ¬arg.DeterminedBy orderSource.fields ["customers"] := by
  have built : Built (document shopTables shop) := .document _ _ fun _ _ found => by cases found
  have sound := source_fields_sound built orders_named
  have undetermined {arg : Expr} (level : arg.level? (Names.of orderSource.fields) = some .scalar)
      (mentions : arg.Mentions orderSource.fields [] "total") : ¬arg.DeterminedBy orderSource.fields ["customers"] := by
    rw [Expr.determinedBy_iff sound level rfl]
    intro determined
    cases determined [] "total" mentions
  refine ⟨built, orders_named, ⟨_, rfl, rfl, undetermined rfl mentions_total⟩, _, _, rfl, rfl, undetermined rfl ?_⟩
  exact .part (List.mem_cons_of_mem _ List.mem_cons_self) mentions_total

end SemanticLayer.Elaborate
