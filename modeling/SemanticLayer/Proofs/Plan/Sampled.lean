import SemanticLayer.Proofs.Plan.Accepted
import SemanticLayer.Proofs.Plan.Anatomy

/-!
How often the rows of a sampled table are drawn. Every `SELECT` that a first stage is compiled to has the sample in
its own `FROM`: one for the rows of each level, one for each widened aggregate, one for each indexed field.
-/
namespace SemanticLayer

open List

namespace Sql

def Relation.draws (text : String) : Relation → Bool
  | .raw t => t == text
  | .subquery { source := some ⟨.raw t, _⟩, .. } => t == text
  | _ => false

def Cte.widens (c : Cte) : Bool := "__ungroup".toList.isPrefixOf c.name.toList

namespace Query

def drawn (text : String) (q : Query) : Nat := (q.source.any fun t => t.relation.draws text).toNat

def draws (text : String) (q : Query) : Nat := q.drawn text + (q.unions.map (drawn text)).sum

def samples (text : String) (q : Query) : Nat := (q.ctes.map fun c => c.query.draws text).sum + q.draws text

def widenedSamples (text : String) (q : Query) : Nat := ((q.ctes.filter Cte.widens).map fun c => c.query.draws text).sum

end Query

end Sql

mutual

def Stage.selects : Stage → Nat
  | .reduce fields _ _ _ => selectsIn fields + 1
  | .project fields _ _ => selectsIn fields + 1
  | .index fields _ _ => fields.length

def selectsIn : List OutputField → Nat
  | [] => 0
  | f :: rest => OutputField.selects f + selectsIn rest

def OutputField.selects : OutputField → Nat
  | .dimension _ | .measure _ => 0
  | .nest n => Nest.selects n

/-- The later stages of a nest read the first one. -/
def Nest.selects : Nest → Nat
  | ⟨_, [], _⟩ => 0
  | ⟨_, first :: _, _⟩ => Stage.selects first

end

def Namespace.Alone (ns : Namespace) : Prop := ∀ place parent name j inner, ns.within? place = some parent →
  parent.lookup? name = some (.join j) → j.source.origin ≠ .query inner

theorem Flat.alone (flat : Flat ns) : ns.Alone := by
  intro place parent name j inner within found
  obtain ⟨rfl, rfl⟩ := flat.joinless.within within
  exact (flat.joinless name j found).elim

namespace Plan

/-- How often the queries planned so far draw rows from a text, apart from widened aggregates. -/
def drawings (text : String) (ctes : List Sql.Cte) : Nat :=
  ((ctes.filter fun c => !c.widens).map fun c => c.query.draws text).sum

theorem drawings_snoc (text : String) (ctes : List Sql.Cte) (c : Sql.Cte) :
    drawings text (ctes ++ [c]) = drawings text ctes + if c.widens then 0 else c.query.draws text := by
  cases h : c.widens <;> simp [drawings, h]

def AtLeast (exact : Prop) (least n : Nat) : Prop := least ≤ n ∧ (exact → n = least)

/-- Planning that draws rows from a text a number of times, with what its result is still to draw. -/
def Takes {α : Type} (text : String) (exact : Prop) (action : PlanM α) (n : Nat) (held : α → Nat) : Prop :=
  ∀ s a s', Gives action s a s' → AtLeast exact (drawings text s.ctes + n) (drawings text s'.ctes + held a)

variable {α β : Type} {text : String} {exact : Prop} {p : Planner} {input : Input}

theorem AtLeast.refl (n : Nat) : AtLeast exact n n := ⟨Nat.le_refl n, fun _ => rfl⟩

theorem AtLeast.trans (first : AtLeast exact a b) (second : AtLeast exact b c) : AtLeast exact a c :=
  ⟨first.1.trans second.1, fun is => (second.2 is).trans (first.2 is)⟩

theorem AtLeast.add (first : AtLeast exact a b) (second : AtLeast exact c d) : AtLeast exact (a + c) (b + d) :=
  ⟨Nat.add_le_add first.1 second.1, fun is => by rw [first.2 is, second.2 is]⟩

namespace Takes

variable {held : α → Nat} {kept : β → Nat} {n m : Nat}

theorem pure {a : α} (is : held a = n) : Takes text exact (Pure.pure a) n held := by
  intro s b s' run
  obtain ⟨rfl, rfl⟩ := gives_pure.mp run
  exact is ▸ .refl _

variable {f : α → PlanM β}

theorem bind {x : PlanM α} (first : Takes text exact x n held)
    (second : ∀ a, Takes text exact (f a) (m + held a) kept) : Takes text exact (x >>= f) (m + n) kept := by
  intro s b s' run
  obtain ⟨a, mid, here, there⟩ := gives_bind.mp run
  have one := first s a mid here
  have two := second a mid b s' there
  exact ⟨by have := one.1; have := two.1; omega, fun is => by have := one.2 is; have := two.2 is; omega⟩

theorem through {x : PlanM α} (first : Takes text exact x n held)
    (second : ∀ a, Takes text exact (f a) (held a) kept) : Takes text exact (x >>= f) n kept := by
  have all := bind first fun a => (Nat.zero_add (held a)).symm ▸ second a
  rwa [Nat.zero_add] at all

theorem fault {fault : Fault} : Takes text exact (throw fault) n held := fun _ _ _ run => (not_gives_fault run).elim

theorem fault_bind {fault : Fault} : Takes text exact ((throw fault : PlanM α) >>= f) n kept := by
  intro s b s' run
  obtain ⟨_, _, here, _⟩ := gives_bind.mp run
  exact (not_gives_fault here).elim

theorem define (is : query.draws text = n) (other : stem ∈ ["source", "stage", "rows", "nest", "index"]) :
    Takes text exact (Plan.define stem query) n fun _ => 0 := by
  intro s name s' run
  obtain ⟨rfl, rfl⟩ := gives_define.mp run
  have apart : Sql.Cte.widens ⟨s!"__{stem}{s.counter}", query⟩ = false := by
    simp only [mem_cons, not_mem_nil, or_false] at other
    rcases other with rfl | rfl | rfl | rfl | rfl <;> simp [Sql.Cte.widens, toString, List.isPrefixOf]
  have more := drawings_snoc text s.ctes ⟨s!"__{stem}{s.counter}", query⟩
  rw [apart] at more
  exact (more.trans (congrArg _ is)) ▸ .refl _

theorem mapM (each : ∀ a, Takes text exact (f a) n kept) : ∀ items : List α,
    Takes text exact (items.mapM f) (items.length * n) fun bs => (bs.map kept).sum
  | [] => pure (Nat.zero_mul n).symm
  | a :: rest => by
    rw [mapM_cons, length_cons, Nat.succ_mul]
    refine .bind (each a) fun b => ?_
    rw [Nat.add_comm]
    exact .bind (mapM each rest) fun bs => pure rfl

end Takes

/-- How often reading an input draws rows from a text. It is known exactly where no query is joined to it. -/
structure Input.Draws (text : String) (exact : Prop) (input : Input) (n : Nat) : Prop where
  alone : exact → input.fields.Alone
  is : ∀ keyed, AtLeast exact n ((aliased keyed [] input.relation).relation.draws text).toNat

theorem Input.Draws.ofCte (name : String) (fields : List ResultField) (location : Location) (filters : List Expr) :
    Draws text exact { Input.ofCte name fields location with filters } 0 where
  alone _ := (flat_ofResult _ _).alone
  is keyed := by
    unfold aliased
    split <;> exact .refl 0

theorem planUngroups_takes (frame : Frame) (ungroups : List Ungroup) :
    Takes text exact (ungroups.mapM (planUngroup frame)) 0 fun _ => 0 := by
  have each (u : Ungroup) : Takes text exact (planUngroup frame u) 0 fun _ => 0 := by
    intro s join s' run
    obtain ⟨name, mid, here, run⟩ := gives_bind.mp run
    obtain ⟨rfl, rfl⟩ := gives_define.mp here
    obtain ⟨rfl, rfl⟩ := gives_pure.mp run
    have apart (query : Sql.Query) : Sql.Cte.widens ⟨s!"__ungroup{s.counter}", query⟩ = true := by
      simp [Sql.Cte.widens, toString]
    have more := drawings_snoc text s.ctes ⟨s!"__ungroup{s.counter}", ungroupQuery frame u⟩
    rw [apart] at more
    exact more ▸ .refl _
  simpa using Takes.mapM each ungroups

def Grows (text : String) (p : Planner) : Prop := ∀ inner, Takes text False (p.plan inner) 0 (Sql.Query.draws text)

section Rows

variable (grows : Grows text p)

include grows

theorem sourceRelation_takes (sample : Option Sampling) (own : exact → ∀ inner, s.origin ≠ .query inner) :
    Takes text exact (sourceRelation p s sample) 0 fun _ => 0 := by
  unfold sourceRelation
  cases origin : s.origin with
  | table path connection =>
    cases sample with
    | none => exact .pure rfl
    | some sampling =>
      dsimp only
      split
      · exact .pure rfl
      · exact .fault
  | sql block =>
    cases sample with
    | none => exact .pure rfl
    | some sampling => exact .fault
  | query inner =>
    cases sample with
    | none =>
      have read : Takes text False (do return Sql.Relation.cte (← define "source" (← p.plan inner))) 0 fun _ => 0 :=
        .through (grows inner) fun query => .through (.define rfl (by decide)) fun _ => .pure rfl
      exact fun s a s' run => ⟨(read s a s' run).1, fun is => (own is inner origin).elim⟩
    | some sampling => exact .fault

theorem planJoin_takes (alone : exact → t.tree.root.Alone) (run : Gives (planJoin p t path) (c, s) join (c', s')) :
    AtLeast exact (drawings text s.ctes) (drawings text s'.ctes) := by
  obtain ⟨j, _, relation, found, _, read, _⟩ := planJoin_inv run
  obtain ⟨place, name, parent, _, within, here⟩ := joinFrom_inv found
  exact sourceRelation_takes grows none (fun is inner => alone is _ _ _ _ inner within here) _ _ _ read

theorem planFrame_takes (alone : exact → t.tree.root.Alone)
    (run : Gives (planFrame p t input conditions) (c, s) frame (c', s')) :
    AtLeast exact (drawings text s.ctes) (drawings text s'.ctes) ∧ ∃ keyed, frame.source = aliased keyed [] input.relation := by
  obtain ⟨filters, ⟨mid, done⟩, joins, first, second, rfl⟩ := planFrame_inv run
  obtain ⟨rfl, _⟩ := gives_mapM_each (P := fun state : Compilation × Progress => state.2 = s)
    first rfl fun e mem ⟨c₁, s₁⟩ x ⟨c₂, s₂⟩ holds step =>
      ⟨(gives_compiling.mp step).2.trans holds, trivial⟩
  obtain ⟨_, grown, _⟩ := gives_mapM (P := fun _ => True)
    (R := fun s s' : Compilation × Progress => AtLeast exact (drawings text s.2.ctes) (drawings text s'.2.ctes))
    (Q := fun _ _ _ => True) (fun _ => .refl _) AtLeast.trans (fun _ => id) second trivial
    fun path mem ⟨c₁, s₁⟩ join ⟨c₂, s₂⟩ _ step => ⟨trivial, planJoin_takes grows alone step, trivial⟩
  exact ⟨grown, _, rfl⟩

variable {r : Nat} (draws : input.Draws text exact r)

include draws

theorem planRows_takes (parents inherited : List Expr) (level : Level) :
    Takes text exact (planRows p input parents inherited level) r (Sql.Query.draws text) := by
  intro s query s' run
  obtain ⟨tree, parts, c, c', frame, mid, ungroups, isTree, _, framed, widened, rfl⟩ := planRows_inv run
  obtain ⟨grown, keyed, is⟩ := planFrame_takes grows (fun is => treeFor_root isTree ▸ draws.alone is) framed
  have drawn := draws.is keyed
  rw [← is] at drawn
  exact (grown.add drawn).trans ((planUngroups_takes frame c'.ungroups _ _ _ widened).add (.refl _))

theorem planIndexField_takes (weight : Expr) (filters : List Expr) (field : IndexField) :
    Takes text exact (planIndexField p input weight filters field) r (Sql.Query.drawn text) := by
  intro s query s' run
  obtain ⟨tree, _, _, _, _, _, _, _, _, _, frame, isTree, _, _, _, _, framed, rfl⟩ := planIndexField_inv run
  obtain ⟨grown, keyed, is⟩ := planFrame_takes grows (fun is => treeFor_root isTree ▸ draws.alone is) framed
  have drawn := draws.is keyed
  rw [← is] at drawn
  exact grown.add drawn

theorem planIndex_takes (fields : List IndexField) (weight : Option Expr) (restriction : Restriction) :
    Takes text exact (planIndex p input fields weight restriction) (fields.length * r) (Sql.Query.draws text) := by
  unfold planIndex
  split
  · exact .fault_bind
  · refine .through (.mapM (planIndexField_takes grows draws _ _) fields) fun parts => ?_
    exact .through (.define (Nat.zero_add _) (by decide)) fun name => .pure rfl

end Rows

theorem selectsIn_plain (plain : fields.any OutputField.isNest = false) : selectsIn fields = 0 := by
  induction fields with
  | nil => rw [selectsIn]
  | cons f rest ih =>
    rw [any_cons, Bool.or_eq_false_iff] at plain
    cases f with
    | dimension | measure => rw [selectsIn, OutputField.selects, ih plain.2]
    | nest n => cases plain.1

theorem planCollect_takes (grows : Grows text p) (draws : e.input.Draws text exact r) (level : Level)
    (planned : Takes text exact columns n fun _ => 0) :
    Takes text exact (planCollect p e level columns) (n + r) (Sql.Query.draws text) := by
  refine .bind (planRows_takes grows draws e.parents e.inherited level) fun query => ?_
  exact .bind (.define rfl (by decide)) fun name => .through planned fun items => .pure rfl

theorem numbered_takes (grows : Grows text p) (draws : e.input.Draws text exact r)
    (planned : Takes text exact columns n fun _ => 0) (limit : Option Nat) :
    Takes text exact (do return (⟨← defineNumbered p e level (← planCollect p e level columns), limit⟩ : NestRows))
      (n + r) fun _ => 0 :=
  .through (planCollect_takes grows draws level planned) fun _ => .through (.define rfl (by decide)) fun _ => .pure rfl

theorem nestItem_takes (keyColumns : List String) (position : Nat) (n : Nest) (rows : NestRows) :
    Takes text exact (nestItem p keyColumns position n rows) 0 fun _ => 0 := by
  rw [nestItem_eq]
  cases nestColumn p.dialect keyColumns position n rows with
  | ok item => exact .pure rfl
  | error => exact .fault

mutual

theorem planColumns_takes (grows : Grows text p) (draws : e.input.Draws text exact r) (level : Level) :
    ∀ (position : Nat) (fields : List OutputField),
      Takes text exact (planColumns p e level position fields) (selectsIn fields * r) fun _ => 0
  | _, [] => by
    exact .pure (by rw [selectsIn, Nat.zero_mul])
  | position, field :: rest => by
    rw [selectsIn, Nat.add_mul, Nat.add_comm (field.selects * r)]
    refine .bind (planColumn_takes grows draws level position field) fun item => ?_
    exact .through (planColumns_takes grows draws level (position + 1) rest) fun items => .pure rfl

theorem planColumn_takes (grows : Grows text p) (draws : e.input.Draws text exact r) (level : Level)
    (position : Nat) : ∀ field : OutputField,
      Takes text exact (planColumn p e level position field) (field.selects * r) fun _ => 0
  | .dimension f | .measure f => by
    exact .pure (by rw [OutputField.selects, Nat.zero_mul])
  | .nest n => by
    exact .through (planNest_takes (e := e.within level) grows draws n) fun rows => nestItem_takes _ position n rows

theorem planNest_takes (grows : Grows text p) (draws : e.input.Draws text exact r) :
    ∀ n : Nest, Takes text exact (planNest p e n) (n.selects * r) fun _ => 0
  | ⟨_, [], _⟩ => by
    exact .fault
  | ⟨name, first :: rest, location⟩ => by
    exact .through (planNestStage_takes grows draws name first) fun rows =>
      planNestStages_takes grows e.parents.length name location first rows rest

theorem planNestStages_takes (grows : Grows text p) (parents : Nat) (name : String) (location : Location) :
    ∀ (previous : Stage) (rows : NestRows) (rest : List Stage),
      Takes text exact (planNestStages p parents name location previous rows rest) 0 fun _ => 0
  | _, _, [] => by
    exact .pure rfl
  | previous, rows, stage :: rest => by
    have draws : (chainedInput rows.cte parents previous location).Draws text exact 0 := .ofCte _ _ _ _
    exact .through (planNestStage_takes (e := ⟨_, _, _⟩) grows draws name stage) fun rows =>
      planNestStages_takes grows parents name location stage rows rest

theorem planNestStage_takes (grows : Grows text p) (draws : e.input.Draws text exact r) (name : String) :
    ∀ stage : Stage,
      Takes text exact (planNestStage p e name stage) (stage.selects * r) fun _ => 0
  | .reduce fields having orderBy restriction => by
    rw [Stage.selects, Nat.add_mul, Nat.one_mul]
    exact numbered_takes grows draws (planColumns_takes grows draws _ 0 fields) _
  | .project fields orderBy restriction => by
    rw [Stage.selects, Nat.add_mul, Nat.one_mul]
    exact numbered_takes grows draws (planColumns_takes grows draws _ 0 fields) _
  | .index _ _ _ => by
    exact .fault

end

section Stages

variable {r : Nat} (grows : Grows text p) (draws : input.Draws text exact r)

include grows draws

theorem planLevel_takes (level : Level) :
    Takes text exact (planLevel p input level) ((selectsIn level.fields + 1) * r) (Sql.Query.draws text) := by
  unfold planLevel
  rw [Nat.add_mul, Nat.one_mul]
  split
  · exact .through (planCollect_takes grows draws level
      (planColumns_takes grows draws level 0 level.fields)) fun query => .pure rfl
  · next plain =>
    rw [selectsIn_plain (by simpa [Level.hasNests] using plain), Nat.zero_mul, Nat.zero_add]
    exact .through (planRows_takes grows draws [] [] level) fun query => .pure rfl

theorem planStage_takes (stage : Stage) :
    Takes text exact (planStage p input stage) (stage.selects * r) (Sql.Query.draws text) := by
  cases stage with
  | reduce fields having orderBy restriction =>
    exact planLevel_takes grows draws _
  | project fields orderBy restriction =>
    exact planLevel_takes grows draws _
  | index fields weight restriction =>
    exact planIndex_takes grows draws fields weight restriction

end Stages

theorem planStages_takes (grows : Grows text p) (location : Location) : ∀ {rest : List Stage} {first : Stage}
    {input : Input} {r : Nat}, input.Draws text exact r →
      Takes text exact (planStages p location input (first :: rest)) (first.selects * r) (Sql.Query.draws text)
  | [], _, _, _, draws => planStage_takes grows draws _
  | next :: rest, first, input, r, draws => by
    rw [planStages]
    · refine .through (planStage_takes grows draws first) fun query => .through (.define rfl (by decide)) fun name => ?_
      exact planStages_takes grows location (.ofCte name first.outputSchema location [])
    · exact fun single => cons_ne_nil next rest single

theorem planPipeline_inv (stages : q.stages = first :: rest) (run : Gives (planPipeline p q) s query s') :
    ∃ relation mid, Gives (sourceRelation p q.source first.sample) s relation mid ∧
      Gives (planStages p q.location ⟨relation, q.source.fields, q.source.primaryKey,
        q.source.filters.map Filter.expr⟩ (first :: rest)) mid query s' := by
  unfold planPipeline at run
  rw [stages] at run
  obtain ⟨input, mid, first, run⟩ := gives_bind.mp run
  obtain ⟨relation, _, read, same⟩ := gives_bind.mp first
  obtain ⟨rfl, rfl⟩ := gives_pure.mp same
  exact ⟨relation, mid, read, run⟩

theorem planWithin_grows (text : String) (d : Dialect) :
    ∀ depth, Grows text ⟨d, planWithin d depth⟩
  | 0, _ => .fault
  | depth + 1, q => by
    intro s query s' run
    cases stages : q.stages with
    | nil =>
      unfold planWithin planPipeline at run
      rw [stages] at run
      exact (not_gives_fault run).elim
    | cons first rest =>
      obtain ⟨relation, mid, read, run⟩ := planPipeline_inv stages run
      have grows := planWithin_grows text d depth
      have source : AtLeast False (drawings text s.ctes) (drawings text mid.ctes) :=
        sourceRelation_takes grows first.sample False.elim s relation mid read
      exact source.trans (planStages_takes grows q.location
        ⟨False.elim, fun _ => ⟨Nat.zero_le _, False.elim⟩⟩ mid query s' run)

theorem sampledRelation_inv (run : Gives (sourceRelation p source (some sampling)) s relation s') :
    ∃ path connection text,
      source.origin = .table path connection ∧ p.dialect.sample (p.dialect.quoteTablePath path) sampling = .ok text ∧
        relation = .raw text ∧ s' = s := by
  unfold sourceRelation at run
  cases origin : source.origin with
  | table path connection =>
    rw [origin] at run
    dsimp only at run
    split at run
    · next text is => exact ⟨path, connection, text, rfl, is, gives_pure.mp run⟩
    · exact (not_gives_fault run).elim
  | query | sql =>
    rw [origin] at run
    exact (not_gives_fault run).elim

/-- The queries of a `WITH` list are widened aggregates and others. -/
theorem drawings_add_widened (text : String) (ctes : List Sql.Cte) : (ctes.map fun c => c.query.draws text).sum =
    drawings text ctes + ((ctes.filter Sql.Cte.widens).map fun c => c.query.draws text).sum := by
  induction ctes with
  | nil => rfl
  | cons c rest ih =>
    unfold drawings at ih ⊢
    cases h : c.widens <;> simp [h] <;> omega

end Plan

/-- Every `SELECT` that the first stage of a query is compiled to draws its own sample: the rows of the stage, those
of each nest in it, its widened aggregates and its indexed fields. -/
theorem every_select_samples {q : Query} {first : Stage} {rest : List Stage} (stages : q.stages = first :: rest)
    {sampling : Sampling} (sampled : first.sample = some sampling) {d : Dialect} {limit : Option Nat}
    {statement : Sql.Query} (planned : q.plan d limit = .ok statement) :
    ∃ path connection text, q.source.origin = .table path connection ∧
      d.sample (d.quoteTablePath path) sampling = .ok text ∧
      first.selects + statement.widenedSamples text ≤ statement.samples text ∧
      (Namespace.Alone q.source.fields → statement.samples text = first.selects + statement.widenedSamples text) := by
  obtain ⟨⟨select, progress⟩, run, same⟩ := bind_eq_ok planned
  cases same
  cases h : q.depth with
  | zero => rw [h] at run; cases run
  | succ depth =>
    rw [h] at run
    obtain ⟨relation, mid, read, later⟩ := Plan.planPipeline_inv stages run
    rw [sampled] at read
    obtain ⟨path, connection, text, origin, is, rfl, rfl⟩ := Plan.sampledRelation_inv read
    have draws : Plan.Input.Draws text (Namespace.Alone q.source.fields) ⟨.raw text, q.source.fields,
        q.source.primaryKey, q.source.filters.map Filter.expr⟩ 1 := by
      refine ⟨id, fun keyed => ?_⟩
      unfold Plan.aliased
      split <;> simp [Sql.Relation.draws, Plan.withKey, Plan.AtLeast]
    obtain ⟨least, only⟩ : Plan.AtLeast (Namespace.Alone q.source.fields) (0 + first.selects * 1)
        (Plan.drawings text progress.ctes + select.draws text) :=
      Plan.planStages_takes (Plan.planWithin_grows text d depth) q.location draws _ _ _ later
    have all : Sql.Query.samples text { select with ctes := progress.ctes, limit := select.limit.or limit } =
        Plan.drawings text progress.ctes + Sql.Query.widenedSamples text { select with ctes := progress.ctes } +
          select.draws text := congrArg (· + select.draws text) (Plan.drawings_add_widened text progress.ctes)
    refine ⟨path, connection, text, origin, is, ?_, fun alone => ?_⟩
    · rw [all]
      change _ + Sql.Query.widenedSamples text { select with ctes := progress.ctes } ≤ _
      omega
    · have only := only alone
      rw [all]
      change _ = _ + Sql.Query.widenedSamples text { select with ctes := progress.ctes }
      omega

namespace Elaborate

def busyRoutes : Document.Statement :=
  .query none ⟨.source (.table none "flights" default),
    [.stage ⟨[.index [.reference ⟨["carrier"], default⟩ [], .reference ⟨["origin"], default⟩ []] none,
      .sample (.rows 10) default], default⟩], default⟩ default

def busyRoutesQuery : Query :=
  let location : Location := ⟨"file:///flights.model", default⟩
  ⟨none, ⟨"flights", .table "flights" none,
      Namespace.ofColumns [⟨"carrier", .string⟩, ⟨"origin", .string⟩] location, none, [], location⟩,
    [.index [⟨["carrier"], .string⟩, ⟨["origin"], .string⟩] none ⟨[], none, some (.rows 10)⟩], location⟩

theorem busyRoutes_recorded : (document flights ⟨[busyRoutes]⟩).Records busyRoutesQuery := by
  have queries : (document flights ⟨[busyRoutes]⟩).queries = [.ok busyRoutesQuery] := by cbv
  exact .inr (queries ▸ mem_cons_self)

def busyRoutesSample : String :=
  "SELECT * FROM " ++ Dialect.quoteTablePath .duckdb "flights" ++ " USING SAMPLE " ++ toString 10 ++ " ROWS"

def busyRoutesStatement : Sql.Query :=
  let rows (name : String) : Sql.Query :=
    { Sql.Query.empty with
      items := [.named (.string name) "fieldPath", .named (.plainCast (.ofTable "base" name) "VARCHAR") "fieldValue",
        .named (.fn "COUNT" [.int 1]) "weight"]
      source := some ⟨.raw busyRoutesSample, some "base"⟩
      condition := some (Sql.Expr.isNotNull (.ofTable "base" name)), groupBy := [.ofTable "base" name] }
  { Sql.Query.empty with
    ctes := [⟨"__index0", { Sql.Query.empty with unions := [rows "carrier", rows "origin"] }⟩]
    items := [⟨.ofColumn "fieldPath", none⟩, ⟨.ofColumn "fieldValue", none⟩, ⟨.ofColumn "weight", none⟩]
    source := some ⟨.cte "__index0", none⟩, orderBy := [⟨.ofColumn "weight", .desc, some .last⟩] }

theorem busyRoutes_planned : busyRoutesQuery.plan .duckdb none = .ok busyRoutesStatement := rfl

theorem busyRoutes_sampled : busyRoutesQuery.plan .duckdb none = .ok busyRoutesStatement ∧
    ∃ path connection text, busyRoutesQuery.source.origin = .table path connection ∧
      Dialect.sample .duckdb (Dialect.quoteTablePath .duckdb path) (.rows 10) = .ok text ∧
      busyRoutesStatement.samples text = 2 + busyRoutesStatement.widenedSamples text := by
  obtain ⟨path, connection, text, origin, is, _, only⟩ := every_select_samples rfl rfl busyRoutes_planned
  exact ⟨busyRoutes_planned, path, connection, text, origin, is, only (flat_ofColumns _ _).alone⟩

/-- The two columns are taken from different samples. -/
theorem busyRoutes_sampled_twice : Built (document flights ⟨[busyRoutes]⟩) ∧
    (document flights ⟨[busyRoutes]⟩).Records busyRoutesQuery ∧
    busyRoutesQuery.plan .duckdb none = .ok busyRoutesStatement ∧
    Dialect.sample .duckdb (Dialect.quoteTablePath .duckdb "flights") (.rows 10) = .ok busyRoutesSample ∧
    busyRoutesStatement.samples busyRoutesSample = 2 := by
  refine ⟨.document _ _ nofun, busyRoutes_recorded, busyRoutes_planned, rfl, ?_⟩
  simp [Sql.Query.samples, Sql.Query.draws, Sql.Query.drawn, busyRoutesStatement, Sql.Query.empty, Sql.Relation.draws]

end Elaborate

end SemanticLayer
