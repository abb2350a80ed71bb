import SemanticLayer.Elaborate.Stage
import SemanticLayer.Proofs.Elaborate.Levels
import SemanticLayer.Proofs.Model.Reach

/-!
Elaborated stages are sound over the fields of their input, and a fault that comes out of them without
being a fault of their own echoes a name that one of them declares.
-/
namespace SemanticLayer.Elaborate

open List hiding filter span

open Memo

/-- A fault of its own, or the echo of one of some names. -/
def EchoesOne (names : List String) (fault : Fault) : Prop :=
  fault.isOwn = true ∨ ∃ name ∈ names, fault = .invalidReference name

theorem echoesOne_mono (subset : names ⊆ more) (echoes : EchoesOne names fault) : EchoesOne more fault := by
  refine echoes.imp_right ?_
  rintro ⟨name, mem, same⟩
  exact ⟨name, subset mem, same⟩

variable {α β : Type}

abbrev Gets (names : List String) (result : Except LocatedFault α) (post : α → Prop) : Prop :=
  Yields (fun f => EchoesOne names f.fault) result post

theorem Gets.mono {result : Except LocatedFault α} {post : α → Prop} (first : Gets names result post)
    (subset : names ⊆ more) : Gets more result post :=
  first.weaken (fun _ => echoesOne_mono subset) fun _ h => h

theorem ensures_liftExcept {σ : Type} {D : Discipline σ} {s : σ} {result : Except LocatedFault α} {post : α → Prop}
    (gets : Gets names result post) :
    Ensures (D.admitting (EchoesOne names)) s (liftExcept result) fun _ => post := by
  cases result with
  | ok a => exact ensures_pure gets
  | error f => exact ensures_throw (.inr gets)

mutual

def propertyNames (p : Document.StageProperty) : List String :=
  (declared p).map (fun decl => decl.name.node) ++
    match p with
    | .nest entries => nestsNames entries
    | _ => []

def blockNames : List Document.StageProperty → List String
  | [] => []
  | p :: rest => propertyNames p ++ blockNames rest

def nestsNames : List Document.NestItem → List String
  | [] => []
  | entry :: rest => nestNames entry ++ nestsNames rest

def nestNames : Document.NestItem → List String
  | .reference _ refinement => refinementNames refinement
  | .define _ pipeline _ => pipelineNames pipeline

def refinementNames : Option Document.StageBlock → List String
  | none => []
  | some ⟨block, _⟩ => blockNames block

def pipelineNames : List Document.PipeElement → List String
  | [] => []
  | element :: rest => elementNames element ++ pipelineNames rest

def elementNames : Document.PipeElement → List String
  | .stage ⟨block, _⟩ => blockNames block
  | .view _ refinement => refinementNames refinement

end

/-- The judgement on levels over a namespace, whatever is recorded. -/
def stageLevels (input : Namespace) : Judgement Keeps :=
  levels (fun _ => (Names.of input).level) (Names.of input).joins (Names.of input).columns rfl fun _ h => h

/-- A block of a stage: its declarations are inlined, and it starts from leveled expressions. -/
structure Scope.Staged (s : Scope) (known : Memo) : Prop where
  inlining : s.inlining = true
  leveled : ∀ {name t}, known.lookup name = some (.ok t) → Leveled (Names.of s.root) t
  faultless : ∀ {name f}, known.lookup name ≠ some (.error f)

theorem reference_refers {s : Scope} {t : Typed} (leveled : Leveled n t) (base : n.joins [] = true)
    (level : ((s.reference t).inline.getD (.field path)).level? n = some t.level) :
    Refers n path (s.reference t) := by
  refine ⟨fun l hl => ?_, fun p mem => ?_, fun source h => ?_⟩
  · rw [level]
    cases h : t.level <;>
      simp [Scope.reference, Typed.isAggregate, Level.isAggregate, h, shapeLevel?] at hl <;> rw [hl]
  · unfold Reference.paths at mem
    split at mem
    · cases mem_singleton.mp mem
      exact base
    · exact leveled.reads p mem
  · simp only [Scope.reference] at h
    split at h <;> cases h

theorem staged_judges {s : Scope} (staged : s.Staged known) :
    s.Judges (stageLevels s.root) known where
  root _ _ h := refer_refers h
  declared _ _ leveled := reference_refers leveled rfl (by
    rw [Scope.reference, if_pos staged.inlining]
    exact leveled.level)
  good := staged.leveled
  faultless := staged.faultless

abbrev stageDiscipline (s : Scope) (known : Memo) (names : List String) : Discipline Memo :=
  (s.discipline (stageLevels s.root).Good known []).admitting (EchoesOne names)

abbrev Stages (s : Site) (known : Memo) (names : List String) (memo : Memo) (action : M Memo α) (post : α → Prop) :
    Prop :=
  Ensures (stageDiscipline s.scope known names) memo action fun _ => post

/-- The items of a list that declare a name declare one that is known in the block. -/
def Covers (s : Site) (decls : List Document.FieldDecl) : Prop :=
  ∀ decl ∈ decls, (s.scope.declaration? decl.name.node).isSome

section Site

variable {s : Site} {known memo : Memo} {names : List String}

theorem located_stages {result : Except Fault α} {post : α → Prop} (own : Own result post) :
    Stages s known names memo (s.located span result) post :=
  ensures_own s.scope.context own

theorem wildcard_own (sound : FieldsSound input) (path : List String) : Own (wildcard input path) fun found =>
    ∀ entry ∈ found, (Names.of input).level (path ++ [entry.1]) = some .scalar := by
  have leads : Own (wildcardNamespace input path) fun ns => input.within? path = some ns := by
    unfold wildcardNamespace
    split
    · next empty =>
      rw [List.isEmpty_iff.mp empty]
      rfl
    · refine (refer_own _ _).bind fun r hr => ?_
      split
      · next source shape => exact refer_join hr shape
      · rfl
  refine leads.bind fun ns within entry mem => ?_
  obtain ⟨slot, visible, named⟩ := mem_filterMap.mp mem
  have found := Slots.lookup?_of_mem (sound.within within).distinct (mem_filter.mp visible).1
  cases hf : slot.field <;> rw [hf] at named <;> cases named
  show (input.field? (path ++ [slot.name])).bind FieldDef.level? = _
  rw [Namespace.field?_snoc, within]
  simp [found, hf, FieldDef.level?]

theorem indexItem_ensures (sound : FieldsSound s.input) (item : Document.QueryItem) :
    Stages s known names memo (indexItem s item) fun fields =>
      ∀ f ∈ fields, (Names.of s.input).level f.path = some .scalar := by
  cases item with
  | reference path filters =>
    refine ensures_bind (located_stages (refer_own _ _)) fun later r _ refers => ?_
    split
    · next shape => exact ensures_pure (by simpa using refer_dimension refers shape)
    · exact ensures_throw (.inl (.inl rfl))
  | wildcard path span =>
    refine ensures_bind (located_stages (wildcard_own sound path)) fun later found _ leveled => ?_
    refine ensures_pure fun f mem => ?_
    obtain ⟨entry, given, rfl⟩ := mem_map.mp mem
    exact leveled entry given
  | define decl => exact ensures_throw (.inl (.inl rfl))

variable (staged : s.scope.Staged known)

include staged

theorem typed_staged (e : Document.Expr) :
    Stages s known names memo (s.scope.typed e) (Leveled (Names.of s.input)) :=
  ensures_admitting (typed_ensures (staged_judges staged) e)

theorem resolve_staged (declared : (s.scope.declaration? name).isSome) :
    Stages s known names memo (s.scope.resolve name) (Leveled (Names.of s.input)) :=
  ensures_admitting (leaves_weaken (resolve_ensures (staged_judges staged) declared) fun _ _ _ _ h => h.1)

theorem stageItem_ensures (wanted : Level) (item : Document.QueryItem) (covers : Covers s (definitions [item])) :
    Stages s known names memo (stageItem s wanted item) fun f =>
      f.expr.level? (Names.of s.input) = some wanted := by
  cases item with
  | reference path filters =>
    refine ensures_bind (typed_staged staged _) fun later t _ leveled => ?_
    exact ensures_guard rfl fun same => ensures_pure (leveled.level.trans (by simpa using same))
  | define decl =>
    refine ensures_bind (resolve_staged staged (covers decl (by simp [definitions]))) fun later t _ leveled => ?_
    exact ensures_guard rfl fun same => ensures_pure (leveled.level.trans (by simpa using same))
  | wildcard path span => exact ensures_throw (.inl (.inl rfl))

theorem projectItem_ensures (sound : FieldsSound s.input) (item : Document.QueryItem)
    (covers : Covers s (definitions [item])) :
    Stages s known names memo (projectItem s item) fun fields =>
      ∀ f ∈ fields, ∃ x, f = .dimension x ∧ x.expr.level? (Names.of s.input) = some .scalar := by
  cases item with
  | wildcard path span =>
    refine ensures_bind (located_stages (wildcard_own sound path)) fun later found _ leveled => ?_
    refine ensures_pure fun f mem => ?_
    obtain ⟨entry, given, rfl⟩ := mem_map.mp mem
    exact ⟨_, rfl, by rw [Expr.level?]; exact leveled entry given⟩
  | reference _ _ | define _ =>
    refine ensures_map (stageItem_ensures staged .scalar _ covers) fun later x leveled => ?_
    simpa using leveled

theorem indexWeight_ensures (name : Document.Name) : Stages s known names memo (indexWeight s name) fun e =>
    e.level? (Names.of s.input) = some .aggregate := by
  refine ensures_bind (typed_staged staged _) fun later t _ leveled => ?_
  refine ensures_guard rfl fun aggregate => ensures_pure ?_
  rw [leveled.level, aggregate_of (by simpa using aggregate)]

theorem condition_ensures (filter : Document.Expr) : Stages s known names memo (condition s filter) fun found =>
    found.1.expr.level? (Names.of s.input) = some found.2 := by
  refine ensures_bind (typed_staged staged _) fun later t _ leveled => ?_
  exact ensures_guard rfl fun _ => ensures_pure leveled.level

end Site

/-- A nest without an index or a sample among its stages, at any depth. -/
inductive Plain : Nest → Prop where
  | mk (plain : ∀ stage ∈ n.stages, stage.kind ≠ .index ∧ stage.sample = none)
      (inner : ∀ stage ∈ n.stages, ∀ x ∈ stage.nests, Plain x) : Plain n

structure OutputBuilt (n : Names) (f : OutputField) : Prop where
  sound : OutputSound n f
  nest : ∀ x ∈ f.nest?, Plain x

/-- Groups without an order are those that have no default one. -/
def Defaulted : Stage → Prop
  | .reduce fields _ orderBy _ => orderBy = [] → defaultOrder fields = []
  | _ => True

/-- A sound stage with plain nests. `sampled` is what a sample asks for. -/
structure StageBuilt (n : Names) (sampled : Prop) (stage : Stage) : Prop where
  sound : StageSound n stage
  sample : stage.sample.isSome = true → sampled
  nests : ∀ x ∈ stage.nests, Plain x
  settled : Defaulted stage

/-- Stages of which at most the first one reads a sample. -/
inductive Calm : Prop → List Stage → Prop where
  | nil : Calm sampled []
  | cons {sampled : Prop} {stage : Stage} {rest : List Stage} (sample : stage.sample.isSome = true → sampled)
      (nests : ∀ x ∈ stage.nests, Plain x) (later : Calm False rest) (settled : Defaulted stage) :
      Calm sampled (stage :: rest)

structure StagesBuilt (n : Names) (sampled : Prop) (stages : List Stage) : Prop where
  sound : StagesSound n stages
  calm : Calm sampled stages

theorem Calm.mono (calm : Calm sampled stages) (weaker : sampled → other) : Calm other stages := by
  cases calm with
  | nil => exact .nil
  | cons sample nests later settled => exact .cons (fun h => weaker (sample h)) nests later settled

theorem Calm.starts (calm : Calm sampled stages) (starts : startsSampled stages = true) : sampled := by
  cases calm with
  | nil => cases starts
  | cons sample => exact sample starts

theorem Calm.nests (calm : Calm sampled stages) (mem : stage ∈ stages) : ∀ x ∈ stage.nests, Plain x := by
  induction calm with
  | nil => cases mem
  | cons _ nests _ _ ih =>
    rcases mem_cons.mp mem with rfl | mem
    · exact nests
    · exact ih mem

/-- A draft from which only sound stages come. -/
structure DraftSound (n : Names) (sampled : Prop) (d : Draft) : Prop where
  outputs : ∀ f ∈ d.fields, OutputBuilt n f
  listed : d.kind ≠ some .reduce → ∀ f ∈ d.fields, ∃ x, f = .dimension x
  indexed : ∀ f ∈ d.indexFields, n.level f.path = some .scalar
  weights : ∀ e ∈ d.weight, e.level? n = some .aggregate
  groups : ∀ f ∈ d.having, f.expr.level? n = some .aggregate
  rows : ∀ f ∈ d.restriction.filters, f.expr.level? n = some .scalar
  sampled : d.restriction.sample.isSome = true → sampled
  sorted : Sorted d.fields d.orderBy

def Draft.schema (d : Draft) : List ResultField :=
  match d.kind with
  | some .index => indexSchema
  | _ => outputFieldSchemas d.fields

section Drafts

variable {n : Names} {sampled : Prop} {d : Draft}

theorem draft_empty : DraftSound n sampled .empty := by
  constructor <;> simp [Draft.empty, Sorted]

theorem draft_ofStage (built : StageBuilt n sampled stage) : DraftSound n sampled (.ofStage stage) := by
  obtain ⟨sound, sample, nests, _⟩ := built
  have empty : DraftSound n sampled .empty := draft_empty
  have output {f : OutputField} (mem : f ∈ stage.outputs) (sound : OutputSound n f) : OutputBuilt n f :=
    ⟨sound, fun x is => nests x (mem_filterMap.mpr ⟨f, mem, is⟩)⟩
  cases sound with
  | reduce _ _ outputs groups rows sorted =>
    exact { empty with
      outputs := fun f mem => output mem (outputs f mem), listed := fun other => (other rfl).elim, groups, rows
      sampled := sample, sorted }
  | project _ _ outputs dimensions rows sorted =>
    exact { empty with
      outputs := fun f mem => output mem (outputs f mem), listed := fun _ => dimensions, rows, sampled := sample
      sorted }
  | index _ indexed weights rows =>
    exact { empty with
      listed := fun _ => empty.listed (by simp [Draft.empty]), indexed, weights, rows, sampled := sample }

theorem schema_ofStage (stage : Stage) : (Draft.ofStage stage).schema = stage.outputSchema := by
  cases stage <;> simp [Draft.ofStage, Draft.schema, Stage.outputSchema]

section

variable (sound : DraftSound n sampled d)

include sound

theorem ofKind_own (kind : StageKind) :
    Own (d.ofKind kind) fun d' => DraftSound n sampled d' ∧ d'.kind = some kind := by
  unfold Draft.ofKind
  split
  · next existing same =>
    split
    · next agree => exact ⟨sound, by rw [same, agree]⟩
    · rfl
  · next fresh => exact ⟨{ sound with listed := fun _ => sound.listed (by simp [fresh]) }, rfl⟩

theorem addFields_sound (outputs : ∀ f ∈ fields, OutputBuilt n f)
    (listed : d.kind ≠ some .reduce → ∀ f ∈ fields, ∃ x, f = .dimension x) :
    DraftSound n sampled (d.addFields fields) :=
  { sound with
    outputs := fun f mem => (mem_append.mp mem).elim (sound.outputs f) (outputs f)
    listed := fun other f mem => (mem_append.mp mem).elim (sound.listed other f) (listed other f)
    sorted := fun o mem => by
      obtain ⟨f, given, plain, named⟩ := sound.sorted o mem
      exact ⟨f, mem_append_left _ given, plain, named⟩ }

theorem addFilter_sound (scalar : filter.expr.level? n = some .scalar) :
    DraftSound n sampled (d.addFilter filter) :=
  { sound with
    rows := fun f mem => (mem_append.mp mem).elim (sound.rows f) fun here => mem_singleton.mp here ▸ scalar }

theorem addHaving_sound (aggregate : filter.expr.level? n = some .aggregate) :
    DraftSound n sampled (d.addHaving filter) :=
  { sound with
    groups := fun f mem =>
      (mem_append.mp mem).elim (sound.groups f) fun here => mem_singleton.mp here ▸ aggregate }

theorem withLimit_sound : DraftSound n sampled (d.withLimit limit) :=
  { sound with }

end

theorem samplingOf_own (spec : Document.SampleSpec) : Own (samplingOf spec) fun _ => True := by
  cases spec with
  | enabled _ | rows _ => trivial
  | percent share =>
    simp only [samplingOf]
    split
    · trivial
    · rfl

theorem repeated?_none : repeated? fields = none ↔ (fields.map OutputField.name).Nodup := by
  have go (fields : List OutputField) (seen : List String) : repeated?.go seen fields = none ↔
      (fields.map OutputField.name).Nodup ∧ ∀ f ∈ fields, f.name ∉ seen := by
    induction fields generalizing seen with
    | nil => simp [repeated?.go]
    | cons first rest ih =>
      simp only [repeated?.go, contains_iff_mem, forall_mem_cons]
      split
      · next given => simp [given]
      · next fresh =>
        grind
  simp [repeated?, go]

theorem orderEntry_own (fields : List OutputField) (fallback : SortDirection) (item : Document.OrderByItem) :
    Own (orderEntry fields fallback item) fun entry => ∃ f ∈ fields, f.isNest = false ∧ f.name = entry.field := by
  have target : Own (orderTarget fields item.field) (· ∈ fields) := by
    unfold orderTarget
    split
    · split
      · next found => exact List.mem_of_find?_eq_some found
      · rfl
    · split
      · rfl
      · split
        · next found => exact mem_of_getElem? found
        · rfl
  refine target.bind fun f mem => ?_
  split
  · rfl
  · next plain => exact ⟨f, mem, by simpa using plain, rfl⟩

theorem defaultOrder_sorted (fields : List OutputField) : Sorted fields (defaultOrder fields) := by
  intro o mem
  unfold defaultOrder at mem
  dsimp only at mem
  split at mem
  · next f found =>
    cases mem_singleton.mp mem
    rcases Option.or_eq_some_iff.mp found with found | ⟨_, found⟩
    all_goals
      have kind := List.find?_some found
      refine ⟨f, List.mem_of_find?_eq_some found, ?_, rfl⟩
      cases f <;> first | rfl | cases kind
  · split at mem
    · next f found =>
      cases mem_singleton.mp mem
      exact ⟨f, List.mem_of_find?_eq_some found, by simpa using List.find?_some found, rfl⟩
    · cases mem

theorem stage_sound (sound : DraftSound n sampled d) (distinct : (d.fields.map OutputField.name).Nodup)
    (known : d.kind = some kind) : Yields (fun _ => True) (d.stage kind) fun stage =>
      StageBuilt n sampled stage ∧ stage.outputSchema = d.schema := by
  have outputs (f) (mem : f ∈ d.fields) : OutputSound n f := (sound.outputs f mem).sound
  have nests {x : Nest} (mem : x ∈ d.fields.filterMap OutputField.nest?) : Plain x := by
    obtain ⟨f, given, is⟩ := mem_filterMap.mp mem
    exact (sound.outputs f given).nest x is
  cases kind <;> simp only [Draft.stage]
  case reduce =>
    split
    · trivial
    · next nonempty =>
      refine ⟨⟨.reduce (by simpa using nonempty) distinct outputs sound.groups sound.rows ?_, sound.sampled,
        fun _ => nests, ?_⟩, ?_⟩
      · split
        · exact defaultOrder_sorted d.fields
        · exact sound.sorted
      · cases empty : d.orderBy <;> simp [Defaulted]
      · simp [Stage.outputSchema, Draft.schema, known]
  case project =>
    split
    · trivial
    · split
      · trivial
      · next nonempty =>
        refine ⟨⟨.project (by simpa using nonempty) distinct outputs ?_ sound.rows sound.sorted, sound.sampled,
          fun _ => nests, trivial⟩, ?_⟩
        · exact sound.listed (by rw [known]; simp)
        · simp [Stage.outputSchema, Draft.schema, known]
  case index =>
    split
    · trivial
    · split
      · trivial
      · next nonempty =>
        refine ⟨⟨.index (by simpa using nonempty) sound.indexed sound.weights sound.rows, sound.sampled,
          by simp [Stage.nests, Stage.outputs], trivial⟩, ?_⟩
        simp [Stage.outputSchema, Draft.schema, known]

theorem finish_gets (url : String) (properties : List Document.StageProperty) (span : Span)
    (sound : DraftSound n sampled d) :
    Gets [] (finish url properties span d) fun stage =>
      StageBuilt n sampled stage ∧ stage.outputSchema = d.schema := by
  unfold finish
  cases known : d.kind with
  | none => exact .inl rfl
  | some kind =>
    cases unrepeated : repeated? d.fields with
    | some field => exact .inl rfl
    | none =>
      refine Yields.bind rfl ?_
      rintro _ rfl
      simp only
      split
      · exact .inl rfl
      · refine Yields.bind (Q := Sorted d.fields) (Yields.mapM _ fun item => ?_) fun orderBy sorted => ?_
        · have own := orderEntry_own d.fields (fallbackDirection properties) item
          split
          · next is => exact own.value is
          · next is => exact .inl (own.fault is)
        have sound' : DraftSound n sampled { d with orderBy } := { sound with sorted }
        cases (orderItems properties).isEmpty with
        | true =>
          have built := stage_sound sound (repeated?_none.mp unrepeated) known
          split
          · next is => exact built.value is
          · exact .inl rfl
        | false =>
          have built := stage_sound sound' (repeated?_none.mp unrepeated) known
          split
          · next is => exact built.value is
          · exact .inl rfl

end Drafts

theorem declarations_gets (url : String) (input : Namespace) (known : Memo)
    (properties : List Document.StageProperty) :
    Gets [] (declarations url input known properties) fun decls => decls = properties.flatMap declared := by
  have all : ∀ (decls earlier : List Document.FieldDecl),
      Gets [] (decls.foldlM (fun earlier decl =>
        if earlier.any (fun d => d.name.node == decl.name.node) || (known.lookup decl.name.node).isSome ||
          input.contains decl.name.node
        then .error ⟨.duplicateName decl.name.node, ⟨url, decl.name.span⟩⟩
        else .ok (earlier ++ [decl])) earlier : Except LocatedFault _) fun found => found = earlier ++ decls := by
    intro decls
    induction decls with
    | nil => exact fun earlier => (append_nil earlier).symm
    | cons decl rest ih =>
      intro earlier
      rw [foldlM_cons]
      split
      · exact .inl rfl
      · refine Yields.bind rfl ?_
        rintro _ rfl
        exact (ih _).weaken (fun _ h => h) fun found h => by simpa using h
  exact all _ []

theorem staged_gets {action : M Memo α} {post : α → Prop} (staged : s.Staged known)
    (ensures : Ensures (stageDiscipline s known names) known action fun _ => post) :
    Gets (s.declaredNames ++ names) (action.run.run known).1 post := by
  obtain ⟨holds, _, yields⟩ := ensures ⟨.known, forall_mem_nil _⟩
  refine yields.weaken (fun f admitted => ?_) fun _ h => h
  rcases admitted with (own | ⟨name, g, same, found⟩) | echoes
  · exact .inl own
  · have declared := grounded_declared (staged_judges staged) holds.1 found
    exact .inr ⟨name, mem_append_left _ (declared_mem declared), same⟩
  · exact echoesOne_mono (subset_append_right _ _) echoes

theorem known_staged {fields : List OutputField} (outputs : ∀ f ∈ fields, OutputSound (Names.of input) f) :
    Scope.Staged ⟨url, input, decls, true⟩
      ((fields.filterMap (outputTyped input)).map fun (name, t) => (name, .ok t)) := by
  have entries : ∀ {name outcome}, List.lookup name ((fields.filterMap (outputTyped input)).map
      fun (name, t) => (name, (.ok t : Except LocatedFault Typed))) = some outcome →
      ∃ f ∈ fields, ∃ t, outputTyped input f = some (name, t) ∧ outcome = .ok t := by
    intro name outcome h
    obtain ⟨before, after, split, _⟩ := lookup_eq_some_iff.mp h
    have mem : (name, outcome) ∈ (fields.filterMap (outputTyped input)).map
        fun (name, t) => (name, (.ok t : Except LocatedFault Typed)) := by rw [split]; simp
    obtain ⟨entry, given, same⟩ := mem_map.mp mem
    obtain ⟨f, output, typed⟩ := mem_filterMap.mp given
    cases same
    exact ⟨f, output, entry.2, typed, rfl⟩
  refine ⟨rfl, ?_, ?_⟩
  · intro name t h
    obtain ⟨f, mem, t', typed, same⟩ := entries h
    cases same
    cases outputs f mem with
    | dimension level =>
      cases typed
      exact ⟨level, reads_joined ⟨input, [], false⟩ rfl _⟩
    | measure level =>
      cases typed
      exact ⟨level, by simp⟩
    | nest _ _ _ => cases typed
  · intro name f h
    obtain ⟨_, _, t, _, same⟩ := entries h
    cases same

theorem stageWith_gets {position : StagePosition} {properties : List Document.StageProperty} (names : List String)
    (sampled : Prop) (R : Draft → Draft → Prop)
    (refines : ∀ stage ∈ base, StageBuilt (Names.of input) sampled stage)
    (filled : ∀ (known : Memo) (d : Draft),
      Scope.Staged ⟨url, input, properties.flatMap declared, true⟩ known →
      DraftSound (Names.of input) sampled d →
      Stages ⟨⟨url, input, properties.flatMap declared, true⟩, position, span⟩ known names known
        (fill ⟨⟨url, input, properties.flatMap declared, true⟩, position, span⟩ d)
        fun d' => DraftSound (Names.of input) sampled d' ∧ R d d') :
    Gets ((properties.flatMap declared).map (fun decl => decl.name.node) ++ names)
      (stageWith url input base position properties span fill) fun stage =>
        StageBuilt (Names.of input) sampled stage ∧ ∃ d, R ((base.map Draft.ofStage).getD Draft.empty) d ∧ stage.outputSchema = d.schema := by
  have start : DraftSound (Names.of input) sampled ((base.map Draft.ofStage).getD Draft.empty) := by
    cases base with
    | none => exact draft_empty
    | some stage => exact draft_ofStage (refines stage rfl)
  refine ((declarations_gets _ _ _ _).mono (nil_subset _)).bind ?_
  rintro _ rfl
  have staged : Scope.Staged ⟨url, input, properties.flatMap declared, true⟩ _ :=
    known_staged fun f mem => (start.outputs f mem).sound
  refine (staged_gets staged (filled _ _ staged start)).bind fun d h => ?_
  refine ((finish_gets url properties span h.1).mono (nil_subset _)).weaken (fun _ h => h) ?_
  exact fun stage found => ⟨found.1, d, h.2, found.2⟩

theorem nestable_gets (url name : String) (span : Span) (built : StagesBuilt n sampled stages) :
    Gets names (nestable url name span stages) fun nest => OutputBuilt n (.nest nest) := by
  unfold nestable
  simp only
  split
  · exact .inl rfl
  · next plain =>
    split
    · exact .inl rfl
    · next nonempty =>
      have plain (stage) (mem : stage ∈ stages) : stage.kind ≠ .index ∧ stage.sample = none := by
        have passed := List.findSome?_eq_none_iff.mp plain stage mem
        split at passed
        · cases passed
        · next other =>
          split at passed
          · cases passed
          · next unsampled => exact ⟨other, by simpa using unsampled⟩
      refine ⟨.nest (by simpa using nonempty) (fun stage mem => (plain stage mem).1) built.sound, ?_⟩
      rintro _ ⟨⟩
      exact .mk plain fun stage mem => built.calm.nests mem

theorem viewOf_gets (url : String) (input : Namespace) (name : Document.Name) :
    Gets names (viewOf url input name) fun view => input.lookup? name.node = some (.view view) := by
  unfold viewOf
  have own := refer_own input [name.node]
  cases hr : input.refer [name.node] with
  | error fault =>
    rw [hr] at own
    exact .inl own
  | ok r =>
    simp only [bind, Except.bind]
    split
    · next view shape =>
      obtain ⟨last, owner, field, split, within, found, same, _⟩ := refer_found hr
      obtain ⟨place, rfl⟩ : r.joinPath = [] ∧ name.node = last := by
        rcases append_eq_singleton_iff.mp split.symm with ⟨h, h'⟩ | ⟨_, h⟩
        · exact ⟨h, (singleton_inj.mp h').symm⟩
        · cases h
      rw [place] at within
      cases within
      rw [shape] at same
      cases field <;> cases same
      exact found
    · exact .inl rfl

def namesAfter (n : Names) (stages : List Stage) : Names :=
  match stages.getLast? with
  | some last => .ofSchema last.outputSchema
  | none => n

theorem namesAfter_cons (n : Names) (stage : Stage) (rest : List Stage) :
    namesAfter n (stage :: rest) = namesAfter (.ofSchema stage.outputSchema) rest := by
  unfold namesAfter
  cases h : rest.getLast? with
  | none =>
    rw [List.getLast?_eq_none_iff] at h
    subst h
    rfl
  | some last =>
    obtain ⟨init, rfl⟩ := List.getLast?_eq_some_iff.mp h
    rw [← cons_append, List.getLast?_concat]

theorem stagesBuilt_cons : StagesBuilt n sampled (stage :: rest) ↔
    StageBuilt n sampled stage ∧ StagesBuilt (.ofSchema stage.outputSchema) False rest := by
  constructor
  · rintro ⟨sound, calm⟩
    cases sound with
    | cons first others => cases calm with
      | cons sample nests later settled => exact ⟨⟨first, sample, nests, settled⟩, others, later⟩
  · rintro ⟨first, others⟩
    exact ⟨.cons first.sound others.sound, .cons first.sample first.nests others.calm first.settled⟩

theorem stagesBuilt_nil : StagesBuilt n sampled [] := ⟨.nil, .nil⟩

theorem stagesBuilt_append : StagesBuilt n sampled (a ++ b) ↔
    StagesBuilt n sampled a ∧ StagesBuilt (namesAfter n a) (a = [] ∧ sampled) b := by
  induction a generalizing n sampled with
  | nil => simp [namesAfter, stagesBuilt_nil]
  | cons stage rest ih => simp [stagesBuilt_cons, namesAfter_cons, ih, and_assoc]

theorem StagesBuilt.mono (le : n ≤ m) (built : StagesBuilt n sampled stages) : StagesBuilt m sampled stages :=
  ⟨built.sound.mono le, built.calm⟩

theorem after_names (url : String) (span : Span) (input : Namespace) (stages : List Stage) :
    Names.of (after url span input stages) ≤ namesAfter (Names.of input) stages ∧
      namesAfter (Names.of input) stages ≤ Names.of (after url span input stages) := by
  unfold after namesAfter
  cases stages.getLast? with
  | none => exact ⟨Names.le_refl _, Names.le_refl _⟩
  | some last => exact ⟨ofResult_le _ _ _, ofResult_le _ _ _⟩

theorem after_sound (url : String) (span : Span) (sound : FieldsSound input) (stages : List Stage) :
    FieldsSound (after url span input stages) := by
  unfold after
  split
  · exact .ofResult _ _
  · exact sound

def ViewsCalm (input : Namespace) (sampled : Prop) : Prop :=
  ∀ name v, input.lookup? name = some (.view v) → Calm sampled v.stages

theorem ViewsCalm.mono (views : ViewsCalm input sampled) (weaker : sampled → other) : ViewsCalm input other :=
  fun name v found => (views name v found).mono weaker

theorem after_views (url : String) (span : Span) (views : ViewsCalm input sampled) (stages : List Stage) :
    ViewsCalm (after url span input stages) (stages = [] ∧ sampled) := by
  unfold after
  split
  · intro name v found
    rw [lookup?_ofResult] at found
    obtain ⟨field, _, same⟩ := Option.map_eq_some_iff.mp found
    unfold FieldDef.ofResult at same
    split at same <;> cases same
  · next none => exact views.mono fun h => ⟨List.getLast?_eq_none_iff.mp none, h⟩

structure InputSound (input : Namespace) : Prop where
  sound : FieldsSound input
  views : ViewsCalm input True

theorem after_grounded (url : String) (span : Span) (grounded : InputSound input) (stages : List Stage) :
    InputSound (after url span input stages) :=
  ⟨after_sound url span grounded.sound stages, (after_views url span grounded.views stages).mono fun _ => trivial⟩

/-- What building one stage again yields. Properties for the first of several stages leave its columns as
they are. -/
def Rebuilds (names : List String) (build : (Document.StageProperty → Bool) → Namespace → Stage →
    StagePosition → Except LocatedFault Stage) : Prop :=
  ∀ keep input stage position (sampled : Prop), InputSound input → StageBuilt (Names.of input) sampled stage →
    (position.sampling = true → sampled) → Gets names (build keep input stage position) fun built =>
      StageBuilt (Names.of input) sampled built ∧ (keep = isHeadProperty → built.outputSchema = stage.outputSchema)

theorem refineLast_gets {url : String} {position : StagePosition} {properties : List Document.StageProperty}
    {span : Span} (grounded : InputSound input) (built : StagesBuilt (Names.of input) sampled stages)
    (rebuilds : Rebuilds names build) :
    Gets names (match stages.getLast? with
      | some last =>
        if properties.any isTailProperty then do
          let input := after url span input stages.dropLast
          let last ← build isTailProperty input last { position with sampling := false }
          return stages.dropLast ++ [last]
        else return stages
      | none => return stages) (StagesBuilt (Names.of input) sampled) := by
  split
  · next last h =>
    obtain ⟨init, rfl⟩ := List.getLast?_eq_some_iff.mp h
    rw [dropLast_concat]
    split
    · obtain ⟨before, final⟩ := stagesBuilt_append.mp built
      have names := after_names url span input init
      obtain ⟨final, _⟩ := stagesBuilt_cons.mp (final.mono names.2)
      refine (rebuilds _ _ last _ _ (after_grounded url span grounded init) final (by simp)).bind fun last found => ?_
      exact stagesBuilt_append.mpr ⟨before, .mono names.1 (stagesBuilt_cons.mpr ⟨found.1, stagesBuilt_nil⟩)⟩
    · exact built
  · exact built

theorem refineStages_gets {properties : List Document.StageProperty} (grounded : InputSound input)
    (built : StagesBuilt (Names.of input) sampled view.stages)
    (allowed : position.sampling = true → sampled) (rebuilds : Rebuilds names build) :
    Gets names (refineStages url input view position properties span build)
      (StagesBuilt (Names.of input) sampled) := by
  unfold refineStages
  rcases hv : view.stages with _ | ⟨first, _ | ⟨second, rest⟩⟩ <;> rw [hv] at built
  · exact .inl rfl
  · refine (rebuilds _ input first position sampled grounded (stagesBuilt_cons.mp built).1 allowed).bind ?_
    exact fun _ h => stagesBuilt_cons.mpr ⟨h.1, stagesBuilt_nil⟩
  · obtain ⟨head, later⟩ := stagesBuilt_cons.mp built
    simp only
    split
    · exact .inl rfl
    have again {stage : Stage} (built : StageBuilt (Names.of input) sampled stage)
        (same : stage.outputSchema = first.outputSchema) : StagesBuilt (Names.of input) sampled (stage :: second :: rest) :=
      stagesBuilt_cons.mpr ⟨built, same ▸ later⟩
    split
    · exact (rebuilds _ input first position sampled grounded head allowed).bind fun stage h =>
        refineLast_gets grounded (again h.1 (h.2 rfl)) rebuilds
    · exact refineLast_gets grounded (again head rfl) rebuilds

theorem covers_of_mem (known : ∀ decl ∈ decls, decl ∈ s.scope.declarations) : Covers s decls := by
  intro decl mem
  unfold Scope.declaration?
  rw [List.find?_isSome]
  exact ⟨decl, known decl mem, by simp⟩

theorem covers_item (covers : Covers s (definitions items)) (mem : item ∈ items) : Covers s (definitions [item]) := by
  intro decl given
  refine covers decl (mem_filterMap.mpr ?_)
  obtain ⟨own, here, defines⟩ := mem_filterMap.mp given
  rw [mem_singleton.mp here] at defines
  exact ⟨item, mem, defines⟩

theorem declared_subset (block : List Document.StageProperty) (keep : Document.StageProperty → Bool) :
    ((block.filter keep).flatMap declared).map (fun decl => decl.name.node) ⊆ blockNames block := by
  induction block with
  | nil => simp
  | cons p rest ih =>
    have own : (declared p).map (fun decl => decl.name.node) ⊆ propertyNames p := by
      unfold propertyNames
      exact subset_append_left _ _
    by_cases kept : keep p = true
    · rw [filter_cons_of_pos kept, flatMap_cons, map_append]
      intro name mem
      rcases mem_append.mp mem with mem | mem
      · exact mem_append_left _ (own mem)
      · exact mem_append_right _ (ih mem)
    · rw [filter_cons_of_neg kept]
      exact fun name mem => mem_append_right _ (ih mem)

/-- What entering the properties of a block rests on. -/
structure Enters (s : Site) (known : Memo) (sampled : Prop) : Prop where
  staged : s.scope.Staged known
  grounded : InputSound s.input
  allowed : s.position.sampling = true → sampled

theorem items_ensures (enters : Enters s known sampled) {wrap : ExprField → OutputField}
    (outputs : ∀ x, x.expr.level? (Names.of s.input) = some wanted → OutputBuilt (Names.of s.input) (wrap x))
    (covers : Covers s (definitions items)) (sound : DraftSound (Names.of s.input) sampled d) :
    Stages s known names memo (do
      let d ← s.located s.span (d.ofKind .reduce)
      return d.addFields ((← items.mapM (stageItem s wanted)).map wrap))
      (DraftSound (Names.of s.input) sampled) := by
  refine ensures_bind (located_stages (ofKind_own sound .reduce)) fun memo d' _ ⟨sound, kind⟩ => ?_
  refine ensures_bind (ensures_mapM items fun item mem memo =>
    stageItem_ensures enters.staged wanted item (covers_item covers mem)) fun memo fields _ leveled => ?_
  refine ensures_pure (addFields_sound sound (fun f mem => ?_) fun other => (other kind).elim)
  obtain ⟨x, given, rfl⟩ := mem_map.mp mem
  exact outputs x (leveled x given)

mutual

theorem properties_ensures (enters : Enters s known sampled) (keep : Document.StageProperty → Bool) :
    ∀ (block : List Document.StageProperty) (memo : Memo) (d : Draft),
      (∀ p ∈ block, keep p = true → Covers s (declared p)) → blockNames block ⊆ names →
      DraftSound (Names.of s.input) sampled d → Stages s known names memo (properties s keep block d) fun d' =>
        DraftSound (Names.of s.input) sampled d' ∧ (keep = isHeadProperty → d'.schema = d.schema)
  | [], memo, d, _, _, sound => by
    exact ensures_pure ⟨sound, fun _ => rfl⟩
  | p :: rest, memo, d, covers, subset, sound => by
    obtain ⟨own, others⟩ := append_subset.mp subset
    rw [properties]
    have later (memo : Memo) (d' : Draft) (sound : DraftSound (Names.of s.input) sampled d')
        (same : keep = isHeadProperty → d'.schema = d.schema) :
        Stages s known names memo (properties s keep rest d') fun d'' =>
          DraftSound (Names.of s.input) sampled d'' ∧ (keep = isHeadProperty → d''.schema = d.schema) :=
      ensures_weaken (properties_ensures enters keep rest memo d' (fun p mem => covers p (mem_cons_of_mem _ mem)) others
        sound) fun _ d'' _ h => ⟨h.1, fun head => (h.2 head).trans (same head)⟩
    by_cases kept : keep p = true
    · rw [if_pos kept]
      refine ensures_bind (property_ensures enters p memo d (covers p mem_cons_self kept) own sound) ?_
      exact fun memo d' _ h => later memo d' h.1 fun head => h.2 (head ▸ kept)
    · rw [if_neg kept]
      exact later memo d sound fun _ => rfl

theorem property_ensures (enters : Enters s known sampled) : ∀ (p : Document.StageProperty) (memo : Memo) (d : Draft),
      Covers s (declared p) → propertyNames p ⊆ names → DraftSound (Names.of s.input) sampled d →
      Stages s known names memo (property s p d) fun d' =>
        DraftSound (Names.of s.input) sampled d' ∧ (isHeadProperty p = true → d'.schema = d.schema)
  | .groupBy items, memo, d, covers, subset, sound => by
    refine ensures_weaken (items_ensures enters (fun x level => ?_) covers sound) fun _ d' _ h => ⟨h, nofun⟩
    exact ⟨.dimension level, by simp [OutputField.nest?]⟩
  | .aggregate items, memo, d, covers, subset, sound => by
    refine ensures_weaken (items_ensures enters (fun x level => ?_) covers sound) fun _ d' _ h => ⟨h, nofun⟩
    exact ⟨.measure level, by simp [OutputField.nest?]⟩
  | .project items, memo, d, covers, subset, sound => by
    refine ensures_bind (located_stages (ofKind_own sound .project)) fun memo d' _ ⟨sound, kind⟩ => ?_
    refine ensures_bind (ensures_mapM items fun item mem memo =>
      projectItem_ensures enters.staged enters.grounded.sound item (covers_item covers mem)) ?_
    intro memo fields _ leveled
    have dimensions : ∀ f ∈ fields.flatten, ∃ x, f = .dimension x ∧
        x.expr.level? (Names.of s.input) = some .scalar := by
      intro f mem
      obtain ⟨list, given, mem⟩ := mem_flatten.mp mem
      exact leveled list given f mem
    refine ensures_pure ⟨addFields_sound sound ?_ ?_, nofun⟩
    · intro f mem
      obtain ⟨x, rfl, level⟩ := dimensions f mem
      exact ⟨.dimension level, by simp [OutputField.nest?]⟩
    · intro _ f mem
      obtain ⟨x, rfl, _⟩ := dimensions f mem
      exact ⟨x, rfl⟩
  | .index items weight, memo, d, covers, subset, sound => by
    refine ensures_bind (located_stages (ofKind_own sound .index)) fun memo d' _ ⟨sound, kind⟩ => ?_
    refine ensures_guard rfl fun _ => ?_
    refine ensures_bind (ensures_mapM items fun item mem memo =>
      indexItem_ensures enters.grounded.sound item) fun memo fields _ leveled => ?_
    have indexed : ∀ f ∈ d'.indexFields ++ fields.flatten,
        (Names.of s.input).level f.path = some .scalar := by
      intro f mem
      rcases mem_append.mp mem with mem | mem
      · exact sound.indexed f mem
      · obtain ⟨list, given, mem⟩ := mem_flatten.mp mem
        exact leveled list given f mem
    cases weight with
    | none => exact ensures_pure ⟨{ sound with indexed }, nofun⟩
    | some name =>
      refine ensures_map (indexWeight_ensures enters.staged name) fun memo e level => ?_
      exact ⟨{ sound with indexed, weights := by simpa using level }, nofun⟩
  | .nest entries, memo, d, covers, subset, sound => by
    refine ensures_bind (located_stages (ofKind_own sound .reduce)) fun memo d' _ ⟨sound, kind⟩ => ?_
    have nested := (nests_gets s.scope.url enters.grounded entries).mono (append_subset.mp subset).2
    refine ensures_bind (ensures_liftExcept nested) fun memo found _ outputs => ?_
    refine ensures_pure ⟨addFields_sound sound (fun f mem => ?_) fun other => (other kind).elim, nofun⟩
    obtain ⟨x, given, rfl⟩ := mem_map.mp mem
    exact outputs x given
  | .filter filters, memo, d, covers, subset, sound => by
    refine ensures_weaken (ensures_foldlM (P := fun d' =>
      DraftSound (Names.of s.input) sampled d' ∧ d'.schema = d.schema) filters ?_ ⟨sound, rfl⟩)
      fun _ d' _ h => ⟨h.1, fun _ => h.2⟩
    intro filter _ memo d' h
    refine ensures_bind (condition_ensures enters.staged filter) fun memo found _ level => ?_
    refine ensures_guard rfl fun scalar => ensures_pure ⟨addFilter_sound h.1 ?_, h.2⟩
    cases hl : found.2 <;> simp_all [Level.isAggregate]
  | .having filters, memo, d, covers, subset, sound => by
    refine ensures_weaken (ensures_foldlM filters ?_ sound)
      fun _ d' _ h => ⟨h, nofun⟩
    intro filter _ memo d' h
    refine ensures_bind (condition_ensures enters.staged filter) fun memo found _ level => ensures_pure ?_
    cases hl : found.2 with
    | scalar => exact addFilter_sound h (by rw [level, hl])
    | aggregate => exact addHaving_sound h (by rw [level, hl])
  | .orderBy _, memo, d, covers, subset, sound | .declare _, memo, d, covers, subset, sound => by
    exact ensures_pure ⟨sound, fun _ => rfl⟩
  | .limit _ _, memo, d, covers, subset, sound | .top _ _ _, memo, d, covers, subset, sound => by
    exact ensures_pure ⟨withLimit_sound sound, fun _ => rfl⟩
  | .sample spec span, memo, d, covers, subset, sound => by
    refine ensures_guard rfl fun placed => ?_
    refine ensures_bind (located_stages (samplingOf_own spec)) fun memo sample _ _ => ?_
    have allowed : s.position.sampling = true := by
      cases hs : s.position.sampling <;> simp_all
    exact ensures_pure ⟨{ sound with sampled := fun _ => enters.allowed allowed }, fun _ => rfl⟩

theorem nests_gets (url : String) (grounded : InputSound input) :
    ∀ entries : List Document.NestItem, Gets (nestsNames entries) (nests url input entries)
      fun found => ∀ x ∈ found, OutputBuilt (Names.of input) (.nest x)
  | [] => by
    exact forall_mem_nil _
  | entry :: rest => by
    refine ((nest_gets url grounded entry).mono (subset_append_left _ _)).bind fun first here => ?_
    refine ((nests_gets url grounded rest).mono (subset_append_right _ _)).bind fun others later => ?_
    exact forall_mem_cons.mpr ⟨here, later⟩

theorem nest_gets (url : String) (grounded : InputSound input) :
    ∀ entry : Document.NestItem, Gets (nestNames entry) (nest url input entry)
      fun x => OutputBuilt (Names.of input) (.nest x)
  | .reference name refinement => by
    refine (viewOf_gets _ _ _).bind fun view found => ?_
    exact (refined_gets True grounded ⟨grounded.sound.view found, grounded.views _ _ found⟩ (fun _ => trivial)
      refinement).bind fun stages built => nestable_gets _ _ _ built
  | .define name pipeline span => by
    exact (pipelineStages_gets pipeline input false True grounded.sound grounded.views fun _ => trivial).bind
      fun stages built => nestable_gets _ _ _ built

theorem refined_gets (sampled : Prop) (grounded : InputSound input)
    (built : StagesBuilt (Names.of input) sampled view.stages) (allowed : position.sampling = true → sampled) :
    ∀ refinement : Option Document.StageBlock,
      Gets (refinementNames refinement) (refined url input view position refinement)
        (StagesBuilt (Names.of input) sampled)
  | none => by
    exact built
  | some ⟨block, span⟩ => by
    rw [refined]
    refine refineStages_gets grounded built allowed ?_
    intro keep input stage position sampled grounded built allowed
    refine Gets.mono ((stageWith_gets (blockNames block) sampled
      (fun d d' => keep = isHeadProperty → d'.schema = d.schema) ?_ ?_).weaken (fun _ h => h) ?_) ?_
    · rintro _ ⟨⟩
      exact built
    · intro known d staged draft
      have enters : Enters ⟨⟨url, input, (block.filter keep).flatMap declared, true⟩, position, span⟩ known
        sampled := ⟨staged, grounded, allowed⟩
      refine properties_ensures enters keep block known d ?_ (List.Subset.refl _) draft
      intro p mem kept
      refine covers_of_mem fun decl given => ?_
      exact mem_flatMap.mpr ⟨p, mem_filter.mpr ⟨mem, kept⟩, given⟩
    · rintro again ⟨built, d, unchanged, schema⟩
      refine ⟨built, fun head => ?_⟩
      rw [schema, unchanged head]
      exact schema_ofStage stage
    · exact append_subset.mpr ⟨declared_subset block keep, List.Subset.refl _⟩

theorem pipelineStages_gets :
    ∀ (elements : List Document.PipeElement) (input : Namespace) (sampling : Bool) (sampled : Prop),
      FieldsSound input → ViewsCalm input sampled → (sampling = true → sampled) →
      Gets (pipelineNames elements) (pipelineStages url nested input sampling elements)
        (StagesBuilt (Names.of input) sampled)
  | [], input, sampling, sampled, sound, views, allowed => by
    exact stagesBuilt_nil
  | element :: rest, input, sampling, sampled, sound, views, allowed => by
    refine ((pipeElement_gets sampled element input ⟨sampling, nested⟩ sound views allowed).mono
      (subset_append_left _ _)).bind ?_
    rintro ⟨added, span⟩ first
    -- what comes after a stage reads a result, which has no views and is never sampled
    refine ((pipelineStages_gets rest _ false _ (after_sound url span sound added)
      (after_views url span views added) (by simp)).mono (subset_append_right _ _)).bind fun others later => ?_
    exact stagesBuilt_append.mpr ⟨first, later.mono (after_names url span input added).1⟩

theorem pipeElement_gets (sampled : Prop) :
    ∀ (element : Document.PipeElement) (input : Namespace) (position : StagePosition), FieldsSound input →
      ViewsCalm input sampled → (position.sampling = true → sampled) →
      Gets (elementNames element) (pipeElement url input position element) fun found =>
        StagesBuilt (Names.of input) sampled found.1
  | .stage ⟨block, span⟩, input, position, sound, views, allowed => by
    rw [elementNames]
    refine (Gets.mono (stageWith_gets (blockNames block) sampled (fun _ _ => True) ?_ ?_) ?_).bind ?_
    · nofun
    · intro known d staged draft
      have enters : Enters ⟨⟨url, input, block.flatMap declared, true⟩, position, span⟩ known sampled :=
        ⟨staged, ⟨sound, views.mono fun _ => trivial⟩, allowed⟩
      refine ensures_weaken (properties_ensures enters (fun _ => true) block known d ?_ (List.Subset.refl _) draft)
        fun _ _ _ h => ⟨h.1, trivial⟩
      intro p mem _
      exact covers_of_mem fun decl given => mem_flatMap.mpr ⟨p, mem, given⟩
    · simpa using declared_subset block fun _ => true
    · rintro stage ⟨built, _⟩
      exact stagesBuilt_cons.mpr ⟨built, stagesBuilt_nil⟩
  | .view name refinement, input, position, sound, views, allowed => by
    refine (viewOf_gets _ _ _).bind fun view found => ?_
    exact (refined_gets sampled ⟨sound, views.mono fun _ => trivial⟩
      ⟨sound.view found, views _ _ found⟩ allowed refinement).bind fun stages h => h

end

end SemanticLayer.Elaborate
