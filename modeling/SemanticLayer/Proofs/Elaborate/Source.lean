import SemanticLayer.Document.References
import SemanticLayer.Proofs.Elaborate.Body

/-!
Elaborated sources and queries are sound. A fault that comes out of one and only echoes another was
reported, echoes a definition that failed before, or echoes a name that a stage declares. All other faults
are those of the document itself, or what the catalog answers where a table is asked for.
-/
namespace SemanticLayer.Elaborate

open List

/-- Which faults may come out of elaboration, and which diagnostics may tell of them. -/
structure Complaints where
  Faults : Fault → Prop
  Reports : Diagnostic → Prop
  own : ∀ {fault}, fault.isOwn = true → Faults fault
  echo : ∀ name, Faults (.invalidReference name)
  report : ∀ {f : LocatedFault}, Faults f.fault → Reports f.diagnostic
  warning : ∀ message location, Reports ⟨.malformed, .warning, message, location⟩

def Complaints.every : Complaints :=
  ⟨fun _ => True, fun _ => True, fun _ => trivial, fun _ => trivial, fun _ => trivial, fun _ _ => trivial⟩

/-- A fault that echoes another has something to echo. -/
def Rooted (invalid : List (String × Diagnostic)) (names : List String) (reports : List Diagnostic)
    (fault : Fault) : Prop :=
  fault.isCascade = true → Diagnostic.hasErrors reports = true ∨
    ∃ name, fault = .invalidReference name ∧ ((invalid.lookup name).isSome = true ∨ name ∈ names)

variable {α β : Type} {S : Surroundings} {invalid : List (String × Diagnostic)} {names : List String}
  {reports : List Diagnostic} {K : Complaints}

variable {fault : Fault} {action : BuildM α} {post : α → Prop} {f : LocatedFault} {span : Span}
  {kept declarations : List Declaration} {built : List (Except LocatedFault BuiltJoin)} {url : String}
  {fields inherited : Namespace} {joins : List BuiltJoin} {outcome : BodyOutcome} {memo : Memo} {base : Source}

theorem rooted_loud (loud : fault.isCascade = false) : Rooted invalid names reports fault := by
  intro cascade
  rw [loud] at cascade
  cases cascade

/-- Elaborating a statement: reports are kept, complaints are of a kind, and an echo has something to echo. -/
def buildDiscipline (K : Complaints) (invalid : List (String × Diagnostic)) (names : List String) :
    Discipline (List Diagnostic) where
  Holds reports := ∀ d ∈ reports, K.Reports d
  Grows reports later := reports <+: later
  Admits reports fault := K.Faults fault ∧ Rooted invalid names reports fault
  grows_refl := prefix_refl
  grows_trans := List.IsPrefix.trans
  admits_own _ _ own := ⟨K.own own, rooted_loud (Fault.isCascade_of_own own)⟩

theorem hasErrors_grows (grows : reports <+: later) (errors : Diagnostic.hasErrors reports = true) :
    Diagnostic.hasErrors later = true := by
  obtain ⟨more, rfl⟩ := grows
  unfold Diagnostic.hasErrors at *
  rw [any_append, errors, Bool.true_or]

theorem rooted_later (grows : reports <+: later) (rooted : Rooted invalid names reports fault) :
    Rooted invalid names later fault := by
  intro cascade
  exact (rooted cascade).imp_left (hasErrors_grows grows)

theorem admits_echo (echoes : EchoesOne names fault) : (buildDiscipline K invalid names).Admits reports fault := by
  rcases echoes with own | ⟨name, mem, rfl⟩
  · exact Discipline.admits_own _ _ own
  · exact ⟨K.echo name, fun _ => .inr ⟨name, rfl, .inr mem⟩⟩

theorem ensures_step {next : α → BuildM β} {Q : List Diagnostic → α → Prop} {post : List Diagnostic → β → Prop}
    (first : Ensures D reports (action S) Q)
    (rest : ∀ later a, D.Grows reports later → Q later a → Ensures D later (next a S) post) :
    Ensures D reports ((action >>= next) S) post :=
  ensures_bind first rest

def Builds (K : Complaints) (S : Surroundings) (names : List String) (action : BuildM α) (post : α → Prop) : Prop :=
  ∀ reports, Ensures (buildDiscipline K S.invalid names) reports (action S) fun _ => post

theorem builds_pure {a : α} (h : post a) : Builds K S names (pure a) post :=
  fun _ => ensures_pure h

theorem builds_bind {next : α → BuildM β} {Q : α → Prop} {post : β → Prop} (first : Builds K S names action Q)
    (rest : ∀ a, Q a → Builds K S names (next a) post) : Builds K S names (action >>= next) post :=
  fun reports => ensures_step (first reports) fun later a _ value => rest a value later

theorem builds_read {next : Surroundings → BuildM α} (rest : Builds K S names (next S) post) :
    Builds K S names (read >>= next) post :=
  rest

theorem builds_throw (admitted : ∀ reports, (buildDiscipline K S.invalid names).Admits reports f.fault) :
    Builds K S names (throw f) post :=
  fun reports => ensures_throw (admitted reports)

theorem builds_fail (own : fault.isOwn = true) : Builds K S names (BuildM.fail span fault) post :=
  builds_throw fun _ => Discipline.admits_own _ _ own

theorem builds_guard [Decidable bad] {next : BuildM α} (own : fault.isOwn = true)
    (rest : ¬bad → Builds K S names next post) :
    Builds K S names (do if bad then BuildM.fail span fault
                         next) post := by
  by_cases h : bad
  · rw [if_pos h]
    exact builds_bind (Q := fun _ => False) (builds_fail own) fun _ impossible => impossible.elim
  · rw [if_neg h]
    exact rest h

theorem builds_location {next : Location → BuildM α}
    (rest : ∀ location, location.url = S.url → Builds K S names (next location) post) :
    Builds K S names (BuildM.location span >>= next) post :=
  rest ⟨S.url, span⟩ rfl

theorem builds_weaken {more : List String} {Q : α → Prop} (first : Builds K S names action Q) (subset : names ⊆ more)
    (image : ∀ a, Q a → post a) : Builds K S more action post := by
  intro reports holds
  obtain ⟨kept, grows, yields⟩ := first reports holds
  refine ⟨kept, grows, yields.weaken (fun f admitted => ⟨admitted.1, fun cascade => ?_⟩) image⟩
  refine (admitted.2 cascade).imp_right ?_
  rintro ⟨name, same, echo⟩
  exact ⟨name, same, echo.imp_right fun mem => subset mem⟩

theorem hasErrors_report (reports : List Diagnostic) (f : LocatedFault) :
    Diagnostic.hasErrors (reports ++ [f.diagnostic]) = true := by
  unfold Diagnostic.hasErrors
  rw [any_append]
  exact Bool.or_true _

theorem report_ensures (explained : K.Faults f.fault) :
    Ensures (buildDiscipline K S.invalid names) reports (BuildM.report f S) fun later _ =>
      f.fault.isCascade = false → Diagnostic.hasErrors later = true := by
  unfold BuildM.report
  cases cascade : f.fault.isCascade with
  | true => exact ensures_pure (fun loud => by cases loud)
  | false =>
    refine fun holds => ⟨?_, ⟨[f.diagnostic], rfl⟩, fun _ => hasErrors_report reports f⟩
    exact forall_mem_append.mpr ⟨holds, forall_mem_singleton.mpr (K.report explained)⟩

theorem reports_ensures {found : List LocatedFault}
    (explained : ∀ f ∈ found, K.Faults f.fault) :
    Ensures (buildDiscipline K S.invalid names) reports (found.forM BuildM.report S) fun later _ =>
      ∀ f ∈ found, f.fault.isCascade = false → Diagnostic.hasErrors later = true := by
  induction found generalizing reports with
  | nil => exact ensures_pure (forall_mem_nil _)
  | cons f rest ih =>
    obtain ⟨first, others⟩ := forall_mem_cons.mp explained
    refine ensures_bind (report_ensures first) fun later _ _ here => ?_
    refine ensures_weaken (ih others) fun last _ grows others => ?_
    exact forall_mem_cons.mpr ⟨fun own => hasErrors_grows grows (here own), others⟩

theorem settle_ensures {found : List LocatedFault}
    (explained : ∀ f ∈ found, K.Faults f.fault)
    (rooted : ∀ f ∈ found, Rooted S.invalid names reports f.fault ∨ ∃ g ∈ found, g.fault.isCascade = false) :
    Ensures (buildDiscipline K S.invalid names) reports (BuildM.settle found S) fun _ _ => found = [] := by
  cases found with
  | nil => exact ensures_pure rfl
  | cons first rest =>
    obtain ⟨here, explained⟩ := forall_mem_cons.mp explained
    refine ensures_bind (reports_ensures explained) fun later _ grows others => ensures_throw ⟨here, ?_⟩
    rcases rooted first mem_cons_self with rooted | ⟨g, mem, own⟩
    · exact rooted_later grows rooted
    · rcases mem_cons.mp mem with rfl | mem
      · exact rooted_loud own
      · exact fun _ => .inl (others g mem own)

/-- A sound source whose views, and those of the sources that it is made of, are as they were built. -/
inductive SourceBuilt : Source → Prop where
  | mk (sound : SourceSound s) (views : ViewsCalm s.fields (s.origin.isTable = true))
      (joins : ∀ name j, s.fields.lookup? name = some (.join j) → SourceBuilt j.source)
      (origin : ∀ q, s.origin = .query q → SourceBuilt q.source)
      (stages : ∀ q, s.origin = .query q → Calm (q.source.origin.isTable = true) q.stages) : SourceBuilt s

structure QueryBuilt (q : Query) : Prop where
  sound : QuerySound q
  source : SourceBuilt q.source
  calm : Calm (q.source.origin.isTable = true) q.stages

theorem SourceBuilt.sound : SourceBuilt s → SourceSound s
  | .mk sound _ _ _ _ => sound

/-- What the joins of a body were built to. -/
structure JoinsBuilt (kept : List Declaration) (built : List (Except LocatedFault BuiltJoin)) : Prop where
  named : ((values built).map fun j => j.decl.name.node).Sublist (kept.map fun d => d.name.node)
  given : ∀ j ∈ values built, ∃ source, .join j.decl source ∈ kept
  sources : ∀ j ∈ values built, SourceBuilt j.source

/-- What the declarations of a body are given. -/
def Buildable (K : Complaints) (S : Surroundings) (names : List String) : Declaration → Prop
  | .field _ _ => True
  | .join _ source => Builds K S names source SourceBuilt
  | .view decl => pipelineNames decl.pipeline ⊆ names

theorem buildJoins_join (decl : Document.JoinDecl) (source : BuildM Source) (rest : List Declaration) :
    buildJoins (.join decl source :: rest) = do
      let outcome ← BuildM.attempt source
      let others ← buildJoins rest
      return outcome.map (⟨decl, ·⟩) :: others := by
  unfold buildJoins
  rw [filterMapM_cons]
  simp only [bind_assoc, pure_bind]

theorem buildJoins_other (other : d.isJoin = false) (rest : List Declaration) :
    buildJoins (d :: rest) = buildJoins rest := by
  unfold buildJoins
  rw [filterMapM_cons]
  cases d with
  | join _ _ => cases other
  | field _ _ | view _ => simp only [pure_bind]

theorem JoinsBuilt.other (h : JoinsBuilt kept built) (d : Declaration) : JoinsBuilt (d :: kept) built where
  named := h.named.cons _
  given j mem := by
    obtain ⟨source, mem⟩ := h.given j mem
    exact ⟨source, mem_cons_of_mem _ mem⟩
  sources := h.sources

theorem JoinsBuilt.cons (h : JoinsBuilt kept built) (decl : Document.JoinDecl) (source : BuildM Source)
    {outcome : Except LocatedFault Source} (yields : Yields F outcome SourceBuilt) :
    JoinsBuilt (.join decl source :: kept) (outcome.map (⟨decl, ·⟩) :: built) := by
  cases outcome with
  | error f =>
    have same := h.other (.join decl source)
    exact ⟨same.named, same.given, same.sources⟩
  | ok s =>
    refine ⟨h.named.cons_cons _, ?_, ?_⟩
    · refine forall_mem_cons.mpr ⟨⟨source, mem_cons_self⟩, fun j mem => ?_⟩
      obtain ⟨source, mem⟩ := h.given j mem
      exact ⟨source, mem_cons_of_mem _ mem⟩
    · exact forall_mem_cons.mpr ⟨yields, h.sources⟩

theorem buildJoins_ensures (kept : List Declaration) (buildable : ∀ d ∈ kept, Buildable K S names d) :
    Ensures (buildDiscipline K S.invalid names) reports (buildJoins kept S) fun later built =>
      JoinsBuilt kept built ∧
      ∀ f ∈ faults built, (buildDiscipline K S.invalid names).Admits later f.fault := by
  induction kept generalizing reports with
  | nil => exact ensures_pure ⟨⟨by simp [values], by simp [values], by simp [values]⟩, by simp [faults]⟩
  | cons d rest ih =>
    obtain ⟨here, others⟩ := forall_mem_cons.mp buildable
    cases d with
    | join decl source =>
      rw [buildJoins_join]
      refine ensures_step (ensures_lift (here _)) fun later outcome _ yields => ?_
      refine ensures_step (ih others) fun last built grows ⟨soFar, admitted⟩ => ?_
      refine ensures_pure ⟨soFar.cons decl source yields, fun f mem => ?_⟩
      rcases mem_cons.mp (mem_faults.mp mem) with same | mem
      · cases outcome <;> cases same
        exact ⟨yields.1, rooted_later grows yields.2⟩
      · exact admitted f (mem_faults.mpr mem)
    | field _ _ | view _ =>
      exact ensures_weaken (ih others) fun _ _ _ h => ⟨h.1.other _, h.2⟩

/-- Views that were added one by one, and the faults of the others. -/
structure ViewsAdded (fields : Namespace) (sampled : Prop) (names : List String)
    (out : Namespace × List LocatedFault) : Prop where
  sound : FieldsSound out.1
  wider : fields.Extends out.1
  calm : ViewsCalm out.1 sampled
  old : ∀ name f, out.1.lookup? name = some f → (∃ v, f = .view v) ∨ fields.lookup? name = some f
  echoes : ∀ f ∈ out.2, EchoesOne names f.fault

def viewStep (url : String) (sampling : Bool) (out : Namespace × List LocatedFault)
    (view : Document.ViewDecl) : Namespace × List LocatedFault :=
  match pipelineStages url false out.1 sampling view.pipeline with
  | .ok stages => (out.1.insert view.name.node (.view ⟨view.name.node, stages, ⟨url, view.span⟩⟩), out.2)
  | .error fault => (out.1, out.2 ++ [fault])

theorem addViews_eq (url : String) (sampling : Bool) (fields : Namespace) (views : List Document.ViewDecl) :
    addViews url sampling fields views = views.foldl (viewStep url sampling) (fields, []) := rfl

theorem addViews_adds (allowed : sampling = true → sampled) (views : List Document.ViewDecl)
    (sound : FieldsSound fields) (calm : ViewsCalm fields sampled)
    (distinct : (views.map fun v => v.name.node).Nodup) (fresh : ∀ v ∈ views, fields.lookup? v.name.node = none)
    (declared : ∀ v ∈ views, pipelineNames v.pipeline ⊆ names) :
    ViewsAdded fields sampled names (addViews url sampling fields views) := by
  -- the invariant of the loop also says that the names of the views to come are free
  have steps : ∀ (rest : List Document.ViewDecl) (out : Namespace × List LocatedFault),
      (rest.map fun v => v.name.node).Nodup → (∀ v ∈ rest, out.1.lookup? v.name.node = none) →
      (∀ v ∈ rest, pipelineNames v.pipeline ⊆ names) → ViewsAdded fields sampled names out →
      ViewsAdded fields sampled names (rest.foldl (viewStep url sampling) out) := by
    intro rest
    induction rest with
    | nil => exact fun out _ _ _ added => added
    | cons v rest ih =>
      rintro ⟨ns, faults⟩ distinct fresh declared ⟨sound, wider, calm, old, echoes⟩
      rw [map_cons, nodup_cons] at distinct
      obtain ⟨free, others⟩ := forall_mem_cons.mp fresh
      obtain ⟨covered, coveredRest⟩ := forall_mem_cons.mp declared
      have gets : Gets names (pipelineStages url false ns sampling v.pipeline) _ :=
        (pipelineStages_gets v.pipeline ns sampling sampled sound calm allowed).mono covered
      rw [foldl_cons, viewStep]
      cases built : pipelineStages url false ns sampling v.pipeline with
      | error fault =>
        refine ih _ distinct.2 others coveredRest ⟨sound, wider, calm, old, ?_⟩
        intro f mem
        rcases mem_append.mp mem with mem | mem
        · exact echoes f mem
        · rw [mem_singleton.mp mem]
          exact gets.fault built
      | ok stages =>
        have stagesBuilt := gets.value built
        refine ih _ distinct.2 ?_ coveredRest ⟨sound.insert free (.view stagesBuilt.sound),
          wider.trans (insert_extends free _), ?_, ?_, echoes⟩
        · intro other mem
          rw [Slots.lookup?_insert, if_neg]
          · exact others other mem
          · exact fun same => distinct.1 (same ▸ mem_map.mpr ⟨other, mem, rfl⟩)
        · intro name view found
          rw [Slots.lookup?_insert] at found
          split at found
          · cases found
            exact stagesBuilt.calm
          · exact calm name view found
        · intro name f found
          rw [Slots.lookup?_insert] at found
          split at found
          · cases found
            exact .inl ⟨_, rfl⟩
          · exact old name f found
  exact steps views (fields, []) distinct fresh declared ⟨sound, .refl fields, calm, fun _ _ => .inr, by simp⟩

theorem mem_views (mem : v ∈ kept.filterMap Declaration.view?) : .view v ∈ kept := by
  obtain ⟨d, given, same⟩ := mem_filterMap.mp mem
  cases d <;> cases same
  exact given

theorem views_distinct (distinct : (kept.map fun d => d.name.node).Nodup) :
    ((kept.filterMap Declaration.view?).map fun v => v.name.node).Nodup := by
  induction kept with
  | nil => exact nodup_nil
  | cons d rest ih =>
    rw [map_cons, nodup_cons] at distinct
    cases d with
    | field _ _ | join _ _ => exact ih distinct.2
    | view v =>
      refine nodup_cons.mpr ⟨fun mem => distinct.1 ?_, ih distinct.2⟩
      obtain ⟨other, given, same⟩ := mem_map.mp mem
      exact mem_map.mpr ⟨_, mem_views given, same⟩

theorem primaryKey_yields (url : String) (fields : Namespace) (key : Document.Name) :
    Yields (fun f => f.fault.isOwn = true) (primaryKey url fields key) fun name =>
      (Names.of fields).level [name] = some .scalar := by
  unfold primaryKey
  split
  · next f found =>
    show (Names.of fields).level [_] = _
    rw [Namespace.level_single, Slots.lookup?_of_get? found]
    rfl
  · rfl
  · rfl

def chosenKey (key : Option (Except LocatedFault String)) (inherited : Option String) : Option String :=
  match key with
  | some (.ok name) => some name
  | _ => inherited

/-- The rest of a refinement whose joins are built. -/
def completed (url : String) (base : Source) (body : List Document.SourceProperty) (span : Span)
    (inherited : Namespace × List LocatedFault) (kept : List Declaration × List LocatedFault)
    (built : List (Except LocatedFault BuiltJoin)) : BuildM Source := do
  let outcome := ((resolveBody (bodyScope url inherited.1 kept.1 (values built)) (fieldDecls kept.1)
    (values built) (bodyFilters body)).run []).1
  let fields := bodyFields inherited.1 (values outcome.fields ++ values outcome.joins) kept.1
  let key := (bodyPrimaryKey body).map (primaryKey url fields)
  BuildM.settle (inherited.2 ++ kept.2 ++ faults built ++ faults outcome.fields ++ faults outcome.joins ++
    faults outcome.filters ++ faults key.toList)
  let added := addViews url base.origin.isTable fields (kept.1.filterMap Declaration.view?)
  BuildM.settle added.2
  return ⟨base.name, base.origin, added.1, chosenKey key base.primaryKey,
    base.filters ++ values outcome.filters, ⟨url, span⟩⟩

theorem refine_eq (base : Source) (body : List Document.SourceProperty) (declarations : List Declaration)
    (span : Span) (S : Surroundings) :
    refine base body declarations span S =
      (do
        let built ← buildJoins (claimNames S.url (reshape S.url base.fields body).1 declarations).1
        completed S.url base body span (reshape S.url base.fields body)
          (claimNames S.url (reshape S.url base.fields body).1 declarations) built) S := rfl

theorem JoinsBuilt.parts {kept : List Declaration × List LocatedFault} (sound : FieldsSound inherited)
    (claims : Claims inherited declarations kept) (joins : JoinsBuilt kept.1 built) :
    BodyParts inherited kept.1 (values built) where
  sound := sound
  distinct := claims.distinct
  fresh := claims.fresh
  named := joins.named.nodup claims.distinct
  given := joins.given
  sources j mem := (joins.sources j mem).sound

theorem fieldDecls_declared (url : String) (inherited : Namespace) (kept : List Declaration) (joins : List BuiltJoin)
    (mem : d ∈ fieldDecls kept) : ((bodyScope url inherited kept joins).declaration? d.1.name.node).isSome := by
  unfold Scope.declaration?
  rw [List.find?_isSome]
  exact ⟨d.1, mem_map.mpr ⟨d, mem, rfl⟩, by simp⟩

/-- Every fault of a body is accepted, or the body has a fault that echoes no other. -/
theorem body_rooted {after : List LocatedFault} {P : Fault → Prop}
    (bodied : (bodyScope url inherited kept joins).Bodied)
    (resolved : BodyResolved (bodyScope url inherited kept joins) (fieldDecls kept) joins outcome memo)
    (own : ∀ {fault}, fault.isCascade = false → P fault) (first : ∀ f ∈ before, P f.fault)
    (last : ∀ f ∈ after, P f.fault) :
    ∀ f ∈ before ++ faults outcome.fields ++ faults outcome.joins ++ faults outcome.filters ++ after,
      P f.fault ∨ ∃ g ∈ before ++ faults outcome.fields ++ faults outcome.joins ++
        faults outcome.filters ++ after, g.fault.isCascade = false := by
  intro f mem
  rcases mem_append.mp mem with mem | mem
  · rw [List.append_assoc, List.append_assoc] at mem
    rcases mem_append.mp mem with mem | mem
    · exact .inl (first f mem)
    · cases cascade : f.fault.isCascade with
      | false => exact .inl (own cascade)
      | true =>
        obtain ⟨g, given, free⟩ := body_root bodied rfl resolved (by simpa using mem) cascade
        exact .inr ⟨g, by simp [given], free⟩
  · exact .inl (last f mem)

theorem body_explained {fields : List (Document.FieldDecl × FieldRole)}
    (resolved : BodyResolved s fields joins outcome memo)
    (mem : f ∈ faults outcome.fields ++ faults outcome.joins ++ faults outcome.filters) : K.Faults f.fault := by
  rcases resolved_echoes resolved mem with own | ⟨name, _, same, _⟩
  · exact K.own own
  · exact same ▸ K.echo name

theorem refined_sound (given : SourceBuilt base) (wider : Namespace.Extends base.fields inherited)
    (old : ∀ name f, inherited.lookup? name = some f → ∃ old, base.fields.lookup? old = some f)
    (body : BodySound inherited kept joins n fields) (sources : ∀ j ∈ joins, SourceBuilt j.source)
    (added : ViewsAdded fields (base.origin.isTable = true) names out)
    (keyed : ∀ name, key = some (.ok name) → (Names.of fields).level [name] = some .scalar)
    (rows : ∀ f ∈ filters, f.expr.level? n = some .scalar) (location : Location) :
    SourceBuilt ⟨base.name, base.origin, out.1, chosenKey key base.primaryKey, base.filters ++ filters,
      location⟩ := by
  obtain ⟨⟨_, origin, baseStored, baseKey, baseRows, _⟩, _, baseJoins, behind, stages⟩ := given
  have fromFields := Namespace.names_le added.wider
  have fromBase := Namespace.names_le ((wider.trans body.wider).trans added.wider)
  refine .mk (.mk added.sound origin ?_ ?_ ?_ fun name v found => (added.calm name v found).starts) added.calm ?_ behind
    stages
  · intro q is column stored
    obtain ⟨name, f, found, isColumn⟩ := Namespace.stores_iff.mp stored
    rcases added.old name f found with ⟨v, rfl⟩ | found
    · cases isColumn
    · obtain ⟨name, f, found, isColumn⟩ :=
        Namespace.stores_iff.mp (body.stores column (Namespace.stores_iff.mpr ⟨name, f, found, isColumn⟩))
      obtain ⟨name, found⟩ := old name f found
      exact baseStored q is column (Namespace.stores_iff.mpr ⟨name, f, found, isColumn⟩)
  · intro name mem
    simp only [chosenKey] at mem
    split at mem
    · cases mem
      exact fromFields.1 _ _ (keyed _ rfl)
    · exact fromBase.1 _ _ (baseKey name mem)
  · intro f mem
    rcases mem_append.mp mem with mem | mem
    · exact Expr.level?_mono fromBase _ (baseRows f mem)
    · exact Expr.level?_mono (Names.le_trans body.names fromFields) _ (rows f mem)
  · intro name k found
    rcases added.old name _ found with ⟨v, impossible⟩ | found
    · cases impossible
    · rcases body.joined name k found with found | ⟨b, mem, same⟩
      · obtain ⟨name, found⟩ := old name _ found
        exact baseJoins name k found
      · exact same ▸ sources b mem

theorem completed_views (given : SourceBuilt base) {inherited : Namespace × List LocatedFault}
    {kept : List Declaration × List LocatedFault} (reshaped : Reshapes base.fields inherited)
    (claims : Claims inherited.1 declarations kept) (buildable : ∀ d ∈ declarations, Buildable K S names d)
    (parts : BodyParts inherited.1 kept.1 joins)
    (resolved : BodyResolved (bodyScope url inherited.1 kept.1 joins) (fieldDecls kept.1) joins outcome memo)
    (fieldsClean : faults outcome.fields = []) (joinsClean : faults outcome.joins = []) :
    BodySound inherited.1 kept.1 joins (bodyNames (draftOf url inherited.1 joins) memo)
        (bodyFields inherited.1 (values outcome.fields ++ values outcome.joins) kept.1) ∧
      ViewsAdded (bodyFields inherited.1 (values outcome.fields ++ values outcome.joins) kept.1)
        (base.origin.isTable = true) names
        (addViews url base.origin.isTable
          (bodyFields inherited.1 (values outcome.fields ++ values outcome.joins) kept.1)
          (kept.1.filterMap Declaration.view?)) := by
  have bodySound := body_sound parts resolved fieldsClean joinsClean
  have views : ViewsCalm (bodyFields inherited.1 (values outcome.fields ++ values outcome.joins) kept.1)
      (base.origin.isTable = true) := by
    intro name v found
    obtain ⟨old, found⟩ := reshaped.inherited name _ (bodySound.views name v found)
    cases given with | mk _ views => exact views old v found
  refine ⟨bodySound, addViews_adds id (kept.1.filterMap Declaration.view?) bodySound.sound views
    (views_distinct claims.distinct) (fun v mem => bodySound.free v (mem_views mem)) ?_⟩
  exact fun v mem => buildable _ (claims.given (mem_views mem))

theorem completed_ensures (given : SourceBuilt base) (body : List Document.SourceProperty) (span : Span)
    {inherited : Namespace × List LocatedFault} {kept : List Declaration × List LocatedFault}
    (reshaped : Reshapes base.fields inherited) (claims : Claims inherited.1 declarations kept)
    (buildable : ∀ d ∈ declarations, Buildable K S names d) (joins : JoinsBuilt kept.1 built)
    (admitted : ∀ f ∈ faults built, (buildDiscipline K S.invalid names).Admits reports f.fault) :
    Ensures (buildDiscipline K S.invalid names) reports
      (completed S.url base body span inherited kept built S) fun _ s => SourceBuilt s := by
  have parts := joins.parts reshaped.sound claims
  have bodied : (bodyScope S.url inherited.1 kept.1 (values built)).Bodied := bodyScope_bodied parts
  have resolved := resolveBody_resolves bodied (fieldDecls kept.1) (values built) (bodyFilters body)
    fun d mem => fieldDecls_declared _ _ _ _ mem
  unfold completed
  generalize (resolveBody (bodyScope S.url inherited.1 kept.1 (values built)) (fieldDecls kept.1)
    (values built) (bodyFilters body)).run [] = done at resolved ⊢
  obtain ⟨outcome, memo⟩ := done
  have first : ∀ f ∈ inherited.2 ++ kept.2 ++ faults built,
      (buildDiscipline K S.invalid names).Admits reports f.fault := by
    intro f mem
    rcases mem_append.mp mem with mem | mem
    · rcases mem_append.mp mem with mem | mem
      · exact Discipline.admits_own _ _ (reshaped.own f mem)
      · exact Discipline.admits_own _ _ (claims.own f mem)
    · exact admitted f mem
  have last : ∀ f ∈ faults ((bodyPrimaryKey body).map (primaryKey S.url (bodyFields inherited.1
      (values outcome.fields ++ values outcome.joins) kept.1))).toList,
      (buildDiscipline K S.invalid names).Admits reports f.fault := by
    intro f mem
    obtain ⟨key, _, same⟩ := Option.map_eq_some_iff.mp (Option.mem_toList.mp (mem_faults.mp mem))
    exact Discipline.admits_own _ _ ((primaryKey_yields _ _ _).fault same)
  refine ensures_step (settle_ensures ?_ (body_rooted bodied resolved rooted_loud
    (fun f mem => (first f mem).2) fun f mem => (last f mem).2)) fun later _ _ clean => ?_
  · intro f mem
    rcases mem_append.mp mem with mem | mem
    · rw [List.append_assoc, List.append_assoc] at mem
      rcases mem_append.mp mem with mem | mem
      · exact (first f mem).1
      · exact body_explained resolved (by simpa using mem)
    · exact (last f mem).1
  · simp only [append_eq_nil_iff] at clean
    obtain ⟨⟨⟨⟨⟨⟨_, _⟩, _⟩, fieldsClean⟩, joinsClean⟩, _⟩, _⟩ := clean
    obtain ⟨bodySound, added⟩ :=
      completed_views given reshaped claims buildable parts resolved fieldsClean joinsClean
    have admitted {f : LocatedFault} (echoes : EchoesOne names f.fault) :
        (buildDiscipline K S.invalid names).Admits later f.fault := admits_echo echoes
    refine ensures_step (settle_ensures (fun f mem => (admitted (added.echoes f mem)).1)
      fun f mem => .inl (admitted (added.echoes f mem)).2) fun last _ _ _ => ?_
    refine ensures_pure (refined_sound given reshaped.wider reshaped.inherited bodySound joins.sources added ?_ ?_ _)
    · intro name given
      obtain ⟨key, _, same⟩ := Option.map_eq_some_iff.mp given
      exact (primaryKey_yields _ _ _).value same
    · exact fun f mem => resolved.filters _ (mem_values.mp mem)

theorem refine_builds (given : SourceBuilt base) (body : List Document.SourceProperty)
    (declarations : List Declaration) (buildable : ∀ d ∈ declarations, Buildable K S names d) (span : Span) :
    Builds K S names (refine base body declarations span) SourceBuilt := by
  have reshaped := reshape_reshapes S.url given.sound.fields body
  have claims := claimNames_claims S.url (reshape S.url base.fields body).1 declarations
  intro reports
  rw [refine_eq]
  refine ensures_step (buildJoins_ensures _ fun d mem => buildable d (claims.given mem)) ?_
  exact fun later built _ ⟨joins, admitted⟩ => completed_ensures given body span reshaped claims buildable joins admitted

mutual

def sourceStageNames : Document.SourceExpr → List String
  | .named _ | .table _ _ _ | .fromSql _ => []
  | .fromQuery inner _ => queryStageNames inner
  | .refine base body _ => sourceStageNames base ++ bodyStageNames body

def bodyStageNames : List Document.SourceProperty → List String
  | [] => []
  | property :: rest => sourcePropertyStageNames property ++ bodyStageNames rest

def sourcePropertyStageNames : Document.SourceProperty → List String
  | .join joins => joinsStageNames joins
  | .view views => views.flatMap fun v => pipelineNames v.pipeline
  | _ => []

def joinsStageNames : List Document.JoinDecl → List String
  | [] => []
  | ⟨_, _, inner, _, _⟩ :: rest => joinStageNames inner ++ joinsStageNames rest

def joinStageNames : Option Document.SourceExpr → List String
  | none => []
  | some inner => sourceStageNames inner

def queryStageNames : Document.QueryExpr → List String
  | ⟨head, pipeline, _⟩ => headStageNames head ++ pipelineNames pipeline

def headStageNames : Document.QueryHead → List String
  | .source inner => sourceStageNames inner
  | .query _ => []

end

def EntitySound : Entity → Prop
  | .source s => SourceBuilt s
  | .query q => QueryBuilt q
  | .sqlBlock _ => True

def Surroundings.Sound (S : Surroundings) : Prop :=
  ∀ name entity, S.entities.lookup name = some entity → EntitySound entity

theorem flat_built (fields : FieldsSound s.fields)
    (flat : ∀ name f, s.fields.lookup? name = some f → f.isJoin = false ∧ ∀ v, f ≠ .view v)
    (origin : ∀ q, s.origin = .query q → QueryBuilt q)
    (stored : ∀ q, s.origin = .query q → ∀ name, Namespace.stores s.fields name = true →
      name ∈ q.outputSchema.map ResultField.name) (key : s.primaryKey = none) (rows : s.filters = []) :
    SourceBuilt s := by
  have noView {name : String} {v : View} (found : s.fields.lookup? name = some (.view v)) : False :=
    (flat name _ found).2 v rfl
  refine .mk (.mk fields (fun q is => (origin q is).sound) stored ?_ ?_ fun _ _ found => (noView found).elim)
    (fun _ _ found => (noView found).elim) (fun name j found => ?_) (fun q is => (origin q is).source)
    fun q is => (origin q is).calm
  · simp [key]
  · simp [rows]
  · cases (flat name _ found).1

theorem ofColumns_flat (columns : TableSchema) (location : Location) (name : String) (f : FieldDef)
    (found : (Namespace.ofColumns columns location).lookup? name = some f) : f.isJoin = false ∧ ∀ v, f ≠ .view v := by
  unfold Namespace.ofColumns at found
  rw [Slots.lookup?_ofList] at found
  obtain ⟨column, _, same⟩ := mem_map.mp (mem_reverse.mp (mem_of_lookup found))
  cases same
  simp [FieldDef.ofColumn, FieldDef.isJoin, FieldDef.join?]

theorem ofResult_plain (fields : List ResultField) (location : Location) (name : String) (f : FieldDef)
    (found : (Namespace.ofResult fields location).lookup? name = some f) : f.isJoin = false ∧ ∀ v, f ≠ .view v := by
  rw [lookup?_ofResult] at found
  obtain ⟨field, _, rfl⟩ := Option.map_eq_some_iff.mp found
  unfold FieldDef.ofResult
  split <;> simp [FieldDef.ofColumn, FieldDef.isJoin, FieldDef.join?]

theorem sourceOfQuery_built {q : Query} (built : QueryBuilt q) (location : Location) :
    SourceBuilt (sourceOfQuery q location) := by
  refine flat_built (.ofResult _ _) (ofResult_plain _ _) ?_ ?_ rfl rfl
  · intro other same
    cases same
    exact built
  · intro other same name stored
    cases same
    exact stores_ofResult stored

theorem sourceOfSql_built (block : SqlBlock) (location : Location) :
    SourceBuilt (sourceOfSql block location) :=
  flat_built (.ofColumns _ _) (ofColumns_flat _ _) nofun nofun rfl rfl

/-- What a query starts from: a source, and stages that are built already. -/
def HeadBuilt (head : Source × List Stage) : Prop :=
  SourceBuilt head.1 ∧ StagesBuilt (Names.of head.1.fields) (head.1.origin.isTable = true) head.2

section Statements

section

variable (sound : S.Sound) (name : Document.Name)

include sound name

theorem entityOf?_builds :
    Builds K S names (entityOf? name) fun found => ∀ entity ∈ found, EntitySound entity := by
  refine builds_read ?_
  cases failed : (S.invalid.lookup name.node).isSome with
  | false => exact builds_pure fun entity mem => sound name.node entity mem
  | true =>
    exact builds_throw fun _ =>
      ⟨K.echo name.node, fun _ => .inr ⟨name.node, rfl, .inl failed⟩⟩

theorem namedSource_builds :
    Builds K S names (namedSource name) SourceBuilt := by
  refine builds_read (builds_guard rfl fun _ => ?_)
  refine builds_bind (entityOf?_builds sound name) fun found entities => ?_
  cases found with
  | none => exact builds_fail rfl
  | some entity =>
    have good := entities entity rfl
    cases entity with
    | source source => exact builds_pure good
    | query query => exact builds_location fun location _ => builds_pure (sourceOfQuery_built good location)
    | sqlBlock block => exact builds_location fun location _ => builds_pure (sourceOfSql_built block location)

theorem namedQuery_builds :
    Builds K S names (namedQuery name) QueryBuilt := by
  refine builds_bind (entityOf?_builds sound name) fun found entities => ?_
  split
  · next query => exact builds_pure (entities _ rfl)
  · exact builds_fail rfl

theorem namedSql_builds :
    Builds K S names (namedSql name) SourceBuilt := by
  refine builds_bind (entityOf?_builds sound name) fun found entities => ?_
  split
  · next block => exact builds_location fun location _ => builds_pure (sourceOfSql_built block location)
  · exact builds_fail rfl

end

theorem find_loud (table : SchemaTable) (key : String) (fault : Fault)
    (h : Catalog.find table key = .error fault) : fault.isCascade = false := by
  unfold Catalog.find at h
  split at h <;> cases h <;> rfl

theorem tableSource_builds {connection : Option String}
    (answered : ∀ fault, S.catalog.table (schemaKey connection path) = .error fault → K.Faults fault) (span : Span) :
    Builds K S names (tableSource connection path span) SourceBuilt := by
  refine builds_read (builds_bind (Q := fun _ => True) ?_ fun schema _ => ?_)
  · cases found : S.catalog.table (schemaKey connection path) with
    | ok schema => exact builds_pure trivial
    | error fault =>
      exact builds_throw fun _ =>
        ⟨answered fault found, rooted_loud (find_loud _ _ fault found)⟩
  · refine builds_location fun location _ => builds_pure ?_
    exact flat_built (.ofColumns _ _) (ofColumns_flat _ _) nofun nofun rfl rfl

theorem queryOver_builds {source : Source} (head : HeadBuilt (source, stages)) (name : Option String)
    (subset : pipelineNames pipeline ⊆ names) (span : Span) :
    Builds K S names (queryOver name source stages pipeline span) QueryBuilt := by
  obtain ⟨given, before⟩ := head
  have views : ViewsCalm source.fields (source.origin.isTable = true) := by cases given with | mk _ views => exact views
  refine builds_location fun location _ => ?_
  have gets : Gets (pipelineNames pipeline) (pipelineStages location.url false _ _ pipeline) _ :=
    pipelineStages_gets pipeline (after location.url span source.fields stages)
      (stages.isEmpty && source.origin.isTable) _ (after_sound location.url span given.sound.fields stages)
      (after_views location.url span views stages) (by simp)
  simp only
  split
  · next added built =>
    have after := gets.value built
    refine builds_bind (builds_pure rfl) ?_
    rintro _ rfl
    refine builds_guard rfl fun nonempty => builds_pure ?_
    have names := (after_names location.url span source.fields stages).1
    obtain ⟨sound, calm⟩ := stagesBuilt_append.mpr ⟨before, after.mono names⟩
    exact ⟨.mk given.sound (by simpa using nonempty) sound calm.starts, given, calm⟩
  · next fault built =>
    refine builds_bind (Q := fun _ => False) (builds_throw fun _ => ?_) fun _ impossible => impossible.elim
    exact admits_echo (echoesOne_mono subset (gets.fault built))

def Answered (K : Complaints) (c : Catalog) (tables : List TableRequest) : Prop :=
  ∀ r ∈ tables, ∀ fault, c.table r.key = .error fault → K.Faults fault

theorem Answered.split {c : Catalog} (answered : Answered K c (a ++ b)) : Answered K c a ∧ Answered K c b :=
  ⟨fun r mem => answered r (mem_append_left _ mem), fun r mem => answered r (mem_append_right _ mem)⟩

theorem answered_every (c : Catalog) (tables : List TableRequest) : Answered .every c tables :=
  fun _ _ _ _ => trivial

mutual

theorem source_builds (sound : S.Sound) : ∀ (e : Document.SourceExpr), Answered K S.catalog e.tables →
    Builds K S (sourceStageNames e) (source e) SourceBuilt
  | .named name, _ => by rw [sourceStageNames]; exact namedSource_builds sound name
  | .table connection path span, answered => by
    exact tableSource_builds (answered ⟨connection, path⟩ (by simp [Document.SourceExpr.tables])) span
  | .fromQuery inner span, answered => by
    refine builds_bind (query_builds sound none inner answered) fun q built => ?_
    exact builds_location fun location _ => builds_pure (sourceOfQuery_built built location)
  | .fromSql name, _ => by rw [sourceStageNames]; exact namedSql_builds sound name
  | .refine base body span, answered => by
    obtain ⟨first, second⟩ := answered.split
    have declared := bodyDeclarations_buildable sound body second
      (subset_append_right (sourceStageNames base) (bodyStageNames body))
    refine builds_bind (builds_weaken (source_builds sound base first) (subset_append_left _ _) fun _ h => h) ?_
    exact fun s built => refine_builds built body _ declared span

theorem query_builds (sound : S.Sound) (name : Option String) : ∀ (e : Document.QueryExpr),
    Answered K S.catalog e.tables → Builds K S (queryStageNames e) (query name e) QueryBuilt
  | ⟨.source inner, pipeline, span⟩, answered => by
    refine builds_bind (Q := HeadBuilt) (builds_bind (builds_weaken (source_builds sound inner answered)
      (subset_append_left _ _) fun _ h => h) fun s built => builds_pure ?_) fun head built => ?_
    · exact ⟨built, stagesBuilt_nil⟩
    · exact queryOver_builds built name (subset_append_right _ _) span
  | ⟨.query base, pipeline, span⟩, _ => by
    refine builds_bind (Q := HeadBuilt) (builds_bind (namedQuery_builds sound base) fun q built =>
      builds_pure ?_) fun head built => ?_
    · cases built.sound with | mk _ _ stages => exact ⟨built.source, stages, built.calm⟩
    · exact queryOver_builds built name (subset_append_right _ _) span

theorem bodyDeclarations_buildable {names : List String} (sound : S.Sound) : ∀ (body : List Document.SourceProperty),
    Answered K S.catalog (Document.propertyTables body) → bodyStageNames body ⊆ names →
    ∀ d ∈ bodyDeclarations body, Buildable K S names d
  | [], _, _ => by rw [bodyDeclarations]; simp
  | property :: rest, answered, subset => by
    obtain ⟨first, others⟩ := append_subset.mp subset
    intro d mem
    rcases mem_append.mp mem with mem | mem
    · exact propertyDeclarations_buildable sound property answered.split.1 first d mem
    · exact bodyDeclarations_buildable sound rest answered.split.2 others d mem

theorem propertyDeclarations_buildable {names : List String} (sound : S.Sound) : ∀ (property : Document.SourceProperty),
    Answered K S.catalog property.tables → sourcePropertyStageNames property ⊆ names →
    ∀ d ∈ propertyDeclarations property, Buildable K S names d
  | .dimension fields, _, _ | .measure fields, _, _ | .declare fields, _, _ => by
    intro d mem
    obtain ⟨_, _, rfl⟩ := mem_map.mp mem
    trivial
  | .join joins, answered, subset => by
    exact joinDeclarations_buildable sound joins answered subset
  | .view views, _, subset => by
    intro d mem
    obtain ⟨v, given, rfl⟩ := mem_map.mp mem
    exact fun name mem => subset (mem_flatMap.mpr ⟨v, given, mem⟩)
  | .filter _, _, _ | .primaryKey _, _, _ | .accept _, _, _ | .except _, _, _ | .rename _, _, _ => by
    simp [propertyDeclarations]

theorem joinDeclarations_buildable {names : List String} (sound : S.Sound) : ∀ (joins : List Document.JoinDecl),
    Answered K S.catalog (Document.joinTables joins) → joinsStageNames joins ⊆ names →
    ∀ d ∈ joinDeclarations joins, Buildable K S names d
  | [], _, _ => by rw [joinDeclarations]; simp
  | ⟨name, kind, none, condition, span⟩ :: rest, answered, subset => by
    refine forall_mem_cons.mpr ⟨namedSource_builds sound name, ?_⟩
    exact joinDeclarations_buildable sound rest answered.split.2 (append_subset.mp subset).2
  | ⟨name, kind, some inner, condition, span⟩ :: rest, answered, subset => by
    obtain ⟨first, others⟩ := append_subset.mp subset
    refine forall_mem_cons.mpr ⟨?_, joinDeclarations_buildable sound rest answered.split.2 others⟩
    exact builds_weaken (source_builds sound inner answered.split.1) first fun _ h => h

end

theorem source_sound (sound : S.Sound) (e : Document.SourceExpr) {reports : List Diagnostic}
    (built : ((source e S).run.run reports).1 = .ok s) : SourceSound s :=
  ((source_builds sound e (answered_every _ _) reports fun _ _ => trivial).2.2.value built).sound

end Statements

end SemanticLayer.Elaborate
