import SemanticLayer.Elaborate.Source
import SemanticLayer.Proofs.Elaborate.Stage
import SemanticLayer.Proofs.Sorted

/-!
The body of a refined source. Inherited fields are hidden and renamed, new names are claimed, and the
declarations of the body are elaborated against one another. Where all of them succeed, the fields of the
refined source are sound; where one of them only echoes another, the other one's fault is found too.
-/
namespace SemanticLayer.Elaborate

open List

open Memo

def OwnFaults (faults : List LocatedFault) : Prop := ∀ f ∈ faults, f.fault.isOwn = true

theorem ownFaults_append (first : OwnFaults a) (second : OwnFaults b) : OwnFaults (a ++ b) := by
  intro f mem
  exact (mem_append.mp mem).elim (first f) (second f)

/-- Fields that were hidden or renamed: all old names are still there for definitions. -/
structure Reshapes (ns : Namespace) (out : Namespace × List LocatedFault) : Prop where
  sound : FieldsSound out.1
  wider : ns.Extends out.1
  inherited : ∀ name f, out.1.lookup? name = some f → ∃ old, ns.lookup? old = some f
  own : OwnFaults out.2

section Reshaping

variable {ns : Namespace}

variable {faults : List LocatedFault}

theorem reshapes_same (sound : FieldsSound ns) (own : OwnFaults faults) : Reshapes ns (ns, faults) :=
  ⟨sound, .refl ns, fun name _ found => ⟨name, found⟩, own⟩

theorem reshapes_trans (first : Reshapes ns (mid, faults)) (second : Reshapes mid (last, more)) :
    Reshapes ns (last, faults ++ more) where
  sound := second.sound
  wider := first.wider.trans second.wider
  inherited name f found := by
    obtain ⟨old, found⟩ := second.inherited name f found
    exact first.inherited old f found
  own := ownFaults_append first.own second.own

theorem restrict_reshapes (sound : FieldsSound ns) (keep : String → Bool) (own : OwnFaults faults) :
    Reshapes ns (ns.restrict keep, faults) where
  sound := sound.congr (Slots.distinct_restrict sound.distinct keep) (Slots.lookup?_restrict ns keep)
  wider name f found := ⟨f, (Slots.lookup?_restrict ns keep name).trans found, rfl, rfl, rfl⟩
  inherited name _ found := ⟨name, (Slots.lookup?_restrict ns keep name).symm.trans found⟩
  own := own

theorem rename_reshapes (sound : FieldsSound ns) (visible : ns.get? old = some field) (free : ns.lookup? new = none) :
    Reshapes ns (ns.rename old new, []) := by
  have looks := Slots.lookup?_rename sound.distinct visible free
  have same : ∀ name, (ns.rename old new).lookup? name = (ns.insert new field).lookup? name := by
    intro name
    rw [looks, Slots.lookup?_insert]
  have fits := sound.fits (Slots.lookup?_of_get? visible)
  refine ⟨(sound.insert free fits).congr (Slots.rename_entries sound.distinct visible free).2 same, ?_, ?_,
    by simp [OwnFaults]⟩
  · intro name f found
    exact ⟨f, (same name).trans (insert_there free field name f found), rfl, rfl, rfl⟩
  · intro name f found
    rw [looks] at found
    split at found
    · cases found
      exact ⟨old, Slots.lookup?_of_get? visible⟩
    · exact ⟨name, found⟩

theorem renameOne_reshapes (url : String) (sound : FieldsSound ns) (r : Document.RenameDecl) :
    Reshapes ns (renameOne url ns r) := by
  unfold renameOne
  split
  · exact reshapes_same sound (by simp [OwnFaults, Fault.isOwn])
  · next present =>
    split
    · exact reshapes_same sound (by simp [OwnFaults, Fault.isOwn])
    · next free =>
      have present : (ns.get? r.oldName.node).isSome = true := by
        simpa [Slots.contains, Option.isSome_iff_ne_none] using present
      obtain ⟨field, visible⟩ := Option.isSome_iff_exists.mp present
      rw [Slots.defines_eq] at free
      exact rename_reshapes sound visible (by simpa using free)

theorem foldl_reshapes {γ : Type} {step : Namespace → γ → Namespace × List LocatedFault}
    (each : ∀ ns x, FieldsSound ns → Reshapes ns (step ns x)) (items : List γ) :
    ∀ {start : Namespace} {faults : List LocatedFault}, Reshapes ns (start, faults) →
      Reshapes ns (items.foldl (fun (fields, faults) x =>
        ((step fields x).1, faults ++ (step fields x).2)) (start, faults)) := by
  induction items with
  | nil => exact fun so_far => so_far
  | cons x rest ih =>
    intro start faults so_far
    exact ih (reshapes_trans so_far (each start x so_far.sound))

theorem listed_own (url : String) (fields : Namespace) (names : List Document.Name) :
    OwnFaults (listed url fields names).2 := by
  intro f mem
  obtain ⟨name, _, found⟩ := mem_filterMap.mp mem
  split at found <;> cases found
  rfl

theorem reshapeBy_reshapes (url : String) (ns : Namespace) (p : Document.SourceProperty)
    (sound : FieldsSound ns) : Reshapes ns (reshapeBy url ns p) := by
  have unchanged : Reshapes ns (ns, []) := reshapes_same sound (by simp [OwnFaults])
  cases p with
  | accept names => exact restrict_reshapes sound _ (listed_own url ns names)
  | except names => exact restrict_reshapes sound _ (listed_own url ns names)
  | rename renames => exact foldl_reshapes (fun _ r sound => renameOne_reshapes url sound r) renames unchanged
  | _ => exact unchanged

theorem reshape_reshapes (url : String) (sound : FieldsSound ns) (body : List Document.SourceProperty) :
    Reshapes ns (reshape url ns body) :=
  foldl_reshapes (reshapeBy_reshapes url) body (reshapes_same sound (by simp [OwnFaults]))

end Reshaping

/-- Declarations that have their names for themselves. -/
structure Claims (inherited : Namespace) (declarations : List Declaration)
    (out : List Declaration × List LocatedFault) : Prop where
  given : out.1 ⊆ declarations
  distinct : (out.1.map fun d => d.name.node).Nodup
  fresh : ∀ d ∈ out.1, inherited.lookup? d.name.node = none
  own : OwnFaults out.2

theorem nameClash?_own (h : nameClash? inherited earlier d = some fault) : fault.isOwn = true := by
  unfold nameClash? at h
  simp only at h
  split at h
  · cases h
  · split at h <;> cases h <;> rfl

theorem nameClash?_none (h : nameClash? inherited earlier d = none) :
    (∀ other ∈ earlier, other.name.node ≠ d.name.node) ∧ inherited.lookup? d.name.node = none := by
  unfold nameClash? at h
  simp only at h
  split at h
  · next free =>
    simpa [Slots.defines_eq] using free
  · split at h <;> cases h

def claimStep (url : String) (inherited : Namespace) (out : List Declaration × List LocatedFault) (d : Declaration) :
    List Declaration × List LocatedFault :=
  match nameClash? inherited out.1 d with
  | some fault => (out.1, out.2 ++ [⟨fault, ⟨url, d.name.span⟩⟩])
  | none => (out.1 ++ [d], out.2)

theorem claimNames_claims (url : String) (inherited : Namespace) (declarations : List Declaration) :
    Claims inherited declarations (claimNames url inherited declarations) := by
  have step : ∀ (rest done : List Declaration) (out : List Declaration × List LocatedFault),
      Claims inherited done out → Claims inherited (done ++ rest) (rest.foldl (claimStep url inherited) out) := by
    intro rest
    induction rest with
    | nil => simp
    | cons d rest ih =>
      rintro done ⟨kept, faults⟩ claims
      have split : done ++ d :: rest = (done ++ [d]) ++ rest := by simp
      rw [split]
      refine ih _ _ ?_
      obtain ⟨given, distinct, fresh, own⟩ := claims
      cases clash : nameClash? inherited kept d with
      | some fault =>
        simp only [claimStep, clash]
        refine ⟨subset_append_of_subset_left _ given, distinct, fresh, ownFaults_append own ?_⟩
        simpa [OwnFaults] using nameClash?_own clash
      | none =>
        obtain ⟨others, free⟩ := nameClash?_none clash
        simp only [claimStep, clash]
        refine ⟨?_, ?_, ?_, own⟩
        · exact append_subset.mpr ⟨subset_append_of_subset_left _ given, by simp⟩
        · rw [map_append]
          refine nodup_append.mpr ⟨distinct, by simp, ?_⟩
          intro name mem other same
          obtain ⟨earlier, present, rfl⟩ := mem_map.mp mem
          rw [map_singleton, mem_singleton] at same
          exact same ▸ others earlier present
        · intro other mem
          rcases mem_append.mp mem with mem | mem
          · exact fresh other mem
          · rw [mem_singleton.mp mem]
            exact free
  exact step declarations [] ([], []) ⟨by simp, by simp, by simp, by simp [OwnFaults]⟩

def recordedLevel (memo : Memo) : List String → Option Level
  | [name] =>
    match memo.lookup name with
    | some (.ok t) => some t.level
    | _ => none
  | _ => none

/-- The levels that expressions of a body know: those of the fields so far, and of the declarations that
are done. -/
def bodyLevel (draft : Namespace) (memo : Memo) (path : List String) : Option Level :=
  ((Names.of draft).level path).or (recordedLevel memo path)

theorem recordedLevel_keeps (keeps : Keeps memo later) (h : recordedLevel memo path = some l) :
    recordedLevel later path = some l := by
  unfold recordedLevel at h ⊢
  split at h
  · split at h
    · next found => rw [keeps _ _ found]; exact h
    · cases h
  · cases h

theorem bodyLevel_keeps (keeps : Keeps memo later) (h : bodyLevel draft memo path = some l) :
    bodyLevel draft later path = some l := by
  unfold bodyLevel at h ⊢
  rcases Option.or_eq_some_iff.mp h with own | ⟨none, recorded⟩
  · rw [own, Option.some_or]
  · rw [none]
    exact recordedLevel_keeps keeps recorded

def bodyNames (draft : Namespace) (memo : Memo) : Names :=
  ⟨bodyLevel draft memo, (Names.of draft).joins, (Names.of draft).columns⟩

theorem joins_base (ns : Namespace) : (Names.of ns).joins [] = true := rfl

def bodyLevels (draft : Namespace) : Judgement Keeps :=
  levels (bodyLevel draft) (Names.of draft).joins (Names.of draft).columns (joins_base draft)
    fun keeps h => bodyLevel_keeps keeps h

theorem draft_le_body (draft : Namespace) (memo : Memo) : Names.of draft ≤ bodyNames draft memo := by
  refine ⟨fun path l h => ?_, fun _ h => h, fun _ h => h⟩
  show bodyLevel draft memo path = some l
  rw [bodyLevel, h, Option.some_or]

/-- The scope of a body: declarations are referred to by name, and their names are new. -/
structure Scope.Bodied (s : Scope) : Prop where
  named : s.inlining = false
  fresh : ∀ {name}, (s.declaration? name).isSome → s.root.lookup? name = none

theorem body_judges {s : Scope} (body : s.Bodied) : s.Judges (bodyLevels s.root) [] where
  root {memo first rest r} _ _ h := by
    obtain ⟨level, paths, joined⟩ := refer_refers h
    have le := draft_le_body s.root memo
    exact ⟨fun l hl => Expr.level?_mono le _ (level l hl), paths, joined⟩
  declared {memo name t} declared recorded leveled := by
    refine reference_refers leveled rfl ?_
    rw [Scope.reference, body.named]
    show bodyLevel s.root memo [name] = some t.level
    rw [bodyLevel, Namespace.level_single, body.fresh (by simpa using declared)]
    simp [recordedLevel, recorded]
  good {name t} h := by cases h
  faultless {name f} h := by cases h

abbrev bodyDiscipline (s : Scope) : Discipline Memo := s.discipline (bodyLevels s.root).Good [] []

def fieldFor (name : String) (t : Typed) (location : Location) : FieldDef :=
  if t.isAggregate then .measure ⟨name, t.expr, t.type, location⟩
  else .dimension ⟨name, t.expr, t.type, location⟩

theorem fieldFor_defined {t : Typed} (leveled : Leveled n t) (name : String) (location : Location) :
    (fieldFor name t location).Defined n := by
  unfold fieldFor
  split
  · next aggregate => exact .measure (by rw [leveled.level, aggregate_of aggregate])
  · next scalar => exact .dimension (by rw [leveled.level, scalar_of_not (by simpa using scalar)])

theorem fieldFor_similar (name other : String) (t : Typed) (location elsewhere : Location) :
    Similar (fieldFor name t location) (fieldFor other t elsewhere) := by
  unfold fieldFor
  split
  · exact .measure rfl
  · exact .dimension rfl

/-- What became of a declared field. Its outcome is recorded, and a fault that was recorded comes out. -/
structure FieldOutcome (decl : Document.FieldDecl) (memo : Memo)
    (outcome : Except LocatedFault (String × FieldDef)) : Prop where
  yields : Yields (fun f => Echoes memo f.fault) outcome fun entry =>
    ∃ t location, memo.lookup decl.name.node = some (.ok t) ∧
      entry = (decl.name.node, fieldFor decl.name.node t location)
  recorded : ∃ found, memo.lookup decl.name.node = some found ∧ ∀ f, found = .error f → outcome = .error f

theorem FieldOutcome.later {later : Memo} {outcome : Except LocatedFault (String × FieldDef)}
    (keeps : Keeps memo later) (h : FieldOutcome decl memo outcome) : FieldOutcome decl later outcome where
  yields := h.yields.weaken (fun _ => echoes_later keeps) fun _ ⟨t, location, found, same⟩ =>
    ⟨t, location, keeps _ _ found, same⟩
  recorded := by
    obtain ⟨found, there, faults⟩ := h.recorded
    exact ⟨found, keeps _ _ there, faults⟩

section Elaboration

variable {s : Scope} {memo : Memo}

def fieldStep (s : Scope) (d : Document.FieldDecl × FieldRole) :
    StateM Memo (Except LocatedFault (String × FieldDef)) := do
  return (← (fieldOf s d.1 d.2).run).map fun field => (d.1.name.node, field)

theorem fieldStep_outcome (body : s.Bodied) (d : Document.FieldDecl × FieldRole)
    (declared : (s.declaration? d.1.name.node).isSome) :
    Leaves (bodyDiscipline s) memo (fieldStep s d) fun later => FieldOutcome d.1 later := by
  intro holds
  obtain ⟨holds, keeps, yields, recorded⟩ := resolve_ensures (body_judges body) declared holds
  unfold fieldStep fieldOf
  simp only [StateT.run_bind]
  rw [run_bind]
  rcases h : (s.resolve d.1.name.node).run.run memo with ⟨f | t, later⟩ <;>
    simp only [h] at holds keeps yields recorded ⊢
  · refine ⟨holds, keeps, yields, _, recorded, fun g same => ?_⟩
    cases same
    rfl
  · split
    · exact ⟨holds, keeps, .inl rfl, _, recorded, fun _ same => by cases same⟩
    · exact ⟨holds, keeps, ⟨t, s.location d.1.span, recorded, rfl⟩, _, recorded, fun _ same => by cases same⟩

theorem keyCorrelation_own {key : Typed} (leveled : Leveled n key) (name : String) (source : Source) :
    Own (keyCorrelation name source key) fun c => c.Fits n source := by
  unfold keyCorrelation
  split
  · rfl
  · next scalar =>
    split
    · rfl
    · next type typed =>
      split
      · refine ⟨by rw [leveled.level, scalar_of_not (by simpa using scalar)], ?_⟩
        unfold primaryKeyType? at typed
        cases hk : source.primaryKey with
        | none => rw [hk] at typed; cases typed
        | some key => rfl
      · rfl

theorem onCorrelation_own {condition : Typed} (leveled : Leveled n condition) (source : Source) :
    Own (onCorrelation condition) fun c => c.Fits n source := by
  unfold onCorrelation
  split
  · rfl
  · next scalar =>
    split
    · show Correlation.Fits n source (.on condition.expr)
      rw [Correlation.Fits, leveled.level, scalar_of_not (by simpa using scalar)]
    · rfl

theorem impliedCorrelation_own (parent : Namespace) (name : String) (source : Source) :
    Own (impliedCorrelation parent name source) fun c => c.Fits (Names.of parent) source := by
  unfold impliedCorrelation
  split
  · rfl
  · next key given =>
    split
    · next f resolved =>
      refine ⟨?_, by rw [given]; rfl⟩
      obtain ⟨last, split, within, found, _⟩ :=
        Namespace.resolved_spec (Namespace.resolveDefined_of_resolve resolved)
      show (parent.field? _).bind _ = _
      rw [split, Namespace.field?_snoc, within]
      simp [found, FieldDef.level?]
    · rfl

theorem correlate_ensures (body : s.Bodied) (join : Document.JoinDecl) (source : Source) :
    Ensures (bodyDiscipline s) memo (correlate s join source) fun later c =>
      c.Fits (bodyNames s.root later) source := by
  unfold correlate
  split
  · next e _ =>
    refine ensures_bind (typed_ensures (body_judges body) e) fun later t _ leveled => ?_
    exact ensures_located s.context (keyCorrelation_own leveled _ _)
  · next e _ =>
    refine ensures_bind (typed_ensures (body_judges body) e) fun later t _ leveled => ?_
    exact ensures_located s.context (onCorrelation_own leveled _)
  · split
    · exact ensures_pure trivial
    · refine ensures_located s.context ((impliedCorrelation_own _ _ _).weaken (fun _ h => h) fun c h => ?_)
      exact h.mono (draft_le_body _ _)

theorem sourceFilter_ensures (body : s.Bodied) (filter : Document.Expr) :
    Ensures (bodyDiscipline s) memo (sourceFilter s filter) fun later f =>
      f.expr.level? (bodyNames s.root later) = some .scalar := by
  refine ensures_bind (typed_ensures (body_judges body) filter) fun later t _ leveled => ?_
  refine ensures_guard rfl fun scalar => ensures_guard rfl fun _ => ensures_pure ?_
  exact leveled.level.trans (by rw [scalar_of_not (by simpa using scalar)])

/-- Every question has an answer, and every answer a question. -/
structure Answers {γ β : Type} (R : γ → β → Prop) (items : List γ) (outcomes : List β) : Prop where
  asked : ∀ b ∈ outcomes, ∃ x ∈ items, R x b
  answered : ∀ x ∈ items, ∃ b ∈ outcomes, R x b

theorem Answers.imp {γ β : Type} {R S : γ → β → Prop} {items : List γ} {outcomes : List β}
    (answers : Answers R items outcomes) (image : ∀ x b, R x b → S x b) : Answers S items outcomes where
  asked b mem := (answers.asked b mem).imp fun x h => ⟨h.1, image x b h.2⟩
  answered x mem := (answers.answered x mem).imp fun b h => ⟨h.1, image x b h.2⟩

theorem mapM_answers {σ γ β : Type} {D : Discipline σ} {step : γ → StateM σ β} {R : σ → γ → β → Prop}
    (stable : ∀ {t u x b}, D.Grows t u → R t x b → R u x b) (items : List γ)
    (each : ∀ x ∈ items, ∀ t, Leaves D t (step x) fun u => R u x) :
    ∀ t, Leaves D t (items.mapM step) fun u => Answers (R u) items := by
  induction items with
  | nil => exact fun t => leaves_pure ⟨nofun, nofun⟩
  | cons x rest ih =>
    intro t
    rw [mapM_cons]
    refine leaves_bind (each x mem_cons_self t) fun u b _ here => ?_
    refine leaves_bind (ih (fun y mem => each y (mem_cons_of_mem _ mem)) u) fun v bs grows answers => leaves_pure ?_
    constructor
    · refine forall_mem_cons.mpr ⟨⟨x, mem_cons_self, stable grows here⟩, fun b mem => ?_⟩
      obtain ⟨y, given, found⟩ := answers.asked b mem
      exact ⟨y, mem_cons_of_mem _ given, found⟩
    · refine forall_mem_cons.mpr ⟨⟨_, mem_cons_self, stable grows here⟩, fun y mem => ?_⟩
      obtain ⟨b, given, found⟩ := answers.answered y mem
      exact ⟨b, mem_cons_of_mem _ given, found⟩

def JoinOutcome (draft : Namespace) (memo : Memo) (join : BuiltJoin)
    (outcome : Except LocatedFault (String × FieldDef)) : Prop :=
  Yields (fun f => Echoes memo f.fault) outcome fun entry => ∃ j : Join, entry = (join.decl.name.node, .join j) ∧
    j.source = join.source ∧ j.Correlated (bodyNames draft memo)

def FilterOutcome (draft : Namespace) (memo : Memo) (outcome : Except LocatedFault Filter) : Prop :=
  Yields (fun f => Echoes memo f.fault) outcome fun f => f.expr.level? (bodyNames draft memo) = some .scalar

theorem bodyNames_le (keeps : Keeps memo later) : bodyNames draft memo ≤ bodyNames draft later :=
  ⟨fun _ _ h => bodyLevel_keeps keeps h, fun _ h => h, fun _ h => h⟩

theorem JoinOutcome.later {later : Memo} {outcome : Except LocatedFault (String × FieldDef)}
    (keeps : Keeps memo later) (h : JoinOutcome draft memo join outcome) : JoinOutcome draft later join outcome :=
  h.weaken (fun _ => echoes_later keeps) fun _ ⟨j, same, source, correlated⟩ =>
    ⟨j, same, source, correlated.mono (bodyNames_le keeps)⟩

theorem FilterOutcome.later {later : Memo} {outcome : Except LocatedFault Filter} (keeps : Keeps memo later)
    (h : FilterOutcome draft memo outcome) : FilterOutcome draft later outcome :=
  h.weaken (fun _ => echoes_later keeps) fun _ => Expr.level?_mono (bodyNames_le keeps) _

/-- What the expressions of a body came to, and what was recorded on the way. -/
structure BodyResolved (s : Scope) (fields : List (Document.FieldDecl × FieldRole)) (joins : List BuiltJoin)
    (outcome : BodyOutcome) (memo : Memo) : Prop where
  grounded : Grounded s (bodyLevels s.root).Good [] memo
  fields : Answers (fun d => FieldOutcome d.1 memo) fields outcome.fields
  joins : Answers (JoinOutcome s.root memo) joins outcome.joins
  filters : ∀ o ∈ outcome.filters, FilterOutcome s.root memo o

def joinStep (s : Scope) (join : BuiltJoin) : StateM Memo (Except LocatedFault (String × FieldDef)) := do
  return (← (correlate s join.decl join.source).run).map fun correlation =>
    (join.decl.name.node, join.field s.url correlation)

theorem joinStep_outcome (body : s.Bodied) (join : BuiltJoin) :
    Leaves (bodyDiscipline s) memo (joinStep s join) fun later => JoinOutcome s.root later join := by
  refine leaves_bind (correlate_ensures body join.decl join.source) fun later outcome _ yields => leaves_pure ?_
  cases outcome with
  | error f => exact yields
  | ok c => exact ⟨_, rfl, rfl, yields⟩

theorem resolveBody_resolves (body : s.Bodied) (fields : List (Document.FieldDecl × FieldRole))
    (joins : List BuiltJoin) (filters : List Document.Expr)
    (declared : ∀ d ∈ fields, (s.declaration? d.1.name.node).isSome) :
    BodyResolved s fields joins ((resolveBody s fields joins filters).run []).1
      ((resolveBody s fields joins filters).run []).2 := by
  have start : (bodyDiscipline s).Holds [] := ⟨.known, by simp⟩
  obtain ⟨holds, _, fieldsDone⟩ := mapM_answers
    (fun keeps h => h.later keeps) fields (fun d mem _ => fieldStep_outcome body d (declared d mem)) [] start
  obtain ⟨holds, keeps, joinsDone⟩ := mapM_answers
    (fun keeps h => h.later keeps) joins (fun join _ _ => joinStep_outcome body join) _ holds
  obtain ⟨holds, keeps', filtersDone⟩ := mapM_answers
    (R := fun memo (_ : Document.Expr) => FilterOutcome s.root memo)
    (fun keeps h => h.later keeps) filters (fun filter _ _ => sourceFilter_ensures body filter) _ holds
  refine ⟨holds.1, fieldsDone.imp fun _ _ h => h.later (keeps_trans keeps keeps'),
    joinsDone.imp fun _ _ h => h.later keeps', fun o mem => ?_⟩
  obtain ⟨_, _, found⟩ := filtersDone.asked o mem
  exact found

theorem mem_faults {α : Type} {outcomes : List (Except LocatedFault α)} :
    f ∈ faults outcomes ↔ .error f ∈ outcomes := by
  unfold faults
  rw [mem_filterMap]
  constructor
  · rintro ⟨_ | a, mem, same⟩ <;> cases same
    exact mem
  · exact fun mem => ⟨_, mem, rfl⟩

theorem mem_values {α : Type} {outcomes : List (Except LocatedFault α)} {a : α} :
    a ∈ values outcomes ↔ .ok a ∈ outcomes := by
  unfold values
  rw [mem_filterMap]
  constructor
  · rintro ⟨_ | b, mem, same⟩ <;> cases same
    exact mem
  · exact fun mem => ⟨_, mem, rfl⟩

theorem resolved_echoes {fields : List (Document.FieldDecl × FieldRole)} (resolved : BodyResolved s fields joins outcome memo)
    (mem : f ∈ faults outcome.fields ++ faults outcome.joins ++ faults outcome.filters) : Echoes memo f.fault := by
  rcases mem_append.mp mem with mem | mem
  · rcases mem_append.mp mem with mem | mem
    · obtain ⟨d, _, field⟩ := resolved.fields.asked _ (mem_faults.mp mem)
      exact field.yields
    · obtain ⟨j, _, join⟩ := resolved.joins.asked _ (mem_faults.mp mem)
      exact join
  · exact resolved.filters _ (mem_faults.mp mem)

section Outcome

variable {fields : List (Document.FieldDecl × FieldRole)} {joins : List BuiltJoin} {outcome : BodyOutcome}

section

variable (body : s.Bodied) (covers : s.declarations = fields.map Prod.fst) (resolved : BodyResolved s fields joins outcome memo)

include body covers resolved

theorem recorded_fault (found : memo.lookup name = some (.error f)) :
    f ∈ faults outcome.fields := by
  have declared := declared_mem (grounded_declared (body_judges body) resolved.grounded found)
  rw [Scope.declaredNames, covers, map_map] at declared
  obtain ⟨d, given, rfl⟩ := mem_map.mp declared
  obtain ⟨o, mem, field⟩ := resolved.fields.answered d given
  obtain ⟨_, recorded, faulty⟩ := field.recorded
  have same := Option.some.inj (recorded.symm.trans found)
  exact mem_faults.mpr (faulty f same ▸ mem)

/-- Where the body only echoes a fault, the fault is that of a field. -/
theorem body_root
    (mem : f ∈ faults outcome.fields ++ faults outcome.joins ++ faults outcome.filters)
    (cascade : f.fault.isCascade = true) : ∃ g ∈ faults outcome.fields, g.fault.isCascade = false := by
  rcases resolved_echoes resolved mem with own | ⟨_, _, _, found⟩
  · rw [Fault.isCascade_of_own own] at cascade
    cases cascade
  · obtain ⟨root, g, found, own⟩ := grounded_root (body_judges body) resolved.grounded found
    exact ⟨g, recorded_fault body covers resolved found, own⟩

end

end Outcome

/-- The fields of a body as far as they are recorded, over those that it starts from. -/
def overlay (draft : Namespace) : Memo → Namespace
  | [] => draft
  | (name, .ok t) :: rest => (overlay draft rest).insert name (fieldFor name t default)
  | (_, .error _) :: rest => overlay draft rest

def OverlayFinds (draft : Namespace) (memo : Memo) : Prop :=
  ∀ name, (overlay draft memo).lookup? name = match memo.lookup name with
    | some (.ok t) => some (fieldFor name t default)
    | _ => draft.lookup? name

theorem fieldFor_level (name : String) (t : Typed) (location : Location) :
    (fieldFor name t location).level? = some t.level := by
  unfold fieldFor
  split
  · next aggregate => rw [aggregate_of aggregate]; rfl
  · next scalar => rw [scalar_of_not (by simpa using scalar)]; rfl

theorem overlay_names (body : s.Bodied) (grounded : Grounded s (bodyLevels s.root).Good [] memo)
    (finds : OverlayFinds s.root memo) : bodyNames s.root memo ≤ Names.of (overlay s.root memo) := by
  have wider : s.root.Extends (overlay s.root memo) := by
    intro name f found
    refine ⟨f, ?_, rfl, rfl, rfl⟩
    rw [finds]
    split
    · next recorded =>
      have declared := grounded_present grounded recorded
      rw [body.fresh (by simpa using declared)] at found
      cases found
    · exact found
  have le := Namespace.names_le wider
  refine ⟨fun path l h => ?_, le.2⟩
  rcases Option.or_eq_some_iff.mp h with own | ⟨_, recorded⟩
  · exact le.1 path l own
  · unfold recordedLevel at recorded
    split at recorded
    · split at recorded
      · next name _ t found =>
        cases recorded
        rw [Namespace.level_single, finds]
        simp [found, fieldFor_level]
      · cases recorded
    · cases recorded

/-- Declarations that succeeded make sound fields, in the order in which they are recorded. -/
theorem overlay_sound (body : s.Bodied) (sound : FieldsSound s.root)
    (grounded : Grounded s (bodyLevels s.root).Good [] memo)
    (clean : ∀ name f, memo.lookup name ≠ some (.error f)) :
    FieldsSound (overlay s.root memo) ∧ OverlayFinds s.root memo := by
  induction grounded with
  | known => exact ⟨sound, fun _ => rfl⟩
  | @record memo name outcome older fresh declared yields ih =>
    have keeps := keeps_record fresh outcome
    obtain ⟨sound, finds⟩ := ih fun other f found => clean other f (keeps _ _ found)
    cases outcome with
    | error f => exact (clean name f (by simp)).elim
    | ok t =>
      have free : (overlay s.root memo).lookup? name = none := by
        rw [finds, fresh]
        exact body.fresh declared
      have leveled := leveled_mono (overlay_names body older finds) yields
      refine ⟨sound.insert free (.defined (fieldFor_defined leveled name default)), fun other => ?_⟩
      rw [overlay, Slots.lookup?_insert, lookup_cons]
      by_cases same : name = other
      · simp [same]
      · rw [if_neg same, finds, beq_eq_false_iff_ne.mpr (Ne.symm same)]

end Elaboration

/-- The fields that a body starts from: the inherited ones and the joins, whose conditions come later. -/
def draftOf (url : String) (inherited : Namespace) (joins : List BuiltJoin) : Namespace :=
  joins.foldl (fun fields join => fields.insert join.decl.name.node (join.field url .free)) inherited

/-- The fields that a body ends with: the inherited ones, and in their order those that were resolved. -/
def bodyFields (inherited : Namespace) (resolved : List (String × FieldDef)) (kept : List Declaration) :
    Namespace :=
  kept.foldl (fun fields d =>
    match resolved.lookup d.name.node with
    | some field => fields.insert d.name.node field
    | none => fields) inherited

theorem bodyFields_spec (resolved : List (String × FieldDef)) (kept : List Declaration) :
    ∀ inherited : Namespace, inherited.Distinct → (bodyFields inherited resolved kept).Distinct ∧
      ∀ name, (bodyFields inherited resolved kept).lookup? name =
        if name ∈ kept.map fun d => d.name.node then (resolved.lookup name).or (inherited.lookup? name)
        else inherited.lookup? name := by
  induction kept with
  | nil => exact fun inherited distinct => ⟨distinct, by simp [bodyFields]⟩
  | cons d rest ih =>
    intro inherited distinct
    unfold bodyFields at ih ⊢
    rw [foldl_cons]
    cases found : resolved.lookup d.name.node with
    | none =>
      obtain ⟨distinct', looks⟩ := ih inherited distinct
      refine ⟨distinct', fun name => ?_⟩
      rw [looks]
      by_cases same : name = d.name.node
      · simp [same, found]
      · simp [same]
    | some field =>
      obtain ⟨distinct', looks⟩ := ih _ (Slots.distinct_insert distinct d.name.node field)
      refine ⟨distinct', fun name => ?_⟩
      rw [looks, Slots.lookup?_insert]
      by_cases same : d.name.node = name
      · subst same
        simp [found]
      · simp [same, Ne.symm same]

/-- What the parts of a body are given. -/
structure BodyParts (inherited : Namespace) (kept : List Declaration) (joins : List BuiltJoin) : Prop where
  sound : FieldsSound inherited
  distinct : (kept.map fun d => d.name.node).Nodup
  fresh : ∀ d ∈ kept, inherited.lookup? d.name.node = none
  named : (joins.map fun j => j.decl.name.node).Nodup
  given : ∀ j ∈ joins, ∃ source, .join j.decl source ∈ kept
  sources : ∀ j ∈ joins, SourceSound j.source

section Parts

variable {url : String} {inherited : Namespace} {kept : List Declaration} {joins : List BuiltJoin}

theorem draftOf_spec (url : String) (parts : BodyParts inherited kept joins) :
    FieldsSound (draftOf url inherited joins) ∧ ∀ name, (draftOf url inherited joins).lookup? name =
      ((joins.find? fun j => j.decl.name.node == name).map fun j => j.field url .free).or
        (inherited.lookup? name) := by
  have steps : ∀ (rest : List BuiltJoin) (ns : Namespace), FieldsSound ns →
      (rest.map fun j => j.decl.name.node).Nodup → (∀ j ∈ rest, ns.lookup? j.decl.name.node = none) →
      (∀ j ∈ rest, SourceSound j.source) →
      FieldsSound (draftOf url ns rest) ∧ ∀ name, (draftOf url ns rest).lookup? name =
        ((rest.find? fun j => j.decl.name.node == name).map fun j => j.field url .free).or
          (ns.lookup? name) := by
    intro rest
    induction rest with
    | nil => exact fun ns sound _ _ _ => ⟨sound, fun _ => rfl⟩
    | cons j rest ih =>
      intro ns sound distinct fresh sources
      rw [map_cons, nodup_cons] at distinct
      have free := fresh j mem_cons_self
      have fits : (j.field url .free).Fits (Names.of ns) :=
        .join (sources j mem_cons_self) trivial
      have others : ∀ k ∈ rest, (ns.insert j.decl.name.node (j.field url .free)).lookup?
          k.decl.name.node = none := by
        intro k mem
        rw [Slots.lookup?_insert, if_neg]
        · exact fresh k (mem_cons_of_mem _ mem)
        · exact fun same => distinct.1 (same ▸ mem_map.mpr ⟨k, mem, rfl⟩)
      obtain ⟨sound', looks⟩ := ih _ (sound.insert free fits) distinct.2 others
        fun k mem => sources k (mem_cons_of_mem _ mem)
      refine ⟨sound', fun name => ?_⟩
      have step := looks name
      unfold draftOf at step ⊢
      rw [foldl_cons, step, Slots.lookup?_insert, List.find?_cons]
      by_cases same : j.decl.name.node = name
      · subst same
        have alone : rest.find? (fun k => k.decl.name.node == j.decl.name.node) = none := by
          rw [List.find?_eq_none]
          intro k mem same
          exact distinct.1 (mem_map.mpr ⟨k, mem, by simpa using same⟩)
        simp [alone]
      · rw [if_neg same, beq_eq_false_iff_ne.mpr same]
  refine steps joins inherited parts.sound parts.named ?_ parts.sources
  intro j mem
  obtain ⟨source, kept⟩ := parts.given j mem
  exact parts.fresh _ kept

def fieldDecls (kept : List Declaration) : List (Document.FieldDecl × FieldRole) :=
  kept.filterMap Declaration.field?

theorem mem_fieldDecls (mem : d ∈ fieldDecls kept) : .field d.1 d.2 ∈ kept := by
  obtain ⟨declaration, given, same⟩ := mem_filterMap.mp mem
  cases declaration <;> cases same
  exact given

def bodyScope (url : String) (inherited : Namespace) (kept : List Declaration) (joins : List BuiltJoin) :
    Scope :=
  ⟨url, draftOf url inherited joins, (fieldDecls kept).map Prod.fst, false⟩

theorem declaration_kept (declared : ((bodyScope url inherited kept joins).declaration? name).isSome) :
    ∃ d ∈ fieldDecls kept, d.1.name.node = name := by
  have mem := declared_mem declared
  rw [Scope.declaredNames, bodyScope, map_map] at mem
  obtain ⟨d, given, same⟩ := mem_map.mp mem
  exact ⟨d, given, same⟩

theorem field_ne_join (parts : BodyParts inherited kept joins) (field : d ∈ fieldDecls kept) (join : j ∈ joins) :
    d.1.name.node ≠ j.decl.name.node := by
  intro same
  obtain ⟨source, given⟩ := parts.given j join
  have equal := inj_on_of_nodup_map parts.distinct (mem_fieldDecls field) given same
  cases equal

theorem bodyScope_bodied (parts : BodyParts inherited kept joins) :
    (bodyScope url inherited kept joins).Bodied where
  named := rfl
  fresh {name} declared := by
    obtain ⟨d, given, rfl⟩ := declaration_kept declared
    show (draftOf url inherited joins).lookup? _ = none
    have alone : joins.find? (fun j => j.decl.name.node == d.1.name.node) = none := by
      rw [List.find?_eq_none]
      intro j mem same
      exact field_ne_join parts given mem (Eq.symm (by simpa using same))
    rw [(draftOf_spec url parts).2, alone]
    exact parts.fresh _ (mem_fieldDecls given)

theorem joins_find (parts : BodyParts inherited kept joins) (mem : j ∈ joins) :
    joins.find? (fun k => k.decl.name.node == j.decl.name.node) = some j := by
  cases found : joins.find? fun k => k.decl.name.node == j.decl.name.node with
  | none => exact (List.find?_eq_none.mp found j mem (by simp)).elim
  | some k =>
    have same : k.decl.name.node = j.decl.name.node := by simpa using List.find?_some found
    rw [inj_on_of_nodup_map parts.named (List.mem_of_find?_eq_some found) mem same]

structure BodyEntries (url : String) (inherited : Namespace) (kept : List Declaration)
    (joins : List BuiltJoin) (memo : Memo) (resolved : List (String × FieldDef)) : Prop where
  entry : ∀ {name field}, resolved.lookup name = some field →
    (∃ t location, memo.lookup name = some (.ok t) ∧ field = fieldFor name t location) ∨
    ∃ j ∈ joins, j.decl.name.node = name ∧ ∃ k : Join, field = .join k ∧ k.source = j.source ∧
      k.Correlated (bodyNames (draftOf url inherited joins) memo)
  fields : ∀ {name t}, memo.lookup name = some (.ok t) → (resolved.lookup name).isSome
  joins : ∀ j ∈ joins, (resolved.lookup j.decl.name.node).isSome

theorem bodyEntries {outcome : BodyOutcome}
    (resolved : BodyResolved (bodyScope url inherited kept joins) (fieldDecls kept) joins outcome memo)
    (fieldsClean : faults outcome.fields = []) (joinsClean : faults outcome.joins = []) :
    BodyEntries url inherited kept joins memo (values outcome.fields ++ values outcome.joins) where
  entry {name field} found := by
    rcases mem_append.mp (mem_of_lookup found) with mem | mem
    · obtain ⟨d, _, answer⟩ := resolved.fields.asked _ (mem_values.mp mem)
      obtain ⟨t, location, recorded, same⟩ := answer.yields
      cases same
      exact .inl ⟨t, location, recorded, rfl⟩
    · obtain ⟨j, given, answer⟩ := resolved.joins.asked _ (mem_values.mp mem)
      obtain ⟨k, same, source, correlated⟩ := answer
      cases same
      exact .inr ⟨j, given, rfl, k, rfl, source, correlated⟩
  fields {name t} found := by
    obtain ⟨d, given, rfl⟩ := declaration_kept (by simpa using grounded_present resolved.grounded found)
    obtain ⟨o, mem, answer⟩ := resolved.fields.answered d given
    cases o with
    | error f => exact absurd (mem_faults.mpr mem) (by simp [fieldsClean])
    | ok entry =>
      obtain ⟨_, _, _, rfl⟩ := answer.yields
      exact lookup_of_mem (mem_append_left _ (mem_values.mpr mem))
  joins j given := by
    obtain ⟨o, mem, answer⟩ := resolved.joins.answered j given
    cases o with
    | error f => exact absurd (mem_faults.mpr mem) (by simp [joinsClean])
    | ok entry =>
      obtain ⟨_, rfl, _⟩ := answer
      exact lookup_of_mem (mem_append_right _ (mem_values.mpr mem))

/-- How the fields that a body ends with compare with an overlay, name by name. -/
inductive Settled (kept : List Declaration) (joins : List BuiltJoin) (inherited : Namespace) (memo : Memo) (n : Names)
    (name : String) (before after : Option FieldDef) : Prop where
  | field (t : Typed) (location : Location) (recorded : memo.lookup name = some (.ok t)) (claimed : ∃ d ∈ kept, d.view? = none ∧ d.name.node = name)
      (start : before = some (fieldFor name t default)) (result : after = some (fieldFor name t location))
  | join (j k : Join) (claimed : ∃ d ∈ kept, d.view? = none ∧ d.name.node = name)
      (start : before = some (.join j)) (result : after = some (.join k)) (same : k.source = j.source)
      (built : ∃ b ∈ joins, k.source = b.source) (correlated : k.Correlated n)
  | inherited (start : before = inherited.lookup? name) (result : after = inherited.lookup? name)

theorem body_settled (parts : BodyParts inherited kept joins)
    (entries : BodyEntries url inherited kept joins memo resolved)
    (present : ∀ {name outcome}, memo.lookup name = some outcome →
      ((bodyScope url inherited kept joins).declaration? name).isSome)
    (clean : ∀ name f, memo.lookup name ≠ some (.error f)) (finds : OverlayFinds (draftOf url inherited joins) memo)
    (name : String) :
    Settled kept joins inherited memo (bodyNames (draftOf url inherited joins) memo) name
      ((overlay (draftOf url inherited joins) memo).lookup? name)
      ((bodyFields inherited resolved kept).lookup? name) := by
  have drafts := (draftOf_spec url parts).2 name
  have looks := (bodyFields_spec resolved kept inherited parts.sound.distinct).2 name
  rw [finds]
  cases recorded : memo.lookup name with
  | some outcome =>
    obtain ⟨d, given, rfl⟩ := declaration_kept (present recorded)
    have here : (Declaration.field d.1 d.2) ∈ kept := mem_fieldDecls given
    have mem : d.1.name.node ∈ kept.map fun d => d.name.node := mem_map.mpr ⟨_, here, rfl⟩
    cases outcome with
    | error f => exact (clean _ f recorded).elim
    | ok t =>
      obtain ⟨field, found⟩ := Option.isSome_iff_exists.mp (entries.fields recorded)
      rcases entries.entry found with ⟨t', location, recorded', rfl⟩ | ⟨j, join, same, _⟩
      · rw [recorded] at recorded'
        cases recorded'
        refine .field t location recorded ⟨_, here, rfl, rfl⟩ rfl ?_
        rw [looks, if_pos mem, found, Option.some_or]
      · exact (field_ne_join parts given join same.symm).elim
  | none =>
    rw [drafts]
    cases found : resolved.lookup name with
    | some field =>
      rcases entries.entry found with ⟨_, _, impossible, _⟩ | ⟨j, join, rfl, k, rfl, same, correlated⟩
      · rw [recorded] at impossible
        cases impossible
      · obtain ⟨source, here⟩ := parts.given j join
        have mem : j.decl.name.node ∈ kept.map fun d => d.name.node := mem_map.mpr ⟨_, here, rfl⟩
        refine .join ⟨j.decl.name.node, j.decl.kind, j.source, .free, ⟨url, j.decl.span⟩⟩ k
          ⟨_, here, rfl, rfl⟩ ?_ ?_ same ⟨j, join, same⟩ correlated
        · rw [joins_find parts join]
          rfl
        · rw [looks, if_pos mem, found, Option.some_or]
    | none =>
      refine .inherited ?_ ?_
      · cases join : joins.find? fun j => j.decl.name.node == name with
        | none => rfl
        | some j =>
          have same : j.decl.name.node = name := by simpa using List.find?_some join
          have resolved := entries.joins j (List.mem_of_find?_eq_some join)
          rw [same, found] at resolved
          cases resolved
      · rw [looks, found, Option.none_or, ite_self]

theorem draftOf_stores (parts : BodyParts inherited kept joins)
    (stored : (draftOf url inherited joins).stores column = true) : inherited.stores column = true := by
  obtain ⟨name, f, found, is⟩ := Namespace.stores_iff.mp stored
  rw [(draftOf_spec url parts).2] at found
  rcases Option.or_eq_some_iff.mp found with join | ⟨_, found⟩
  · obtain ⟨j, _, rfl⟩ := Option.map_eq_some_iff.mp join
    cases is
  · exact Namespace.stores_iff.mpr ⟨name, f, found, is⟩

structure BodySound (inherited : Namespace) (kept : List Declaration) (joins : List BuiltJoin) (n : Names)
    (fields : Namespace) : Prop where
  sound : FieldsSound fields
  wider : inherited.Extends fields
  names : n ≤ Names.of fields
  views : ∀ name v, fields.lookup? name = some (.view v) → inherited.lookup? name = some (.view v)
  joined : ∀ name k, fields.lookup? name = some (.join k) →
    inherited.lookup? name = some (.join k) ∨ ∃ b ∈ joins, k.source = b.source
  stores : ∀ column, fields.stores column = true → inherited.stores column = true
  free : ∀ decl, .view decl ∈ kept → fields.lookup? decl.name.node = none

theorem body_sound {outcome : BodyOutcome} (parts : BodyParts inherited kept joins)
    (resolved : BodyResolved (bodyScope url inherited kept joins) (fieldDecls kept) joins outcome memo)
    (fieldsClean : faults outcome.fields = []) (joinsClean : faults outcome.joins = []) :
    BodySound inherited kept joins (bodyNames (draftOf url inherited joins) memo)
      (bodyFields inherited (values outcome.fields ++ values outcome.joins) kept) := by
  have body : (bodyScope url inherited kept joins).Bodied := bodyScope_bodied parts
  have clean : ∀ name f, memo.lookup name ≠ some (.error f) := by
    intro name f found
    have mem := recorded_fault body rfl resolved found
    rw [fieldsClean] at mem
    cases mem
  obtain ⟨sound, finds⟩ := overlay_sound body (draftOf_spec url parts).1 resolved.grounded clean
  have le := overlay_names body resolved.grounded finds
  have settled := body_settled parts (bodyEntries resolved fieldsClean joinsClean)
    (fun found => by simpa using grounded_present resolved.grounded found) clean finds
  have distinct := (bodyFields_spec (values outcome.fields ++ values outcome.joins) kept inherited
    parts.sound.distinct).1
  have there : ∀ name f, (overlay (draftOf url inherited joins) memo).lookup? name = some f →
      ∃ g, (bodyFields inherited (values outcome.fields ++ values outcome.joins) kept).lookup? name =
        some g ∧ Similar f g := by
    intro name f found
    cases settled name with
    | field t location _ _ start result =>
      rw [start] at found
      cases found
      exact ⟨_, result, fieldFor_similar _ _ _ _ _⟩
    | join j k _ start result same =>
      rw [start] at found
      cases found
      exact ⟨_, result, .join same⟩
    | inherited start result => exact ⟨f, result.trans (start.symm.trans found), .refl f⟩
  have overlayNames := Namespace.names_le (Namespace.extends_of_similar there)
  refine ⟨sound.similar distinct there ?_ ?_, ?_, Names.le_trans le overlayNames, ?_, ?_, ?_, ?_⟩
  · intro name g found
    cases settled name with
    | field t location _ _ start result =>
      rw [result] at found
      cases found
      exact ⟨_, start, fieldFor_similar _ _ _ _ _⟩
    | join j k _ start result same =>
      rw [result] at found
      cases found
      exact ⟨_, start, .join same⟩
    | inherited start result => exact ⟨g, start.trans (result.symm.trans found), .refl g⟩
  · intro name j found
    cases settled name with
    | field t location _ _ _ result =>
      rw [result] at found
      unfold fieldFor at found
      split at found <;> cases found
    | join _ k _ _ result _ _ correlated =>
      rw [result] at found
      cases found
      exact correlated.mono le
    | inherited start result =>
      exact (sound.joined (start.trans (result.symm.trans found))).2
  · intro name f found
    cases settled name with
    | field _ _ _ claimed _ _ | join _ _ claimed =>
      obtain ⟨d, mem, _, rfl⟩ := claimed
      rw [parts.fresh d mem] at found
      cases found
    | inherited _ result => exact ⟨f, result.trans found, rfl, rfl, rfl⟩
  · intro name v found
    cases settled name with
    | field t location _ _ _ result =>
      rw [result] at found
      unfold fieldFor at found
      split at found <;> cases found
    | join _ _ _ _ result => rw [result] at found; cases found
    | inherited _ result => exact result.symm.trans found
  · intro name k found
    cases settled name with
    | field t location _ _ _ result =>
      rw [result] at found
      unfold fieldFor at found
      split at found <;> cases found
    | join _ _ _ _ result _ built =>
      rw [result] at found
      cases found
      exact .inr built
    | inherited _ result => exact .inl (result.symm.trans found)
  · intro column stored
    obtain ⟨name, g, found, is⟩ := Namespace.stores_iff.mp stored
    cases settled name with
    | field t location recorded _ _ result =>
      -- a declaration that is a mere column names one of the draft
      rw [result] at found
      cases found
      obtain ⟨x, same, named⟩ := FieldDef.column?_eq_some is
      have level := (show Leveled _ t from grounded_yields (body_judges body) resolved.grounded recorded).level
      have expr : t.expr = .column column := by
        unfold fieldFor at same
        split at same <;> cases same
        exact named
      rw [expr] at level
      exact draftOf_stores parts (Expr.column_level level).2
    | join _ _ _ _ result =>
      rw [result] at found
      cases found
      cases is
    | inherited _ result => exact Namespace.stores_iff.mpr ⟨name, g, result.symm.trans found, is⟩
  · intro decl mem
    cases settled decl.name.node with
    | field _ _ _ claimed _ _ | join _ _ claimed =>
      obtain ⟨d, given, isView, same⟩ := claimed
      have equal := inj_on_of_nodup_map parts.distinct given mem same
      rw [equal] at isView
      cases isView
    | inherited _ result => exact result.trans (parts.fresh _ mem)

end Parts

end SemanticLayer.Elaborate
