import SemanticLayer.Proofs.Elaborate.Model

/-!
What a refinement leaves as it is. Hiding and renaming keep every old name for definitions, and a new name
is one that nothing had; so whatever was written against the base means the same against the refined
source, however many refinements lie between.
-/
namespace SemanticLayer

open List hiding span

namespace Slots

variable {φ : Type} {s : Slots φ}

def Retains (s t : Slots φ) : Prop := ∀ name field, s.lookup? name = some field → t.lookup? name = some field

theorem Retains.refl (s : Slots φ) : s.Retains s := fun _ _ found => found

theorem Retains.trans {t u : Slots φ} (first : s.Retains t) (second : t.Retains u) : s.Retains u :=
  fun name field found => second name field (first name field found)

theorem retains_restrict (s : Slots φ) (keep : String → Bool) : s.Retains (s.restrict keep) :=
  fun name _ found => (lookup?_restrict s keep name).trans found

theorem retains_insert (free : s.lookup? name = none) (field : φ) : s.Retains (s.insert name field) := by
  intro other f found
  rw [lookup?_insert, if_neg]
  · exact found
  · rintro rfl
    rw [free] at found
    cases found

theorem retains_rename (distinct : s.Distinct) {field : φ} (visible : s.get? old = some field)
    (free : s.lookup? new = none) : s.Retains (s.rename old new) := by
  intro other f found
  rw [lookup?_rename distinct visible free, if_neg]
  · exact found
  · rintro rfl
    rw [free] at found
    cases found

theorem names_restrict (s : Slots φ) (keep : String → Bool) : (s.restrict keep).names = s.names.filter keep := by
  obtain ⟨entries⟩ := s
  unfold names visible restrict
  induction entries with
  | nil => rfl
  | cons first rest ih =>
    simp only [map_cons, filter_cons] at ih ⊢
    cases first.hidden <;> cases kept : keep first.name <;> simp [kept, ih]

theorem names_insert (distinct : s.Distinct) (free : s.lookup? name = none) (field : φ) :
    (s.insert name field).names = s.names ++ [name] := by
  have fresh := put_fresh s.entries ⟨name, field, false⟩ (not_mem_of_lookup? distinct free)
  simp [names, visible, insert, fresh]

def respelled (old new : String) (names : List String) : List String :=
  names.map fun name => if name = old then new else name

theorem names_rename (distinct : s.Distinct) {field : φ} (visible : s.get? old = some field)
    (free : s.lookup? new = none) : (s.rename old new).names = respelled old new s.names := by
  have entry : ∀ slot ∈ s.entries, (moved old new slot).hidden = slot.hidden ∧
      (slot.hidden = false → (moved old new slot).name = if slot.name = old then new else slot.name) := by
    intro slot mem
    obtain ⟨name, f, hidden⟩ := slot
    by_cases same : name = old <;> cases hidden <;> simp [moved, same]
  unfold names Slots.visible respelled
  rw [(rename_entries distinct visible free).1]
  simp only [filter_append, filter_map, map_append, map_map]
  have kept : s.entries.filter ((fun slot => !slot.hidden) ∘ moved old new) =
      s.entries.filter fun slot => !slot.hidden := by
    refine filter_congr fun slot mem => ?_
    rw [Function.comp_apply, (entry slot mem).1]
  simp only [kept, Bool.not_true, filter_cons, Bool.false_eq_true, if_false, filter_nil,
    map_nil, append_nil]
  refine map_congr_left fun slot mem => ?_
  obtain ⟨mem, shown⟩ := mem_filter.mp mem
  exact (entry slot mem).2 (by simpa using shown)

end Slots

namespace Namespace

theorem resolveDefined_retains {ns other : Namespace} (retains : ns.Retains other)
    (resolved : ns.resolveDefined path = .ok r) :
    ∃ owner, other.resolveDefined path = .ok { r with owner := owner } := by
  unfold resolveDefined at resolved ⊢
  match path with
  | [] => cases resolved
  | [last] =>
    rw [resolveWith] at resolved ⊢
    cases found : ns.lookup? last with
    | none => rw [found] at resolved; cases resolved
    | some field =>
      rw [found] at resolved
      cases resolved
      exact ⟨other, by rw [retains last field found]⟩
  | first :: second :: rest =>
    rw [resolveWith] at resolved ⊢
    · cases found : ns.lookup? first with
      | none => rw [found] at resolved; cases resolved
      | some field =>
        rw [found] at resolved
        rw [retains first field found]
        exact ⟨r.owner, resolved⟩
    all_goals simp

end Namespace

namespace Elaborate

def shown (names : List String) : Document.SourceProperty → List String
  | .accept listed => names.filter fun name => name ∈ listed.map (·.node)
  | .except listed => names.filter fun name => name ∉ listed.map (·.node)
  | .rename renames =>
    renames.foldl (fun names r => Slots.respelled r.oldName.node r.newName.node names) names
  | _ => names

def declaredFields : Document.SourceProperty → List String
  | .dimension fields | .measure fields | .declare fields => fields.map (·.name.node)
  | .join joins => joins.map (·.name.node)
  | _ => []

def declaredViews : Document.SourceProperty → List String
  | .view views => views.map (·.name.node)
  | _ => []

def shownAfter (names : List String) (body : List Document.SourceProperty) : List String :=
  body.foldl shown names ++ body.flatMap declaredFields ++ body.flatMap declaredViews

/-- Fields that were hidden or renamed, all of it as asked if there is no fault. -/
structure Shows (ns : Namespace) (out : Namespace × List LocatedFault) (names : List String) : Prop where
  distinct : out.1.Distinct
  retains : ns.Retains out.1
  names : out.2 = [] → out.1.names = names

section Reshaping

variable {ns : Namespace}

theorem shows_same (distinct : ns.Distinct) : Shows ns (ns, []) ns.names :=
  ⟨distinct, .refl ns, fun _ => rfl⟩

theorem shows_fault (distinct : ns.Distinct) (f : LocatedFault) (names : List String) :
    Shows ns (ns, [f]) names :=
  ⟨distinct, .refl ns, nofun⟩

theorem foldl_shows {γ : Type} (step : Namespace → γ → Namespace × List LocatedFault)
    (rule : List String → γ → List String)
    (each : ∀ ns x, ns.Distinct → Shows ns (step ns x) (rule ns.names x)) (items : List γ) :
    ∀ {start : Namespace} {faults : List LocatedFault} {names : List String},
      Shows ns (start, faults) names →
      Shows ns (items.foldl (fun (fields, faults) x =>
        ((step fields x).1, faults ++ (step fields x).2)) (start, faults)) (items.foldl rule names) := by
  induction items with
  | nil => exact fun soFar => soFar
  | cons x rest ih =>
    intro start faults names soFar
    have here := each start x soFar.distinct
    refine ih ⟨here.distinct, soFar.retains.trans here.retains, fun clean => ?_⟩
    obtain ⟨before, now⟩ := append_eq_nil_iff.mp clean
    rw [here.names now, soFar.names before]

theorem renameOne_shows (url : String) (distinct : ns.Distinct) (r : Document.RenameDecl) :
    Shows ns (renameOne url ns r) (Slots.respelled r.oldName.node r.newName.node ns.names) := by
  unfold renameOne
  split
  · exact shows_fault distinct _ _
  · next present =>
    split
    · exact shows_fault distinct _ _
    · next free =>
      have present : (ns.get? r.oldName.node).isSome = true := by
        simpa [Slots.contains, Option.isSome_iff_ne_none] using present
      obtain ⟨field, visible⟩ := Option.isSome_iff_exists.mp present
      have free : ns.lookup? r.newName.node = none := by simpa [Slots.defines_eq] using free
      exact ⟨(Slots.rename_entries distinct visible free).2, Slots.retains_rename distinct visible free,
        fun _ => Slots.names_rename distinct visible free⟩

theorem listed_clean (clean : (listed url ns names).2 = []) : (listed url ns names).1 = names.map (·.node) := by
  rw [← filterMap_eq_map']
  refine filterMap_congr fun name mem => ?_
  have here := filterMap_eq_nil_iff.mp clean name mem
  split at here
  · next present => rw [if_pos present]
  · cases here

theorem restrict_shows (distinct : ns.Distinct) {faults : List LocatedFault}
    (kept : faults = [] → ns.names.filter keep = names) :
    Shows ns (ns.restrict keep, faults) names where
  distinct := Slots.distinct_restrict distinct keep
  retains := Slots.retains_restrict ns keep
  names clean := (Slots.names_restrict ns keep).trans (kept clean)

theorem reshapeBy_shows (url : String) (ns : Namespace) (p : Document.SourceProperty)
    (distinct : ns.Distinct) : Shows ns (reshapeBy url ns p) (shown ns.names p) := by
  cases p with
  | accept names =>
    refine restrict_shows distinct fun clean => filter_congr fun name _ => ?_
    show (listed url ns names).1.contains name = _
    rw [listed_clean clean, contains_eq_mem]
  | except names =>
    refine restrict_shows distinct fun clean => filter_congr fun name _ => ?_
    show (!(listed url ns names).1.contains name) = _
    rw [listed_clean clean, contains_eq_mem, decide_not]
  | rename renames =>
    exact foldl_shows (renameOne url) (fun names r => Slots.respelled r.oldName.node r.newName.node names)
      (fun _ r distinct => renameOne_shows url distinct r) renames (shows_same distinct)
  | _ => exact shows_same distinct

end Reshaping

theorem claimNames_clean {declarations : List Declaration} (clean : (claimNames url inherited declarations).2 = []) :
    (claimNames url inherited declarations).1 = declarations := by
  have steps : ∀ (rest : List Declaration) (out : List Declaration × List LocatedFault),
      (rest.foldl (claimStep url inherited) out).2 = [] →
      out.2 = [] ∧ (rest.foldl (claimStep url inherited) out).1 = out.1 ++ rest := by
    intro rest
    induction rest with
    | nil => exact fun out clean => ⟨clean, (append_nil _).symm⟩
    | cons d rest ih =>
      rintro ⟨kept, faults⟩ clean
      rw [foldl_cons, claimStep] at clean ⊢
      cases clash : nameClash? inherited kept d with
      | some fault =>
        rw [clash] at clean
        exact absurd (ih _ clean).1 (by simp)
      | none =>
        rw [clash] at clean
        obtain ⟨before, all⟩ := ih _ clean
        exact ⟨before, by simp [all]⟩
  exact (steps declarations ([], []) clean).2

/-- New fields behind those that were there, under names that nothing had. -/
structure Adds (ns : Namespace) (names : List String) (out : Namespace) : Prop where
  distinct : out.Distinct
  retains : ns.Retains out
  others : ∀ name, name ∉ names → out.lookup? name = ns.lookup? name
  names : out.names = ns.names ++ names

section Adding

variable {ns mid out : Namespace} {first second : List String}

theorem adds_none (distinct : ns.Distinct) : Adds ns [] ns :=
  ⟨distinct, .refl ns, fun _ _ => rfl, (append_nil _).symm⟩

theorem Adds.trans (some : Adds ns first mid) (more : Adds mid second out) :
    Adds ns (first ++ second) out where
  distinct := more.distinct
  retains := some.retains.trans more.retains
  others name absent := by
    rw [mem_append, not_or] at absent
    rw [more.others name absent.2, some.others name absent.1]
  names := by rw [more.names, some.names, List.append_assoc]

theorem adds_insert (distinct : ns.Distinct) (free : ns.lookup? name = none) (field : FieldDef) :
    Adds ns [name] (ns.insert name field) where
  distinct := Slots.distinct_insert distinct name field
  retains := Slots.retains_insert free field
  others other absent := by
    rw [Slots.lookup?_insert, if_neg]
    exact fun same => absent (mem_singleton.mpr same.symm)
  names := Slots.names_insert distinct free field

theorem Adds.free {γ : Type} {f : γ → String} {x : γ} {rest : List γ} (added : Adds ns [f x] out)
    (separate : f x ∉ rest.map f) (fresh : ∀ y ∈ rest, ns.lookup? (f y) = none) :
    ∀ y ∈ rest, out.lookup? (f y) = none := by
  intro y mem
  rw [added.others]
  · exact fresh y mem
  · exact fun same => separate (mem_singleton.mp same ▸ mem_map_of_mem mem)

end Adding

/-- The declarations of a body that resolved to a field come behind the inherited ones. -/
theorem bodyFields_adds (resolved : List (String × FieldDef)) (distinct : inherited.Distinct)
    (separate : (kept.map fun d => d.name.node).Nodup) (fresh : ∀ d ∈ kept, inherited.lookup? d.name.node = none) :
    Adds inherited ((kept.filter fun d => (resolved.lookup d.name.node).isSome).map fun d => d.name.node)
      (bodyFields inherited resolved kept) := by
  unfold bodyFields
  induction kept generalizing inherited with
  | nil => exact adds_none distinct
  | cons d rest ih =>
    rw [map_cons, nodup_cons] at separate
    obtain ⟨here, others⟩ := forall_mem_cons.mp fresh
    rw [foldl_cons, filter_cons]
    cases resolved.lookup d.name.node with
    | none => exact ih distinct separate.2 others
    | some field =>
      have added := adds_insert distinct here field
      exact added.trans (ih added.distinct separate.2
        (added.free (f := fun d : Declaration => d.name.node) separate.1 others))

theorem foldl_viewStep {views : List Document.ViewDecl} (distinct : out.1.Distinct)
    (separate : (views.map fun v => v.name.node).Nodup) (fresh : ∀ v ∈ views, out.1.lookup? v.name.node = none)
    (clean : (views.foldl (viewStep url sampling) out).2 = []) :
    out.2 = [] ∧ Adds out.1 (views.map fun v => v.name.node) (views.foldl (viewStep url sampling) out).1 := by
  induction views generalizing out with
  | nil => exact ⟨clean, adds_none distinct⟩
  | cons v rest ih =>
    rw [map_cons, nodup_cons] at separate
    obtain ⟨here, others⟩ := forall_mem_cons.mp fresh
    rw [foldl_cons] at clean ⊢
    cases built : pipelineStages url false out.1 sampling v.pipeline with
    | error fault =>
      have step : viewStep url sampling out v = (out.1, out.2 ++ [fault]) := by rw [viewStep, built]
      rw [step] at clean
      obtain ⟨none, _⟩ := @ih (out.1, out.2 ++ [fault]) distinct separate.2 others clean
      simp at none
    | ok stages =>
      have step : viewStep url sampling out v =
          (out.1.insert v.name.node (.view ⟨v.name.node, stages, ⟨url, v.span⟩⟩), out.2) := by
        rw [viewStep, built]
      rw [step] at clean ⊢
      have added := adds_insert distinct here (.view ⟨v.name.node, stages, ⟨url, v.span⟩⟩)
      have free := added.free (f := fun v : Document.ViewDecl => v.name.node) separate.1 others
      obtain ⟨before, all⟩ := ih added.distinct separate.2 free clean
      exact ⟨before, added.trans all⟩

def Returns {α : Type} (S : Surroundings) (action : BuildM α) (post : α → Prop) : Prop :=
  ∀ reports a, ((action S).run.run reports).1 = .ok a → post a

section Returning

variable {α β : Type} {S : Surroundings}

theorem returns_pure {a : α} {post : α → Prop} (value : post a) : Returns S (pure a) post := by
  intro reports b same
  cases same
  exact value

theorem returns_bind {action : BuildM α} {next : α → BuildM β} {Q : α → Prop} {post : β → Prop}
    (first : Returns S action Q) (rest : ∀ a, Q a → Returns S (next a) post) :
    Returns S (action >>= next) post := by
  intro reports b same
  have run := run_bind (action S) (fun a => next a S) reports
  have start := first reports
  rcases h : (action S).run.run reports with ⟨f | a, later⟩ <;> rw [h] at run start <;>
    replace same := (congrArg Prod.fst run).symm.trans same
  · cases same
  · exact rest a (start a rfl) later b same

theorem returns_settle (found : List LocatedFault) : Returns S (BuildM.settle found) fun _ => found = [] := by
  cases found with
  | nil => exact returns_pure rfl
  | cons first rest =>
    refine returns_bind (fun _ _ _ => trivial) fun _ _ reports a same => ?_
    cases same

theorem buildJoins_returns (kept : List Declaration) :
    Returns S (buildJoins kept) fun built => faults built = [] →
      (values built).map (fun j => j.decl.name.node) =
        (kept.filter Declaration.isJoin).map fun d => d.name.node := by
  induction kept with
  | nil => exact returns_pure fun _ => rfl
  | cons d rest ih =>
    cases d with
    | join decl source =>
      rw [buildJoins_join]
      refine returns_bind (fun _ _ _ => trivial) fun outcome _ => ?_
      refine returns_bind ih fun others named => returns_pure fun clean => ?_
      cases outcome with
      | error f => cases clean
      | ok s => exact congrArg (decl.name.node :: ·) (named clean)
    | field _ _ | view _ =>
      exact ih

end Returning

theorem mapM_named {σ γ : Type} (step : γ → StateM σ (Except LocatedFault (String × FieldDef)))
    {name : γ → String} (each : ∀ x t entry, ((step x).run t).1 = .ok entry → entry.1 = name x)
    (items : List γ) (t : σ) (clean : faults ((items.mapM step).run t).1 = []) :
    (values ((items.mapM step).run t).1).map Prod.fst = items.map name := by
  induction items generalizing t with
  | nil => rfl
  | cons x rest ih =>
    rw [mapM_cons] at clean ⊢
    have here := each x t
    have others := ih ((step x).run t).2
    simp only [StateT.run_bind] at clean ⊢
    rcases h : (step x).run t with ⟨f | entry, later⟩ <;> rw [h] at clean here others
    · cases clean
    · have first := here entry rfl
      exact congrArg₂ List.cons first (others clean)

theorem isSome_lookup_iff {α : Type} {entries : List (String × α)} :
    (entries.lookup name).isSome ↔ name ∈ entries.map Prod.fst := by
  constructor
  · intro found
    obtain ⟨a, found⟩ := Option.isSome_iff_exists.mp found
    exact mem_map_of_mem (mem_of_lookup found)
  · intro mem
    obtain ⟨⟨_, a⟩, entry, rfl⟩ := mem_map.mp mem
    exact lookup_of_mem entry

def fieldsAndJoins (declarations : List Declaration) : List Declaration :=
  declarations.filter fun d => d.view?.isNone

theorem resolved_all {resolved : List (String × FieldDef)} (separate : (kept.map fun d => d.name.node).Nodup)
    (names : resolved.map Prod.fst = (fieldDecls kept).map (fun d => d.1.name.node) ++
      (kept.filter Declaration.isJoin).map fun d => d.name.node) :
    (kept.filter fun d => (resolved.lookup d.name.node).isSome) = fieldsAndJoins kept := by
  refine filter_congr fun d mem => ?_
  rw [Bool.eq_iff_iff, isSome_lookup_iff, names, mem_append]
  cases d with
  | field decl role =>
    refine iff_of_true (.inl (mem_map.mpr ⟨(decl, role), ?_, rfl⟩)) rfl
    exact mem_filterMap.mpr ⟨_, mem, rfl⟩
  | join decl source =>
    exact iff_of_true (.inr (mem_map.mpr ⟨_, mem_filter.mpr ⟨mem, rfl⟩, rfl⟩)) rfl
  | view decl =>
    refine iff_of_false ?_ nofun
    rintro (taken | taken)
    · obtain ⟨other, given, same⟩ := mem_map.mp taken
      cases inj_on_of_nodup_map separate (mem_fieldDecls given) mem same
    · obtain ⟨other, given, same⟩ := mem_map.mp taken
      obtain ⟨given, joins⟩ := mem_filter.mp given
      rw [inj_on_of_nodup_map separate given mem same] at joins
      cases joins

theorem resolveBody_names {outcome : BodyOutcome}
    (done : ((resolveBody scope fields joins filters).run []).1 = outcome) (fieldsClean : faults outcome.fields = [])
    (joinsClean : faults outcome.joins = []) :
    (values outcome.fields ++ values outcome.joins).map Prod.fst =
      fields.map (fun d => d.1.name.node) ++ joins.map fun j => j.decl.name.node := by
  subst done
  have named {α : Type} {outcome : Except LocatedFault α} {name : String} {make : α → FieldDef}
      {entry : String × FieldDef} (same : outcome.map (fun a => (name, make a)) = .ok entry) :
      entry.1 = name := by
    obtain ⟨a, _, rfl⟩ := map_eq_ok same
    rfl
  have fieldNames := mapM_named (fieldStep scope) (fun d t entry same => named same) fields []
    fieldsClean
  have joinNames := mapM_named (joinStep scope) (fun j t entry same => named same) joins _ joinsClean
  rw [map_append]
  exact congrArg₂ (· ++ ·) fieldNames joinNames

/-- A refined source: nothing that was defined changes, and what is visible follows from the body. -/
structure Refines (base : Namespace) (body : List Document.SourceProperty) (declarations : List Declaration)
    (refined : Namespace) : Prop where
  distinct : refined.Distinct
  retains : base.Retains refined
  names : refined.names = body.foldl shown base.names ++
    (fieldsAndJoins declarations).map (fun d => d.name.node) ++
    (declarations.filterMap Declaration.view?).map fun v => v.name.node

variable {S : Surroundings}

theorem completed_refines {base : Source} {body : List Document.SourceProperty} {declarations : List Declaration}
    (shows : Shows base.fields inherited (body.foldl shown base.fields.names))
    (claims : Claims inherited.1 declarations kept) (all : kept.2 = [] → kept.1 = declarations)
    (joined : faults built = [] → (values built).map (fun j => j.decl.name.node) =
      (kept.1.filter Declaration.isJoin).map fun d => d.name.node) (span : Span) :
    Returns S (completed S.url base body span inherited kept built) fun refined =>
      Refines base.fields body declarations refined.fields := by
  unfold completed
  generalize done : ((resolveBody (bodyScope S.url inherited.1 kept.1 (values built)) (fieldDecls kept.1)
    (values built) (bodyFilters body)).run []).1 = outcome
  refine returns_bind (returns_settle _) fun _ clean => ?_
  refine returns_bind (returns_settle _) fun _ viewsClean => returns_pure ?_
  simp only [append_eq_nil_iff] at clean
  obtain ⟨⟨⟨⟨⟨⟨shapesClean, claimsClean⟩, builtClean⟩, fieldsClean⟩, joinsClean⟩, _⟩, _⟩ := clean
  obtain rfl := all claimsClean
  have names := resolveBody_names done fieldsClean joinsClean
  rw [joined builtClean] at names
  have fields := bodyFields_adds (values outcome.fields ++ values outcome.joins) shows.distinct
    claims.distinct claims.fresh
  rw [resolved_all claims.distinct names] at fields
  have free : ∀ v ∈ kept.1.filterMap Declaration.view?, (bodyFields inherited.1
      (values outcome.fields ++ values outcome.joins) kept.1).lookup? v.name.node = none := by
    intro v mem
    rw [fields.others]
    · exact claims.fresh _ (mem_views mem)
    · intro taken
      obtain ⟨d, given, same⟩ := mem_map.mp taken
      obtain ⟨given, plain⟩ := mem_filter.mp given
      rw [inj_on_of_nodup_map claims.distinct given (mem_views mem) same] at plain
      cases plain
  rw [addViews_eq] at viewsClean ⊢
  obtain ⟨_, views⟩ := foldl_viewStep fields.distinct (views_distinct claims.distinct) free viewsClean
  have added := fields.trans views
  refine ⟨added.distinct, shows.retains.trans added.retains, ?_⟩
  rw [added.names, shows.names shapesClean, List.append_assoc]

theorem refine_refines (distinct : base.fields.Distinct) (body : List Document.SourceProperty)
    (declarations : List Declaration) (span : Span) :
    Returns S (refine base body declarations span) fun refined =>
      Refines base.fields body declarations refined.fields := by
  intro reports refined
  rw [refine_eq]
  revert refined reports
  refine returns_bind (buildJoins_returns _) fun built joined => ?_
  exact completed_refines (foldl_shows (reshapeBy S.url) shown (reshapeBy_shows S.url) body (shows_same distinct))
    (claimNames_claims S.url (reshape S.url base.fields body).1 declarations) claimNames_clean joined span

theorem joinDeclarations_names (joins : List Document.JoinDecl) :
    (fieldsAndJoins (joinDeclarations joins)).map (fun d => d.name.node) = joins.map (·.name.node) ∧
      (joinDeclarations joins).filterMap Declaration.view? = [] := by
  induction joins with
  | nil => rw [joinDeclarations]; exact ⟨rfl, rfl⟩
  | cons j rest ih =>
    obtain ⟨name, kind, inner, condition, span⟩ := j
    exact ⟨congrArg (name.node :: ·) ih.1, ih.2⟩

theorem propertyDeclarations_names (p : Document.SourceProperty) :
    (fieldsAndJoins (propertyDeclarations p)).map (fun d => d.name.node) = declaredFields p ∧
      ((propertyDeclarations p).filterMap Declaration.view?).map (fun v => v.name.node) = declaredViews p := by
  have fields (decls : List Document.FieldDecl) (role : FieldRole) :
      (fieldsAndJoins (decls.map (.field · role))).map (fun d => d.name.node) = decls.map (·.name.node) ∧
        (decls.map (Declaration.field · role)).filterMap Declaration.view? = [] := by
    induction decls with
    | nil => exact ⟨rfl, rfl⟩
    | cons decl rest ih => exact ⟨congrArg (decl.name.node :: ·) ih.1, ih.2⟩
  have views (decls : List Document.ViewDecl) :
      fieldsAndJoins (decls.map .view) = [] ∧
        (decls.map Declaration.view).filterMap Declaration.view? = decls := by
    induction decls with
    | nil => exact ⟨rfl, rfl⟩
    | cons decl rest ih => exact ⟨ih.1, congrArg (decl :: ·) ih.2⟩
  cases p with
  | dimension decls | measure decls | declare decls =>
    rw [propertyDeclarations, (fields decls _).1, (fields decls _).2]
    exact ⟨rfl, rfl⟩
  | join joins =>
    rw [propertyDeclarations, (joinDeclarations_names joins).1, (joinDeclarations_names joins).2]
    exact ⟨rfl, rfl⟩
  | view decls =>
    rw [propertyDeclarations, (views decls).1, (views decls).2]
    exact ⟨rfl, rfl⟩
  | _ => rw [propertyDeclarations] <;> first | exact ⟨rfl, rfl⟩ | simp

theorem bodyDeclarations_names (body : List Document.SourceProperty) :
    (fieldsAndJoins (bodyDeclarations body)).map (fun d => d.name.node) = body.flatMap declaredFields ∧
      ((bodyDeclarations body).filterMap Declaration.view?).map (fun v => v.name.node) =
        body.flatMap declaredViews := by
  induction body with
  | nil => rw [bodyDeclarations]; exact ⟨rfl, rfl⟩
  | cons p rest ih =>
    obtain ⟨fields, views⟩ := propertyDeclarations_names p
    unfold fieldsAndJoins at *
    rw [bodyDeclarations, filter_append, map_append, filterMap_append, map_append,
      fields, views, ih.1, ih.2]
    exact ⟨rfl, rfl⟩

def refinedBy (e : Document.SourceExpr) (chain : List (List Document.SourceProperty × Span)) :
    Document.SourceExpr :=
  chain.foldl (fun e step => .refine e step.1 step.2) e

theorem source_refine {refined : Source} (sound : S.Sound)
    (built : ((source (.refine e body span) S).run.run reports).1 = .ok refined) :
    ∃ base, ((source e S).run.run reports).1 = .ok base ∧ base.fields.Retains refined.fields ∧
      refined.fields.names = shownAfter base.fields.names body := by
  have run := run_bind (source e S) (fun base => refine base body (bodyDeclarations body) span S) reports
  have good : ∀ s, ((source e S).run.run reports).1 = .ok s → SourceSound s := fun _ => source_sound sound e
  rcases h : (source e S).run.run reports with ⟨f | base, later⟩ <;> rw [h] at run good <;>
    replace built := (congrArg Prod.fst run).symm.trans built
  · cases built
  · obtain ⟨_, retains, names⟩ := refine_refines (good base rfl).fields.distinct body _ span later refined built
    obtain ⟨fields, views⟩ := bodyDeclarations_names body
    rw [fields, views] at names
    exact ⟨base, rfl, retains, names⟩

/-- What a chain of refinements leaves of the fields that it starts from. -/
structure Descends (base refined : Namespace) (chain : List (List Document.SourceProperty × Span)) : Prop where
  retains : base.Retains refined
  names : refined.names = chain.foldl (fun names step => shownAfter names step.1) base.names

theorem source_refinedBy (sound : S.Sound) {refined : Source} (chain : List (List Document.SourceProperty × Span))
    (built : ((source (refinedBy e chain) S).run.run reports).1 = .ok refined) :
    ∃ base, ((source e S).run.run reports).1 = .ok base ∧ Descends base.fields refined.fields chain := by
  induction chain generalizing e with
  | nil => exact ⟨refined, built, .refl _, rfl⟩
  | cons step rest ih =>
    obtain ⟨mid, first, retains, names⟩ := ih built
    obtain ⟨base, start, retained, shown⟩ := source_refine sound first
    refine ⟨base, start, retained.trans retains, ?_⟩
    rw [names, shown]
    rfl

/-- However a source is refined, all that was defined in the base keeps its definition, every path leads
where it led, and the visible names are the old ones with the new ones behind. -/
theorem refinement_keeps_definitions (i : Inputs) (before : List Document.Statement)
    (imports : ∀ url imported, i.imports.lookup url = some imported → Built imported)
    (building : Option String) (e : Document.SourceExpr) (chain : List (List Document.SourceProperty × Span))
    {refined : Source}
    (built : (running i (document i ⟨before⟩) building (source (refinedBy e chain))).1 = .ok refined) :
    ∃ base, (running i (document i ⟨before⟩) building (source e)).1 = .ok base ∧
      (∀ name field, base.fields.lookup? name = some field → refined.fields.lookup? name = some field) ∧
      (∀ path r, Namespace.resolveDefined base.fields path = .ok r →
        ∃ owner, Namespace.resolveDefined refined.fields path = .ok { r with owner := owner }) ∧
      refined.fields.names = chain.foldl (fun names step => shownAfter names step.1) base.fields.names := by
  have sound : (surroundings i (document i ⟨before⟩) building).Sound :=
    (built_sound (.document i ⟨before⟩ imports)).surroundings building
  obtain ⟨base, start, retains, names⟩ := source_refinedBy sound chain built
  exact ⟨base, start, retains, fun _ _ => Namespace.resolveDefined_retains retains, names⟩

def orderTable : Inputs :=
  ⟨"file:///orders.model", ⟨[("orders", .known [⟨"id", .number⟩, ⟨"amount", .number⟩])], []⟩, fun _ => .duckdb, []⟩

/-- A measure and a view of amounts; then the amounts are renamed, the keys are hidden, and there are a new
dimension and a new view. -/
def amountsRenamed : List (List Document.SourceProperty × Span) :=
  let name (text : String) : Document.Name := ⟨text, default⟩
  let field (text : String) : Document.Expr := ⟨.field ⟨[text], default⟩, default⟩
  let view (text listed : String) : Document.ViewDecl :=
    ⟨name text, [.stage ⟨[.project [.reference ⟨[listed], default⟩ []]], default⟩], default⟩
  [([.measure [⟨name "total", ⟨.aggregate .sum none (some (field "amount")), default⟩, default⟩],
      .view [view "amounts" "amount"]], default),
    ([.rename [⟨name "value", name "amount"⟩], .view [view "values" "value"],
      .dimension [⟨name "debt", ⟨.unary .neg (field "value"), default⟩, default⟩],
      .except [name "id"]], default)]

theorem refinement_keeps_amounts : ∃ base refined,
    (running orderTable (document orderTable ⟨[]⟩) none (source (.table none "orders" default))).1 = .ok base ∧
    (running orderTable (document orderTable ⟨[]⟩) none
      (source (refinedBy (.table none "orders" default) amountsRenamed))).1 = .ok refined ∧
    (base.fields.lookup? "amount").isSome = true ∧
    (∀ name field, base.fields.lookup? name = some field → refined.fields.lookup? name = some field) ∧
    (∀ path r, Namespace.resolveDefined base.fields path = .ok r →
      ∃ owner, Namespace.resolveDefined refined.fields path = .ok { r with owner := owner }) ∧
    refined.fields.names = ["value", "total", "amounts", "debt", "values"] := by
  have accepted : (running orderTable (document orderTable ⟨[]⟩) none
      (source (refinedBy (.table none "orders" default) amountsRenamed))).1.isOk = true := by
    decide +kernel
  cases built : (running orderTable (document orderTable ⟨[]⟩) none
      (source (refinedBy (.table none "orders" default) amountsRenamed))).1 with
  | error f =>
    rw [built] at accepted
    cases accepted
  | ok refined =>
    obtain ⟨base, start, kept, resolved, names⟩ :=
      refinement_keeps_definitions orderTable [] nofun none _ amountsRenamed built
    refine ⟨base, refined, start, rfl, ?_, kept, resolved, ?_⟩
    · cases start
      rfl
    · rw [names]
      cases start
      rfl

end Elaborate

end SemanticLayer
