import SemanticLayer.Proofs.Model.Parts

/-!
Sound models. In a sound source every definition names fields that exist, of the level that its place asks
for, and the definitions stand in an order in which each one needs only earlier ones and joined sources.
Sound stages ask of their input what it offers. Nothing here says how a model was come by.
-/
namespace SemanticLayer

open List

def Names.only (n : Names) (order : List String) : Names :=
  ⟨fun path => match path with
    | [name] => if name ∈ order then n.level [name] else none
    | path => n.level path, n.joins, n.columns⟩

theorem Names.only_le (n : Names) (order : List String) : n.only order ≤ n := by
  refine ⟨fun path l h => ?_, fun _ h => h, fun _ h => h⟩
  simp only [Names.only] at h
  split at h
  · split at h
    · exact h
    · cases h
  · exact h

inductive FieldDef.Defined (n : Names) : FieldDef → Prop where
  | dimension (level : f.expr.level? n = some .scalar) : Defined n (.dimension f)
  | measure (level : f.expr.level? n = some .aggregate) : Defined n (.measure f)

theorem FieldDef.Defined.mono (le : n ≤ m) {f : FieldDef} (defined : f.Defined n) : f.Defined m := by
  cases defined with
  | dimension level => exact .dimension (Expr.level?_mono le _ level)
  | measure level => exact .measure (Expr.level?_mono le _ level)

/-- An order of definitions, the last one first: each needs only those after it in the list. -/
inductive Ordered (ns : Namespace) : List String → Prop where
  | nil : Ordered ns []
  | cons {name : String} {order : List String} {field : FieldDef} (earlier : Ordered ns order)
      (fresh : name ∉ order) (found : ns.lookup? name = some field)
      (defined : field.Defined ((Names.of ns).only order)) : Ordered ns (name :: order)

def Names.ofSchema (fields : List ResultField) : Names := Names.of (Namespace.ofResult fields default)

def Sorted (fields : List OutputField) (orderBy : List OrderBy) : Prop :=
  ∀ o ∈ orderBy, ∃ f ∈ fields, f.isNest = false ∧ f.name = o.field

mutual

/-- A stage whose expressions have the levels that their places ask for. -/
inductive StageSound : Names → Stage → Prop where
  | reduce (nonempty : fields ≠ []) (distinct : (fields.map OutputField.name).Nodup)
      (outputs : ∀ f ∈ fields, OutputSound n f)
      (groups : ∀ f ∈ having, f.expr.level? n = some .aggregate)
      (rows : ∀ f ∈ r.filters, f.expr.level? n = some .scalar) (sorted : Sorted fields orderBy) :
      StageSound n (.reduce fields having orderBy r)
  | project
      (nonempty : fields ≠ []) (distinct : (fields.map OutputField.name).Nodup)
      (outputs : ∀ f ∈ fields, OutputSound n f) (dimensions : ∀ f ∈ fields, ∃ x, f = .dimension x)
      (rows : ∀ f ∈ r.filters, f.expr.level? n = some .scalar) (sorted : Sorted fields orderBy) :
      StageSound n (.project fields orderBy r)
  | index {n : Names} {fields : List IndexField} {weight : Option Expr} {r : Restriction}
      (nonempty : fields ≠ []) (dimensions : ∀ f ∈ fields, n.level f.path = some .scalar)
      (weights : ∀ e ∈ weight, e.level? n = some .aggregate)
      (rows : ∀ f ∈ r.filters, f.expr.level? n = some .scalar) :
      StageSound n (.index fields weight r)

inductive OutputSound : Names → OutputField → Prop where
  | dimension (level : f.expr.level? n = some .scalar) :
      OutputSound n (.dimension f)
  | measure (level : f.expr.level? n = some .aggregate) :
      OutputSound n (.measure f)
  | nest {n : Names} {nest : Nest} (nonempty : nest.stages ≠ [])
      (kinds : ∀ stage ∈ nest.stages, stage.kind ≠ .index) (stages : StagesSound n nest.stages) :
      OutputSound n (.nest nest)

inductive StagesSound : Names → List Stage → Prop where
  | nil : StagesSound n []
  | cons {n : Names} {stage : Stage} {rest : List Stage} (first : StageSound n stage)
      (later : StagesSound (.ofSchema stage.outputSchema) rest) : StagesSound n (stage :: rest)

end

/-- A join condition over the names of the parent. A condition on a key needs the joined source to have
one. -/
def Correlation.Fits (n : Names) (source : Source) : Correlation → Prop
  | .key e => e.level? n = some .scalar ∧ source.primaryKey.isSome = true
  | .on e => e.level? n = some .scalar
  | .free => True

def Join.Correlated (n : Names) (j : Join) : Prop := j.correlation.Fits n j.source

def startsSampled (stages : List Stage) : Bool := stages.head?.any fun stage => stage.sample.isSome

mutual

inductive FieldsSound : Namespace → Prop where
  | mk (distinct : ns.Distinct)
      (ordered : ∃ order, Ordered ns order ∧ ∀ name f, ns.lookup? name = some f →
        f.level?.isSome = true → name ∈ order)
      (joins : ∀ name j, ns.lookup? name = some (.join j) → SourceSound j.source)
      (correlated : ∀ name j, ns.lookup? name = some (.join j) → j.Correlated (Names.of ns))
      (views : ∀ name v, ns.lookup? name = some (.view v) → StagesSound (Names.of ns) v.stages) :
      FieldsSound ns

/-- A source of which all that planning reads is there. -/
inductive SourceSound : Source → Prop where
  | mk (fields : FieldsSound s.fields)
      (origin : ∀ q, s.origin = .query q → QuerySound q)
      (stored : ∀ q, s.origin = .query q → ∀ name, Namespace.stores s.fields name = true →
        name ∈ q.outputSchema.map ResultField.name)
      (key : ∀ name ∈ s.primaryKey, (Names.of s.fields).level [name] = some .scalar)
      (rows : ∀ f ∈ s.filters, f.expr.level? (Names.of s.fields) = some .scalar)
      (sampled : ∀ name v, s.fields.lookup? name = some (.view v) → startsSampled v.stages = true →
        s.origin.isTable = true) : SourceSound s

inductive QuerySound : Query → Prop where
  | mk (source : SourceSound q.source) (nonempty : q.stages ≠ [])
      (stages : StagesSound (Names.of q.source.fields) q.stages)
      (sampled : startsSampled q.stages = true → q.source.origin.isTable = true) : QuerySound q

end

mutual

theorem StageSound.mono (le : n ≤ m) : StageSound n stage → StageSound m stage
  | .reduce nonempty distinct outputs groups rows sorted =>
    .reduce nonempty distinct (fun f mem => (outputs f mem).mono le)
      (fun f mem => Expr.level?_mono le _ (groups f mem)) (fun f mem => Expr.level?_mono le _ (rows f mem)) sorted
  | .project nonempty distinct outputs dimensions rows sorted =>
    .project nonempty distinct (fun f mem => (outputs f mem).mono le) dimensions
      (fun f mem => Expr.level?_mono le _ (rows f mem)) sorted
  | .index nonempty dimensions weights rows =>
    .index nonempty (fun f mem => le.1 _ _ (dimensions f mem))
      (fun e mem => Expr.level?_mono le _ (weights e mem)) fun f mem => Expr.level?_mono le _ (rows f mem)

theorem OutputSound.mono (le : n ≤ m) : OutputSound n f → OutputSound m f
  | .dimension level => .dimension (Expr.level?_mono le _ level)
  | .measure level => .measure (Expr.level?_mono le _ level)
  | .nest nonempty kinds stages => .nest nonempty kinds (stages.mono le)

theorem StagesSound.mono (le : n ≤ m) :
    StagesSound n stages → StagesSound m stages
  | .nil => .nil
  | .cons first later => .cons (first.mono le) later

end

theorem Ordered.nodup (ordered : Ordered ns order) : order.Nodup := by
  induction ordered with
  | nil => exact nodup_nil
  | cons earlier fresh found defined ih => exact nodup_cons.mpr ⟨fresh, ih⟩

theorem Ordered.defined (ordered : Ordered ns order) (mem : name ∈ order) :
    ∃ field, ns.lookup? name = some field ∧ field.Defined (Names.of ns) := by
  induction ordered with
  | nil => cases mem
  | @cons own order field earlier fresh found defined ih =>
    rcases mem_cons.mp mem with rfl | mem
    · exact ⟨field, found, defined.mono (Names.only_le _ _)⟩
    · exact ih mem

namespace FieldsSound

variable {ns : Namespace}

theorem distinct : FieldsSound ns → ns.Distinct
  | .mk distinct _ _ _ _ => distinct

theorem joined (sound : FieldsSound ns) (found : ns.lookup? name = some (.join j)) :
    SourceSound j.source ∧ j.Correlated (Names.of ns) := by
  cases sound with
  | mk _ _ joins correlated _ => exact ⟨joins name j found, correlated name j found⟩

theorem view (sound : FieldsSound ns) (found : ns.lookup? name = some (.view v)) :
    StagesSound (Names.of ns) v.stages := by
  cases sound with
  | mk _ _ _ _ views => exact views name v found

end FieldsSound

theorem SourceSound.fields : SourceSound s → FieldsSound s.fields
  | .mk fields _ _ _ _ _ => fields

theorem FieldsSound.within {inner : Namespace} : ∀ {path : List String} {ns : Namespace},
    FieldsSound ns → ns.within? path = some inner → FieldsSound inner
  | [], ns, sound, h => by cases h; exact sound
  | name :: rest, ns, sound, h => by
    obtain ⟨join, found, within⟩ := Namespace.within?_cons_inv h
    exact FieldsSound.within (sound.joined found).1.fields within

variable {ns other : Namespace}

theorem FieldsSound.ofFlat (distinct : ns.Distinct)
    (flat : ∀ name f, ns.lookup? name = some f →
      (∃ field location, f = .nested field location) ∨ ∃ column, f.column? = some column) : FieldsSound ns := by
  have defined {name : String} {f : FieldDef} {column : String} (found : ns.lookup? name = some f)
      (stored : f.column? = some column) (order : List String) : f.Defined ((Names.of ns).only order) := by
    obtain ⟨x, rfl, is⟩ := FieldDef.column?_eq_some stored
    refine .dimension ?_
    rw [is]
    exact if_pos (Namespace.stores_iff.mpr ⟨name, _, found, stored⟩)
  have ordered : ∀ names : List String, names.Nodup →
      (∀ name ∈ names, ∃ f, ns.lookup? name = some f ∧ f.level?.isSome = true) → Ordered ns names := by
    intro names nodup found
    induction names with
    | nil => exact .nil
    | cons name rest ih =>
      obtain ⟨fresh, nodup⟩ := nodup_cons.mp nodup
      obtain ⟨f, here, leveled⟩ := found name mem_cons_self
      refine .cons (ih nodup fun other mem => found other (mem_cons_of_mem _ mem)) fresh here ?_
      rcases flat name f here with ⟨_, _, rfl⟩ | ⟨column, stored⟩
      · cases leveled
      · exact defined here stored rest
  refine .mk distinct ⟨(ns.entries.map Slot.name).filter fun name =>
    ((ns.lookup? name).bind FieldDef.level?).isSome, ordered _ (distinct.filter _) ?_, ?_⟩ ?_ ?_ ?_
  · intro name mem
    obtain ⟨l, leveled⟩ := Option.isSome_iff_exists.mp (mem_filter.mp mem).2
    obtain ⟨f, found, leveled⟩ := Option.bind_eq_some_iff.mp leveled
    exact ⟨f, found, by simp [leveled]⟩
  · intro name f found leveled
    obtain ⟨slot, mem, same, _⟩ := Slots.slot_of_lookup? found
    exact mem_filter.mpr ⟨mem_map.mpr ⟨slot, mem, same⟩, by simpa [found] using leveled⟩
  all_goals
    intro name x found
    rcases flat name _ found with ⟨_, _, impossible⟩ | ⟨_, impossible⟩ <;> cases impossible

theorem lookup_keyed {α β : Type} (key : α → String) (value : α → β) (items : List α) (name : String) :
    (items.map fun a => (key a, value a)).lookup name =
      (items.find? fun a => key a == name).map value := by
  induction items with
  | nil => rfl
  | cons a rest ih =>
    rw [map_cons, lookup_cons, List.find?_cons]
    by_cases h : key a = name
    · simp [h]
    · rw [beq_eq_false_iff_ne.mpr h, beq_eq_false_iff_ne.mpr (Ne.symm h)]
      exact ih

theorem lookup?_ofResult (fields : List ResultField) (location : Location) (name : String) :
    (Namespace.ofResult fields location).lookup? name =
      (fields.reverse.find? fun f => f.name == name).map (FieldDef.ofResult location) := by
  unfold Namespace.ofResult
  rw [Slots.lookup?_ofList, ← map_reverse, lookup_keyed]

theorem FieldsSound.ofResult (fields : List ResultField) (location : Location) :
    FieldsSound (Namespace.ofResult fields location) := by
  refine .ofFlat (Slots.distinct_ofList _) fun name f found => ?_
  rw [lookup?_ofResult] at found
  obtain ⟨field, _, rfl⟩ := Option.map_eq_some_iff.mp found
  unfold FieldDef.ofResult
  split
  · exact .inr ⟨_, rfl⟩
  · exact .inl ⟨_, _, rfl⟩

theorem stored_field (stored : (Namespace.ofResult fields location).stores column = true) :
    ∃ field, fields.reverse.find? (fun f => f.name == column) = some field ∧ field.name = column ∧
      ∃ type, field.type = .atomic type := by
  obtain ⟨name, f, found, is⟩ := Namespace.stores_iff.mp stored
  rw [lookup?_ofResult] at found
  obtain ⟨field, here, rfl⟩ := Option.map_eq_some_iff.mp found
  have named : field.name = name := by simpa using List.find?_some here
  unfold FieldDef.ofResult at is
  split at is
  · next type atomic =>
    cases is
    exact ⟨field, named ▸ here, rfl, type, atomic⟩
  · cases is

theorem stores_ofResult (stored : (Namespace.ofResult fields location).stores column = true) :
    column ∈ fields.map ResultField.name := by
  obtain ⟨field, here, rfl, _⟩ := stored_field stored
  exact mem_map_of_mem (mem_reverse.mp (List.mem_of_find?_eq_some here))

theorem FieldsSound.ofColumns (columns : TableSchema) (location : Location) :
    FieldsSound (Namespace.ofColumns columns location) := by
  refine .ofFlat (Slots.distinct_ofList _) fun name f found => .inr ?_
  unfold Namespace.ofColumns at found
  rw [Slots.lookup?_ofList, ← map_reverse, lookup_keyed] at found
  obtain ⟨column, _, rfl⟩ := Option.map_eq_some_iff.mp found
  exact ⟨column.name, rfl⟩

theorem ofResult_le (fields : List ResultField) (a b : Location) :
    Names.of (Namespace.ofResult fields a) ≤ Names.of (Namespace.ofResult fields b) := by
  refine Namespace.names_le fun name f found => ?_
  rw [lookup?_ofResult] at found ⊢
  obtain ⟨field, here, rfl⟩ := Option.map_eq_some_iff.mp found
  refine ⟨_, by rw [here]; rfl, ?_⟩
  unfold FieldDef.ofResult
  cases field.type <;> exact ⟨rfl, rfl, rfl⟩

theorem Names.only_mono {m : Names} (le : n ≤ m) (order : List String) : n.only order ≤ m.only order := by
  refine ⟨fun path l h => ?_, le.2⟩
  simp only [Names.only] at h ⊢
  split at h
  · split at h
    · next mem => rw [if_pos mem]; exact le.1 _ l h
    · cases h
  · exact le.1 _ l h

theorem Namespace.names_le_only
    (complete : ∀ name f, ns.lookup? name = some f → f.level?.isSome = true → name ∈ order) :
    Names.of ns ≤ (Names.of ns).only order := by
  refine ⟨fun path l h => ?_, fun _ h => h, fun _ h => h⟩
  simp only [Names.only]
  split
  · next name =>
    obtain ⟨f, found, leveled⟩ := Option.bind_eq_some_iff.mp h
    rw [if_pos (complete name f found (by simp [leveled]))]
    exact h
  · exact h

theorem Correlation.Fits.mono (le : n ≤ m) {c : Correlation} (fits : c.Fits n source) : c.Fits m source := by
  cases c with
  | key e => exact ⟨Expr.level?_mono le _ fits.1, fits.2⟩
  | on e => exact Expr.level?_mono le _ fits
  | free => trivial

theorem Join.Correlated.mono (le : n ≤ m) {j : Join} (correlated : j.Correlated n) : j.Correlated m :=
  Correlation.Fits.mono le correlated

inductive Similar : FieldDef → FieldDef → Prop where
  | dimension (same : g.expr = f.expr) : Similar (.dimension f) (.dimension g)
  | measure (same : g.expr = f.expr) : Similar (.measure f) (.measure g)
  | join {j k : Join} (same : k.source = j.source) : Similar (.join j) (.join k)
  | view (v : View) : Similar (.view v) (.view v)
  | nested (f : ResultField) (l : Location) : Similar (.nested f l) (.nested f l)

namespace Similar

theorem refl (f : FieldDef) : Similar f f := by
  cases f with
  | dimension f => exact .dimension rfl
  | measure f => exact .measure rfl
  | join j => exact .join rfl
  | view v => exact .view v
  | nested f l => exact .nested f l

variable {f g : FieldDef}

theorem level? (similar : Similar f g) : g.level? = f.level? := by cases similar <;> rfl

theorem inner? (similar : Similar f g) : g.inner? = f.inner? := by
  cases similar with
  | join same => simp [FieldDef.inner?, FieldDef.join?, same]
  | _ => rfl

theorem column? (similar : Similar f g) : g.column? = f.column? := by
  cases similar with
  | dimension same => rw [FieldDef.column?, FieldDef.column?, same]
  | _ => rfl

theorem defined (similar : Similar f g) (defined : f.Defined n) : g.Defined n := by
  cases defined with
  | dimension level => cases similar with | dimension same => exact .dimension (same ▸ level)
  | measure level => cases similar with | measure same => exact .measure (same ▸ level)

end Similar

section

variable (there : ∀ name f, ns.lookup? name = some f → ∃ g, other.lookup? name = some g ∧ Similar f g)

include there

theorem Namespace.extends_of_similar :
    ns.Extends other := by
  intro name f found
  obtain ⟨g, found, similar⟩ := there name f found
  exact ⟨g, found, similar.level?, similar.inner?, similar.column?⟩

theorem Ordered.similar
    {order : List String} (ordered : Ordered ns order) : Ordered other order := by
  induction ordered with
  | nil => exact .nil
  | @cons name order field earlier fresh found defined ih =>
    obtain ⟨g, found', similar⟩ := there _ _ found
    have le := Names.only_mono (Namespace.names_le (Namespace.extends_of_similar there)) order
    exact .cons ih fresh found' (similar.defined (defined.mono le))

end

theorem FieldsSound.similar (sound : FieldsSound ns) (distinct : other.Distinct)
    (there : ∀ name f, ns.lookup? name = some f → ∃ g, other.lookup? name = some g ∧ Similar f g)
    (back : ∀ name g, other.lookup? name = some g → ∃ f, ns.lookup? name = some f ∧ Similar f g)
    (correlated : ∀ name j, other.lookup? name = some (.join j) → j.Correlated (Names.of ns)) :
    FieldsSound other := by
  have le := Namespace.names_le (Namespace.extends_of_similar there)
  cases sound with
  | mk _ ordered joins _ views =>
    obtain ⟨order, ordered, complete⟩ := ordered
    refine .mk distinct ⟨order, ordered.similar there, ?_⟩ ?_ ?_ ?_
    · intro name g found leveled
      obtain ⟨f, found, similar⟩ := back name g found
      exact complete name f found (similar.level? ▸ leveled)
    · intro name k found
      obtain ⟨f, found, similar⟩ := back name _ found
      cases similar with
      | join same => exact same ▸ joins name _ found
    · exact fun name j found => (correlated name j found).mono le
    · intro name v found
      obtain ⟨f, found, similar⟩ := back name _ found
      cases similar with
      | view v => exact (views name v found).mono le

/-- A field that may be added to a namespace. -/
inductive FieldDef.Fits (n : Names) : FieldDef → Prop where
  | defined (defined : f.Defined n) : Fits n f
  | join {j : Join} (source : SourceSound j.source) (correlated : j.Correlated n) : Fits n (.join j)
  | view (stages : StagesSound n v.stages) : Fits n (.view v)
  | nested (f : ResultField) (l : Location) : Fits n (.nested f l)

theorem FieldsSound.fits (sound : FieldsSound ns) (found : ns.lookup? name = some f) : f.Fits (Names.of ns) := by
  cases sound with
  | mk _ ordered joins correlated views =>
    obtain ⟨order, ordered, complete⟩ := ordered
    have defined (leveled : f.level?.isSome = true) : f.Fits (Names.of ns) := by
      obtain ⟨field, found', defined⟩ := ordered.defined (complete name f found leveled)
      rw [found] at found'
      cases found'
      exact .defined defined
    cases f with
    | dimension f => exact defined rfl
    | measure f => exact defined rfl
    | join j => exact .join (joins name j found) (correlated name j found)
    | view v => exact .view (views name v found)
    | nested f l => exact .nested f l

theorem insert_there (fresh : ns.lookup? name = none) (field : FieldDef) :
    ∀ other f, ns.lookup? other = some f → (ns.insert name field).lookup? other = some f := by
  intro other f found
  rw [Slots.lookup?_insert, if_neg]
  · exact found
  · rintro rfl
    rw [fresh] at found
    cases found

theorem insert_extends (fresh : ns.lookup? name = none) (field : FieldDef) : ns.Extends (ns.insert name field) :=
  Namespace.extends_of_similar fun other f found => ⟨f, insert_there fresh field other f found, .refl f⟩

theorem FieldsSound.insert (sound : FieldsSound ns) {name : String} {field : FieldDef}
    (fresh : ns.lookup? name = none) (fits : field.Fits (Names.of ns)) : FieldsSound (ns.insert name field) := by
  have le := Namespace.names_le (insert_extends fresh field)
  have cases_of : ∀ {other f}, (ns.insert name field).lookup? other = some f →
      (other = name ∧ f = field) ∨ ns.lookup? other = some f := by
    intro other f found
    rw [Slots.lookup?_insert] at found
    split at found
    · next same => exact .inl ⟨same.symm, (Option.some.inj found).symm⟩
    · exact .inr found
  cases sound with
  | mk distinct ordered joins correlated views =>
    obtain ⟨order, ordered, complete⟩ := ordered
    have ordered' : Ordered (ns.insert name field) order :=
      ordered.similar fun other f found => ⟨f, insert_there fresh field other f found, .refl f⟩
    have whole : Names.of ns ≤ (Names.of (ns.insert name field)).only order :=
      Names.le_trans (Namespace.names_le_only complete) (Names.only_mono le order)
    have unlisted : name ∉ order := by
      intro mem
      obtain ⟨f, found, _⟩ := ordered.defined mem
      rw [fresh] at found
      cases found
    have here : (ns.insert name field).lookup? name = some field := by simp [Slots.lookup?_insert]
    refine .mk (Slots.distinct_insert distinct _ _) ?_ ?_ ?_ ?_
    · cases leveled : field.level?.isSome with
      | true =>
        have defined : field.Defined ((Names.of (ns.insert name field)).only order) := by
          cases fits with
          | defined defined => exact defined.mono whole
          | _ => cases leveled
        refine ⟨name :: order, .cons ordered' unlisted here defined, fun other f found some => ?_⟩
        rcases cases_of found with ⟨rfl, _⟩ | found
        · exact mem_cons_self
        · exact mem_cons_of_mem _ (complete other f found some)
      | false =>
        refine ⟨order, ordered', fun other f found some => ?_⟩
        rcases cases_of found with ⟨_, rfl⟩ | found
        · rw [leveled] at some; cases some
        · exact complete other f found some
    · intro other j found
      rcases cases_of found with ⟨_, rfl⟩ | found
      · cases fits with
        | join source _ => exact source
        | defined defined => cases defined
      · exact joins other j found
    · intro other j found
      rcases cases_of found with ⟨_, rfl⟩ | found
      · cases fits with
        | join _ correlated => exact correlated.mono le
        | defined defined => cases defined
      · exact (correlated other j found).mono le
    · intro other v found
      rcases cases_of found with ⟨_, rfl⟩ | found
      · cases fits with
        | view stages => exact stages.mono le
        | defined defined => cases defined
      · exact (views other v found).mono le

theorem FieldsSound.congr (sound : FieldsSound ns) (distinct : other.Distinct)
    (same : ∀ name, other.lookup? name = ns.lookup? name) : FieldsSound other := by
  refine sound.similar distinct (fun name f found => ⟨f, (same name).trans found, .refl f⟩)
    (fun name f found => ⟨f, (same name).symm.trans found, .refl f⟩) fun name j found => ?_
  rw [same] at found
  exact (sound.joined found).2

end SemanticLayer
