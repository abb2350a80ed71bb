import SemanticLayer.Proofs.Model.Respelling
import SemanticLayer.Proofs.Plan.Needs

/-!
A field under another name. Definitions that were written before it was renamed still call it by the old name, so
the same join can be reached along two paths. What is read under the new name is read in the fields before the
renaming under the old one, and as long as nothing is read under both, no two joins fall together.
-/
namespace SemanticLayer

open List hiding after

/-- Sound fields of which one gets a name that none of them has. -/
structure Renaming (old new : String) (s r : Namespace) : Prop where
  base : FieldsSound s
  sound : FieldsSound r
  visible : ∃ field, s.get? old = some field
  free : s.lookup? new = none
  renamed : r = s.rename old new

def Shown (names : List String) (path : List String) : Prop := ∀ name ∈ path.head?, name ∉ names

theorem shown_nil (names : List String) : Shown names [] := by simp [Shown]

theorem shown_cons :
    Shown names (name :: rest) ↔ name ∉ names := by simp [Shown]

theorem shown_append (nonempty : path ≠ []) (rest : List String) : Shown names (path ++ rest) ↔ Shown names path := by
  cases path with
  | nil => exact (nonempty rfl).elim
  | cons name path => rfl

section Apart

variable {old new : String} {names p q : List String}

theorem respell_starts (given : old ∈ names ∨ new ∈ names) (first : Shown names p) (second : Shown names q) :
    respell old new p <+: respell old new q ↔ p <+: q := by
  cases p with
  | nil => simp
  | cons a p =>
    cases q with
    | nil => simp
    | cons b q =>
      rw [shown_cons] at first second
      simp only [respell]
      grind

theorem respell_inj (given : old ∈ names ∨ new ∈ names) (first : Shown names p) (second : Shown names q) :
    respell old new p = respell old new q ↔ p = q := by
  refine ⟨fun same => ?_, congrArg _⟩
  have starts := (respell_starts given first second).mp (same ▸ prefix_rfl)
  have length := congrArg List.length same
  rw [respell_length, respell_length] at length
  exact starts.eq_of_length length

end Apart

theorem starts_respell : p <+: respell old new path ↔ ∃ q, q <+: path ∧ respell old new q = p := by
  constructor
  · intro starts
    refine ⟨path.take p.length, take_prefix _ _, ?_⟩
    rw [← respell_take]
    exact (prefix_iff_eq_take.mp starts).symm
  · rintro ⟨q, ⟨rest, rfl⟩, rfl⟩
    cases q with
    | nil => simp
    | cons name q =>
      exact prefix_append _ _

namespace Renaming

variable {old new : String} {s r : Namespace}

section

variable (renames : Renaming old new s r)

include renames

theorem lookup (name : String) :
    r.lookup? name = s.lookup? (if name = new then old else name) := by
  obtain ⟨field, visible⟩ := renames.visible
  rw [renames.renamed, Slots.lookup?_rename renames.base.distinct visible renames.free]
  by_cases same : name = new
  · rw [if_pos same, if_pos same.symm, Slots.lookup?_of_get? visible]
  · rw [if_neg same, if_neg (Ne.symm same)]

theorem within (nonempty : path ≠ []) :
    r.within? path = s.within? (respell old new path) := by
  cases path with
  | nil => exact (nonempty rfl).elim
  | cons name rest => rw [Namespace.within?, renames.lookup, respell, Namespace.within?]

theorem joins (path : List String) :
    (s.within? (respell old new path)).isSome = (r.within? path).isSome := by
  cases path with
  | nil => rfl
  | cons name rest => rw [renames.within (cons_ne_nil name rest)]

theorem field (path : List String) :
    s.field? (respell old new path) = r.field? path := by
  rcases eq_nil_or_concat' path with rfl | ⟨place, last, rfl⟩
  · rfl
  · cases place with
    | nil =>
      exact (renames.lookup last).symm
    | cons name place =>
      rw [respell_append (cons_ne_nil name place), Namespace.field?_snoc, Namespace.field?_snoc,
        renames.within (cons_ne_nil name place)]

theorem known (found : s.lookup? name = some f) : name ≠ new := by
  rintro rfl
  rw [renames.free] at found
  cases found

theorem stores (column : String) : s.stores column = r.stores column := by
  refine Bool.eq_iff_iff.mpr ?_
  rw [Namespace.stores_iff, Namespace.stores_iff]
  constructor
  · rintro ⟨name, f, found, is⟩
    exact ⟨name, f, by rw [renames.lookup, if_neg (renames.known found), found], is⟩
  · rintro ⟨name, f, found, is⟩
    exact ⟨_, f, (renames.lookup name).symm.trans found, is⟩

theorem names :
    (Names.of r).Respelled (respell old new) (Names.of s) where
  level path := congrArg (·.bind FieldDef.level?) (renames.field path)
  joins := renames.joins
  columns := renames.stores

theorem respell_joined (joined : (s.within? path).isSome = true) :
    respell old new path = path := by
  cases path with
  | nil => rfl
  | cons name rest =>
    refine respell_other ?_ rest
    rw [Namespace.within?] at joined
    cases found : s.lookup? name with
    | none =>
      rw [found] at joined
      cases joined
    | some f => exact renames.known found

theorem unchanged {e : Expr} (level : e.level? (Names.of s) = some l) :
    e.mapPaths (respell old new) = e := by
  refine Expr.mapPaths_leveled (fun path l level => ?_) (fun path => renames.respell_joined) level
  obtain ⟨joins, last, owner, field, _, rfl, within, found, _⟩ := Namespace.definitionOf_of_level level
  cases joins with
  | nil =>
    cases within
    exact respell_other (renames.known found) []
  | cons name joins =>
    have joined := renames.respell_joined (Option.isSome_iff_exists.mpr ⟨owner, within⟩)
    rw [respell_append (cons_ne_nil name joins), joined]

theorem all_unchanged {es : List Expr}
    (levels : ∀ e ∈ es, e.level? (Names.of s) = some l) : es.map (Expr.mapPaths (respell old new)) = es :=
  (map_congr_left fun e mem => renames.unchanged (levels e mem)).trans (map_id es)

theorem entries : ∃ field before after,
    s.entries = before ++ ⟨old, field, false⟩ :: after ∧
      r.entries = before ++ ⟨new, field, false⟩ :: after ++ [⟨old, field, true⟩] ∧
      (∀ slot ∈ before ++ after, slot.name ≠ old ∧ slot.name ≠ new) ∧ ((before ++ after).map Slot.name).Nodup := by
  obtain ⟨field, visible⟩ := renames.visible
  obtain ⟨before, after, split⟩ := append_of_mem (List.mem_of_find?_eq_some (Slots.slot?_of_get? visible))
  have distinct : ((before ++ ⟨old, field, false⟩ :: after).map Slot.name).Nodup := split ▸ renames.base.distinct
  have others : ∀ slot ∈ before ++ after, slot.name ≠ old ∧ slot.name ≠ new := by
    intro slot mem
    constructor
    · intro same
      rw [map_append, map_cons, nodup_middle, nodup_cons, ← map_append] at distinct
      exact distinct.1 (mem_map.mpr ⟨slot, mem, same⟩)
    · have given : slot ∈ s.entries := by
        rw [split]
        exact mem_append.mpr ((mem_append.mp mem).imp_right (mem_cons_of_mem _))
      exact renames.known (Slots.lookup?_of_mem renames.base.distinct given)
  have stays : ∀ slots ⊆ before ++ after, slots.map (Slots.moved old new) = slots := fun slots inside =>
    (map_congr_left fun slot mem => Slots.moved_other (others slot (inside mem)).1).trans (map_id slots)
  refine ⟨field, before, after, split, ?_, others, ?_⟩
  · rw [renames.renamed, (Slots.rename_entries renames.base.distinct visible renames.free).1, split, map_append, map_cons,
      Slots.moved_self, stays before (subset_append_left _ _), stays after (subset_append_right _ _)]
  · rw [map_append, map_cons, nodup_middle, nodup_cons, ← map_append] at distinct
    exact distinct.2

end

end Renaming

namespace Plan

variable {old new : String} {s r : Namespace}

/-- Where an expression stands: at the root, where its paths are put differently, or behind joins, where it stays. -/
inductive Site (old new : String) (s r : Namespace) : List String → Namespace → (List String → List String) → Namespace → Prop where
  | root : Site old new s r [] r (respell old new) s
  | inner (nonempty : place ≠ []) (within : r.within? place = some ns) :
      Site old new s r place ns id ns

namespace Site

variable {place : List String} {ns ns' : Namespace} {g : List String → List String}

theorem within (site : Site old new s r place ns g ns') : r.within? place = some ns := by
  cases site with
  | root => rfl
  | inner _ within => exact within

theorem of_within (old new : String) (s : Namespace) (within : r.within? place = some ns) : ∃ g ns', Site old new s r place ns g ns' := by
  by_cases empty : place = []
  · subst empty
    cases within
    exact ⟨_, _, .root⟩
  · exact ⟨_, _, .inner empty within⟩

theorem append (site : Site old new s r place ns g ns') (path : List String) :
    respell old new place ++ g path = respell old new (place ++ path) := by
  cases site with
  | root => rfl
  | inner nonempty _ => rw [respell_append nonempty, id]

section

variable (renames : Renaming old new s r) (site : Site old new s r place ns g ns')

include renames site

theorem sound :
    FieldsSound ns ∧ FieldsSound ns' := by
  cases site with
  | root => exact ⟨renames.sound, renames.base⟩
  | inner _ within => exact ⟨renames.sound.within within, renames.sound.within within⟩

theorem base :
    s.within? (respell old new place) = some ns' := by
  cases site with
  | root => rfl
  | inner nonempty within => exact (renames.within nonempty).symm.trans within

theorem leveled (e : Expr) :
    (e.mapPaths g).level? (Names.of ns') = e.level? (Names.of ns) := by
  cases site with
  | root => exact Expr.level?_mapPaths renames.names e
  | inner => rw [Expr.mapPaths_id]

theorem definition
    (level : (Names.of ns).level path = some l) : ∃ joins owner d g' owner',
      definitionOf ns path = .ok (joins, owner, d) ∧ definitionOf ns' (g path) = .ok (g joins, owner', d.mapPaths g') ∧
      Site old new s r (place ++ joins) owner g' owner' ∧ d.level? (Names.of owner) = some l := by
  obtain ⟨joins, last, owner, d, rfl, within, _, defined, leveled⟩ := (site.sound renames).1.definition level
  cases site with
  | inner nonempty outer =>
    refine ⟨joins, owner, d, id, owner, defined, by rwa [Expr.mapPaths_id], .inner ?_ ?_, leveled⟩
    · exact append_ne_nil_of_left_ne_nil nonempty joins
    · rw [Namespace.within?_append, outer]
      exact within
  | root =>
    obtain ⟨last', x, split, _, found, rfl⟩ := Namespace.definitionOf_iff.mp defined
    cases (append_inj' split rfl).2
    by_cases direct : joins = []
    · subst direct
      cases within
      have defined' : definitionOf s (respell old new [last]) = .ok ([], s, x.expr) := by
        refine Namespace.definitionOf_iff.mpr ⟨_, x, rfl, rfl, ?_, rfl⟩
        rw [← renames.lookup]
        exact found
      have level' : (Names.of s).level (respell old new [last]) = some l := by rwa [renames.names.level]
      obtain ⟨_, _, _, _, _, _, _, same, leveled'⟩ := renames.base.definition level'
      cases defined'.symm.trans same
      exact ⟨[], r, x.expr, _, s, defined, by rwa [renames.unchanged leveled'], .root, leveled⟩
    · refine ⟨joins, owner, x.expr, id, owner, defined, ?_, .inner direct within, leveled⟩
      rw [Expr.mapPaths_id, respell_append direct]
      exact Namespace.definitionOf_iff.mpr ⟨last, x, rfl, (renames.within direct).symm.trans within, found, rfl⟩

end

theorem step (site : Site old new s r place ns g ns') (inner : Site old new s r (place ++ joins) owner g' owner')
    (rest : List String) : g joins ++ g' rest = g (joins ++ rest) := by
  refine (append_right_inj (respell old new place)).mp ?_
  rw [← List.append_assoc, site.append, site.append, inner.append, List.append_assoc]

section

variable (renames : Renaming old new s r) (site : Site old new s r place ns g ns')

include renames site

theorem join
    (found : ns.lookup? name = some (.join j)) :
    ∃ name', respell old new (place ++ [name]) = respell old new place ++ [name'] ∧
      ns'.lookup? name' = some (.join j) := by
  cases site with
  | root => exact ⟨_, rfl, (renames.lookup name).symm.trans found⟩
  | inner nonempty _ => exact ⟨name, respell_append nonempty _, found⟩

theorem unchanged {e : Expr}
    (level : e.level? (Names.of ns') = some l) : e.mapPaths g = e := by
  cases site with
  | root => exact renames.unchanged level
  | inner => exact Expr.mapPaths_id e

theorem key {key : String}
    (level : (Names.of ns').level [key] = some .scalar) : g [key] = [key] ∧ (Names.of ns).level [key] = some .scalar := by
  have leveled : (Expr.field [key]).level? (Names.of ns') = some .scalar := by rwa [Expr.level?]
  have same : g [key] = [key] := Expr.field.inj (site.unchanged renames leveled)
  refine ⟨same, ?_⟩
  cases site with
  | root => rwa [← renames.names.level, same]
  | inner => exact level

theorem condition
    (found : ns.lookup? name = some (.join j)) (is : j.correlation.condition? = some e) :
    e.level? (Names.of ns) = some .scalar ∧ e.mapPaths g = e := by
  have scalar {ns : Namespace} {name : String} (sound : FieldsSound ns) (found : ns.lookup? name = some (.join j)) :
      e.level? (Names.of ns) = some .scalar := (sound.joined found).2.condition is
  obtain ⟨name', _, found'⟩ := site.join renames found
  exact ⟨scalar (site.sound renames).1 found, site.unchanged renames (scalar (site.sound renames).2 found')⟩

end

end Site

section Visits

variable {place : List String} {ns ns' : Namespace} {g : List String → List String}

section

variable (renames : Renaming old new s r)

include renames

theorem visits_respelled {e : Expr} (visits : e.Visits ns visited) :
    ∀ {place ns' g} {l : SemanticLayer.Level}, Site old new s r place ns g ns' → e.level? (Names.of ns) = some l →
      (e.mapPaths g).Visits ns' (g visited) := by
  induction visits with
  | column =>
    intro place ns' g l site _
    cases site <;> exact .column
  | locality =>
    intro place ns' g l _ _
    exact .locality
  | field defined =>
    intro place ns' g l site level
    obtain ⟨joins, owner, d, g', owner', is, defined', _, _⟩ := site.definition renames level
    cases defined.symm.trans is
    exact .field defined'
  | definition defined _ ih =>
    intro place ns' g l site level
    obtain ⟨joins, owner, d, g', owner', is, defined', inner, leveled⟩ := site.definition renames level
    cases defined.symm.trans is
    rw [← site.step inner]
    exact .definition defined' (ih inner leveled)
  | @part ns p e rest mem _ ih =>
    intro place ns' g l site level
    obtain ⟨l', leveled, _⟩ := Expr.level_parts level p mem
    refine .part ?_ (ih site leveled)
    rw [Expr.parts_mapPaths]
    exact mem_map_of_mem mem

theorem visits_of_respelled (visits : e'.Visits ns' visited') :
    ∀ {place ns g} {e : Expr} {l : SemanticLayer.Level}, Site old new s r place ns g ns' →
      e.level? (Names.of ns) = some l → e.mapPaths g = e' → ∃ visited, e.Visits ns visited ∧ g visited = visited' := by
  induction visits with
  | column =>
    intro place ns g e l site _ is
    cases e <;> cases is
    exact ⟨[], .column, by cases site <;> rfl⟩
  | locality =>
    intro place ns g e l _ _ is
    cases e <;> cases is
    exact ⟨_, .locality, rfl⟩
  | field defined =>
    intro place ns g e l site level is
    cases e <;> cases is
    obtain ⟨joins, owner, d, g', owner', here, defined', _, _⟩ := site.definition renames level
    cases defined.symm.trans defined'
    exact ⟨joins, .field here, rfl⟩
  | definition defined _ ih =>
    intro place ns g e l site level is
    cases e <;> cases is
    obtain ⟨joins, owner, d, g', owner', here, defined', inner, leveled⟩ := site.definition renames level
    cases defined.symm.trans defined'
    obtain ⟨rest, visits, rfl⟩ := ih inner leveled rfl
    exact ⟨joins ++ rest, .definition here visits, (site.step inner rest).symm⟩
  | part mem _ ih =>
    intro place ns g e l site level is
    subst is
    rw [Expr.parts_mapPaths] at mem
    obtain ⟨p, given, rfl⟩ := mem_map.mp mem
    obtain ⟨l', leveled, _⟩ := Expr.level_parts level p given
    obtain ⟨visited, visits, same⟩ := ih site leveled rfl
    exact ⟨visited, .part given visits, same⟩

theorem onWay_respelled (site : Site old new s r place ns g ns')
    (level : e.level? (Names.of ns) = some l) :
    OnWay (respell old new place) ns' (e.mapPaths g) path ↔ ∃ q, OnWay place ns e q ∧ respell old new q = path := by
  constructor
  · rintro ⟨visited', visits', nonempty, starts⟩
    obtain ⟨visited, visits, rfl⟩ := visits_of_respelled renames visits' site level rfl
    rw [site.append] at starts
    obtain ⟨q, starts', rfl⟩ := starts_respell.mp starts
    exact ⟨q, ⟨visited, visits, fun empty => nonempty (respell_eq_nil.mpr empty), starts'⟩, rfl⟩
  · rintro ⟨q, ⟨visited, visits, nonempty, starts⟩, rfl⟩
    refine ⟨g visited, visits_respelled renames visits site level, fun empty => nonempty (respell_eq_nil.mp empty), ?_⟩
    rw [site.append]
    exact starts_respell.mpr ⟨q, starts, rfl⟩

theorem pulls_respelled {inner : Namespace} (nonempty : join ≠ [])
    (within : r.within? join = some inner) :
    Pulls s (respell old new join) path ↔ ∃ q, Pulls r join q ∧ respell old new q = path := by
  obtain ⟨place, name, parent, j, rfl, outer, found, rfl, _⟩ := Namespace.join_of_within nonempty within
  obtain ⟨g, parent', site⟩ := Site.of_within old new s outer
  obtain ⟨name', split, found'⟩ := site.join renames found
  have condition (path : List String) : (∃ e, j.correlation.condition? = some e ∧ OnWay (respell old new place) parent' e path) ↔
      ∃ q, (∃ e, j.correlation.condition? = some e ∧ OnWay place parent e q) ∧ respell old new q = path := by
    constructor
    · rintro ⟨e, is, way⟩
      obtain ⟨level, same⟩ := site.condition renames found is
      rw [← same, onWay_respelled renames site level] at way
      obtain ⟨q, way, rfl⟩ := way
      exact ⟨q, ⟨e, is, way⟩, rfl⟩
    · rintro ⟨q, ⟨e, is, way⟩, rfl⟩
      obtain ⟨level, same⟩ := site.condition renames found is
      refine ⟨e, is, ?_⟩
      rw [← same, onWay_respelled renames site level]
      exact ⟨q, way, rfl⟩
  have joined : Site old new s r (place ++ [name]) j.source.fields id j.source.fields := .inner nonempty within
  have filter (path : List String) : (∃ f ∈ j.source.filters, OnWay (respell old new (place ++ [name])) j.source.fields f.expr path) ↔
      ∃ q, (∃ f ∈ j.source.filters, OnWay (place ++ [name]) j.source.fields f.expr q) ∧ respell old new q = path := by
    cases ((renames.sound.within outer).joined found).1 with
    | mk _ _ _ _ rows _ =>
      constructor
      · rintro ⟨f, mem, way⟩
        rw [← Expr.mapPaths_id f.expr, onWay_respelled renames joined (rows f mem)] at way
        obtain ⟨q, way, rfl⟩ := way
        exact ⟨q, ⟨f, mem, way⟩, rfl⟩
      · rintro ⟨q, ⟨f, mem, way⟩, rfl⟩
        refine ⟨f, mem, ?_⟩
        rw [← Expr.mapPaths_id f.expr, onWay_respelled renames joined (rows f mem)]
        exact ⟨q, way, rfl⟩
  simp only [pulls_iff outer found, or_and_right, exists_or, ← condition, ← filter]
  rw [split, pulls_iff (site.base renames) found']

/-- What is needed in the fields as they were is what is needed now, by the names of then. -/
theorem needs_respelled (levels : ∀ e ∈ exprs, ∃ l, e.level? (Names.of r) = some l) :
    Needs s (exprs.map (Expr.mapPaths (respell old new))) path ↔ ∃ q, Needs r exprs q ∧ respell old new q = path := by
  constructor
  · intro needs
    induction needs with
    | read mem way =>
      obtain ⟨e, given, rfl⟩ := mem_map.mp mem
      obtain ⟨l, level⟩ := levels e given
      obtain ⟨q, way', rfl⟩ := (onWay_respelled renames .root level).mp way
      exact ⟨q, .read given way', rfl⟩
    | pulled _ pulls ih =>
      obtain ⟨join, needed, rfl⟩ := ih
      obtain ⟨nonempty, inner, within⟩ := pulls.joined
      have nonempty' : join ≠ [] := fun empty => nonempty (respell_eq_nil.mpr empty)
      obtain ⟨q, pulls', rfl⟩ := (pulls_respelled renames nonempty' ((renames.within nonempty').trans within)).mp pulls
      exact ⟨q, .pulled needed pulls', rfl⟩
  · rintro ⟨q, needs, rfl⟩
    induction needs with
    | read mem way =>
      obtain ⟨l, level⟩ := levels _ mem
      exact .read (mem_map_of_mem mem) ((onWay_respelled renames .root level).mpr ⟨_, way, rfl⟩)
    | pulled _ pulls ih =>
      obtain ⟨nonempty, inner, within⟩ := pulls.joined
      exact .pulled ih ((pulls_respelled renames nonempty within).mpr ⟨_, pulls, rfl⟩)

end

end Visits

def behind (old : String) (ns : Namespace) : List String :=
  ((ns.entries.dropWhile fun slot => slot.name != old).drop 1).map Slot.name

/-- The names that are not read where a renamed join is read under one of its names only. That is the old one; or it is
the new one, and then those of the joins that the old one has come to stand behind. -/
def unread (old new : String) (s : Namespace) : Bool → List String
  | true => [old]
  | false => new :: behind old s

theorem unread_behind (new : String) (entries : s.entries = before ++ ⟨old, field, false⟩ :: after)
    (first : ∀ slot ∈ before, slot.name ≠ old) : unread old new s false = new :: after.map Slot.name := by
  unfold unread behind
  rw [entries, dropWhile_append_of_pos fun slot mem => by simpa using first slot mem]
  simp

theorem unread_one (old new : String) (s : Namespace) (side : Bool) : old ∈ unread old new s side ∨ new ∈ unread old new s side := by
  cases side <;> simp [unread]

/-- The joins of a `SELECT` before and after a renaming, of which none starts with some of the names. -/
structure JoinTree.Renamed (old new : String) (names : List String) (s r : Namespace) (t t' : JoinTree) : Prop where
  root : t.root = r
  base : t'.root = s
  key : t'.key = t.key
  keyed : ∀ name ∈ t.key, (Names.of s).level [name] = some .scalar
  along : ∀ path ∈ t.used, path ≠ [] ∧ ∃ inner, r.within? path = some inner
  given : old ∈ names ∨ new ∈ names
  shown : ∀ path ∈ t.used, Shown names path
  used : ∀ path, path ∈ t'.used ↔ ∃ q ∈ t.used, respell old new q = path

section Listed

variable {names : List String} {used used' : JoinPaths}

theorem usedSlots_respelled (mem : ∀ {path}, Shown names path → (respell old new path ∈ used' ↔ path ∈ used))
    (nonempty : place ≠ []) (shown : Shown names place) (entries : List (Slot FieldDef)) :
    usedSlots used' (respell old new place) entries = (usedSlots used place entries).map (respell old new) := by
  refine usedSlots_induction (P := fun place entries paths => place ≠ [] → Shown names place →
    usedSlots used' (respell old new place) entries = paths.map (respell old new)) ?_ ?_ ?_ place entries nonempty shown
  · intro place _ _
    rw [usedSlots, map_nil]
  · intro place slot rest paths unused later nonempty shown
    rw [usedSlots_skip, later nonempty shown]
    rw [← respell_append nonempty, mem ((shown_append nonempty _).mpr shown)]
    exact unused
  · intro place slot j rest inner paths is here below later nonempty shown
    have shown' := (shown_append nonempty [slot.name]).mpr shown
    rw [usedSlots_join is (by rwa [← respell_append nonempty, mem shown']), later nonempty shown,
      ← respell_append nonempty, below (by simp) shown', map_append, map_cons]

theorem usedField_respelled (mem : ∀ {path}, Shown names path → (respell old new path ∈ used' ↔ path ∈ used))
    (shown : Shown names path) (nonempty : path ≠ []) (field : FieldDef) :
    usedField used' (respell old new path) field = (usedField used path field).map (respell old new) := by
  cases field with
  | join j =>
    obtain ⟨_, _, ⟨_, _, ⟨entries⟩, _, _, _⟩, _, _⟩ := j
    have below := usedSlots_respelled mem nonempty shown entries
    by_cases isUsed : path ∈ used <;> simp [usedField, usedJoin, usedSource, mem shown, isUsed, below]
  | _ => simp [usedField]

end Listed

theorem usedSlots_cons (used : JoinPaths) (place : List String) (slot : Slot FieldDef) (rest : List (Slot FieldDef)) :
    usedSlots used place (slot :: rest) = usedField used (place ++ [slot.name]) slot.field ++ usedSlots used place rest := by
  rw [usedSlots]

theorem usedSlots_append (used : JoinPaths) (place : List String) (first second : List (Slot FieldDef)) :
    usedSlots used place (first ++ second) = usedSlots used place first ++ usedSlots used place second := by
  induction first with
  | nil => rw [nil_append, usedSlots, nil_append]
  | cons slot rest ih => rw [cons_append, usedSlots_cons, usedSlots_cons, ih, List.append_assoc]

theorem usedField_unused (absent : path ∉ used) (field : FieldDef) : usedField used path field = [] := by
  cases field with
  | join j => rw [usedField, if_neg fun is => absent (contains_iff_mem.mp is)]
  | dimension | measure | view | nested => rw [usedField]; intro j is; cases is

/-- Rows are repeated by a join that is not on the way and has many rows for one. -/
theorem fansOut_iff {t : JoinTree} : t.fansOut path = true ↔
    ∃ u ∈ t.used, ¬u <+: path ∧ ∃ j, t.join u = .ok j ∧ j.relationship.isMany = true := by
  unfold JoinTree.fansOut
  rw [any_eq_true]
  refine exists_congr fun u => and_congr_right fun _ => ?_
  rw [Bool.and_eq_true, Bool.not_eq_true', ← Bool.not_eq_true]
  cases t.join u <;> simp

namespace JoinTree.Renamed

variable {names : List String} {t t' : JoinTree}

theorem mem (tree : t.Renamed old new names s r t') (shown : Shown names path) :
    respell old new path ∈ t'.used ↔ path ∈ t.used := by
  rw [tree.used]
  constructor
  · rintro ⟨q, mem, same⟩
    rwa [← (respell_inj tree.given (tree.shown q mem) shown).mp same]
  · intro mem
    exact ⟨path, mem, rfl⟩

section

variable (renames : Renaming old new s r) (tree : t.Renamed old new names s r t')

include renames tree

theorem join {inner : Namespace}
    (nonempty : path ≠ []) (within : r.within? path = some inner) :
    ∃ j, t.join path = .ok j ∧ t'.join (respell old new path) = .ok j ∧ j.source.fields = inner := by
  obtain ⟨place, name, parent, j, rfl, outer, found, rfl, joined⟩ := Namespace.join_of_within nonempty within
  obtain ⟨g, parent', site⟩ := Site.of_within old new s outer
  obtain ⟨name', split, found'⟩ := site.join renames found
  refine ⟨j, ?_, ?_, rfl⟩
  · rw [JoinTree.join, tree.root]
    exact joined []
  · rw [JoinTree.join, tree.base, split]
    exact Namespace.joinFrom_of_within found' _ [] s (site.base renames)

theorem fieldsAt
    (site : Site old new s r place ns g ns') :
    t.fieldsAt place = .ok ns ∧ t'.fieldsAt (respell old new place) = .ok ns' := by
  unfold JoinTree.fieldsAt
  cases site with
  | root => exact ⟨congrArg Except.ok tree.root, congrArg Except.ok tree.base⟩
  | inner nonempty within =>
    obtain ⟨j, found, found', rfl⟩ := tree.join renames nonempty within
    rw [if_neg (by simpa using nonempty), if_neg (by simpa using nonempty), found, found']
    exact ⟨rfl, rfl⟩

theorem keyAt
    (site : Site old new s r place ns g ns') :
    ∃ key, t.keyAt place = .ok key ∧ t'.keyAt (respell old new place) = .ok key ∧
      ∀ name ∈ key, (Names.of ns').level [name] = some .scalar := by
  unfold JoinTree.keyAt
  cases site with
  | root => exact ⟨t.key, rfl, congrArg Except.ok tree.key, tree.keyed⟩
  | inner nonempty within =>
    obtain ⟨place, name, parent, j, rfl, outer, found, rfl, _⟩ := Namespace.join_of_within nonempty within
    obtain ⟨j', isJoin, isJoin', _⟩ := tree.join renames nonempty within
    have same : t.join (place ++ [name]) = .ok j := by
      rw [JoinTree.join, tree.root]
      exact Namespace.joinFrom_of_within found place [] r outer
    cases isJoin.symm.trans same
    rw [if_neg (by simp), if_neg (by simp), isJoin, isJoin']
    refine ⟨j.source.primaryKey, rfl, rfl, ?_⟩
    cases ((renames.sound.within outer).joined found).1 with
    | mk _ _ _ key _ _ => exact key

theorem fansOut (shown : Shown names path) :
    t'.fansOut (respell old new path) = t.fansOut path := by
  rw [Bool.eq_iff_iff, fansOut_iff, fansOut_iff]
  constructor
  · rintro ⟨u', mem', beside, j, found', many⟩
    obtain ⟨u, mem, rfl⟩ := (tree.used u').mp mem'
    obtain ⟨nonempty, inner, within⟩ := tree.along u mem
    obtain ⟨k, found, same, _⟩ := tree.join renames nonempty within
    cases found'.symm.trans same
    exact ⟨u, mem, fun starts => beside ((respell_starts tree.given (tree.shown u mem) shown).mpr starts), j, found, many⟩
  · rintro ⟨u, mem, beside, j, found, many⟩
    obtain ⟨nonempty, inner, within⟩ := tree.along u mem
    obtain ⟨k, same, found', _⟩ := tree.join renames nonempty within
    cases found.symm.trans same
    exact ⟨_, (tree.used _).mpr ⟨u, mem, rfl⟩,
      fun starts => beside ((respell_starts tree.given (tree.shown u mem) shown).mp starts), j, found', many⟩

end

section

variable (tree : t.Renamed old new names s r t')

include tree

theorem usedField_read (read : name ∉ names) (field : FieldDef) :
    usedField t'.used (respell old new [name]) field = (usedField t.used [name] field).map (respell old new) :=
  usedField_respelled tree.mem (shown_cons.mpr read) (cons_ne_nil _ _) field

theorem usedField_unread (unread : name ∈ names) (field : FieldDef) :
    usedField t.used [name] field = [] :=
  usedField_unused (fun mem => shown_cons.mp (tree.shown _ mem) unread) field

theorem usedSlots_read
    (each : ∀ slot ∈ slots, slot.name ≠ new ∧ slot.name ∉ names) :
    usedSlots t'.used [] slots = (usedSlots t.used [] slots).map (respell old new) := by
  induction slots with
  | nil => rfl
  | cons slot rest ih =>
    obtain ⟨⟨other, read⟩, each⟩ := forall_mem_cons.mp each
    have here := tree.usedField_read read slot.field
    rw [respell_other other] at here
    rw [usedSlots_cons, usedSlots_cons, map_append, ih each]
    exact congrArg (· ++ _) here

theorem usedSlots_unread
    (each : ∀ slot ∈ slots, slot.name ≠ old ∧ slot.name ∈ names) :
    usedSlots t.used [] slots = [] ∧ usedSlots t'.used [] slots = [] := by
  induction slots with
  | nil => exact ⟨rfl, rfl⟩
  | cons slot rest ih =>
    obtain ⟨⟨other, unread⟩, each⟩ := forall_mem_cons.mp each
    have absent : [slot.name] ∉ t'.used := by
      intro mem
      obtain ⟨path, isUsed, same⟩ := (tree.used _).mp mem
      have shown := tree.shown path isUsed
      cases path with
      | nil => cases same
      | cons name path =>
        rw [shown_cons] at shown
        rw [respell] at same
        grind
    rw [usedSlots_cons, usedSlots_cons, nil_append, tree.usedField_unread unread, usedField_unused absent]
    exact ih each

end

theorem ordered (renames : Renaming old new s r) (tree : t.Renamed old new (unread old new s side) s r t') :
    t'.ordered = t.ordered.map (respell old new) := by
  obtain ⟨field, before, after, entries, entries', others, distinct⟩ := renames.entries
  have known : old ≠ new := by
    obtain ⟨field, visible⟩ := renames.visible
    exact renames.known (Slots.lookup?_of_get? visible)
  unfold JoinTree.ordered
  rw [tree.root, tree.base, entries, entries']
  simp only [usedSlots_append, nil_append, usedSlots]
  cases side with
  | true =>
    -- nothing is read under the old name, and what is read under the new one stands where the old one stood
    have read (slot : Slot FieldDef) (mem : slot ∈ before ++ after) : slot.name ≠ new ∧ slot.name ∉ unread old new s true :=
      ⟨(others slot mem).2, by simpa [unread] using (others slot mem).1⟩
    have isRead : new ∉ unread old new s true := by simpa [unread] using known.symm
    have here := tree.usedField_read isRead field
    rw [respell_new] at here
    rw [tree.usedSlots_read fun slot mem => read slot (mem_append_left _ mem), here,
      tree.usedSlots_read fun slot mem => read slot (mem_append_right _ mem), tree.usedField_unread (mem_cons_self : old ∈ [old])]
    simp
  | false =>
    -- nothing is read under the new name, nor behind it, so the last field is the one that stood there
    have isUnread := unread_behind new entries fun slot mem => (others slot (mem_append_left _ mem)).1
    rw [isUnread] at tree
    rw [map_append, nodup_append] at distinct
    have isRead : old ∉ new :: after.map Slot.name := by
      simp only [mem_cons, mem_map, not_or, not_exists, not_and]
      exact ⟨known, fun slot mem => (others slot (mem_append_right _ mem)).1⟩
    have here := tree.usedField_read isRead field
    rw [respell_other known] at here
    obtain ⟨none, none'⟩ := tree.usedSlots_unread fun slot (mem : slot ∈ after) =>
      ⟨(others slot (mem_append_right _ mem)).1, mem_cons_of_mem _ (mem_map_of_mem mem)⟩
    have first : ∀ slot ∈ before, slot.name ≠ new ∧ slot.name ∉ new :: after.map Slot.name := by
      intro slot mem
      have other := (others slot (mem_append_left _ mem)).2
      refine ⟨other, fun given => ?_⟩
      rcases mem_cons.mp given with same | given
      · exact other same
      · exact distinct.2.2 _ (mem_map_of_mem mem) _ given rfl
    rw [tree.usedSlots_read first, here, none, none', tree.usedField_unread mem_cons_self]
    simp

end JoinTree.Renamed

/-- An expression over renamed fields that needs no join that starts with some of the names. -/
structure Clear (names : List String) (r : Namespace) (e : Expr) : Prop where
  level : ∃ l, e.level? (Names.of r) = some l
  shown : ∀ {path}, Needs r [e] path → Shown names path

theorem needs_one (needs : Needs root exprs path) : ∃ e ∈ exprs, Needs root [e] path := by
  induction needs with
  | read mem way => exact ⟨_, mem, .read mem_cons_self way⟩
  | pulled _ pulls ih =>
    obtain ⟨e, mem, needs⟩ := ih
    exact ⟨e, mem, .pulled needs pulls⟩

theorem treeFor_renamed {input : Input} (renames : Renaming old new input'.fields input.fields)
    (sound' : InputSound input') (key : input'.key = input.key) (filters : input'.filters = input.filters)
    (given : old ∈ names ∨ new ∈ names) (clear : ∀ e ∈ input.filters ++ exprs, Clear names input.fields e) :
    ∃ t t', treeFor input exprs = .ok t ∧ treeFor input' (exprs.map (Expr.mapPaths (respell old new))) = .ok t' ∧
      t.Renamed old new names input'.fields input.fields t' := by
  have level (e : Expr) := Expr.level?_mapPaths renames.names e
  have stays := renames.all_unchanged sound'.filters
  have all : input'.filters ++ exprs.map (Expr.mapPaths (respell old new)) =
      (input.filters ++ exprs).map (Expr.mapPaths (respell old new)) := by rw [map_append, ← filters, stays]
  have sound : InputSound input := by
    refine ⟨renames.sound, fun name mem => ?_, fun e mem => ?_⟩
    · exact (Site.root.key renames (sound'.key name (key ▸ mem))).2
    · rw [← level, renames.unchanged (sound'.filters e (filters ▸ mem))]
      exact sound'.filters e (filters ▸ mem)
  have levels' : ∀ e' ∈ input'.filters ++ exprs.map (Expr.mapPaths (respell old new)),
      ∃ l, e'.level? (Names.of input'.fields) = some l := by
    intro e' mem
    rw [all] at mem
    obtain ⟨e, given, rfl⟩ := mem_map.mp mem
    obtain ⟨l, leveled⟩ := (clear e given).level
    exact ⟨l, (level e).trans leveled⟩
  obtain ⟨t, isTree, spans, used⟩ := treeFor_needs sound fun e mem => (clear e (mem_append_right _ mem)).level
  obtain ⟨t', isTree', spans', used'⟩ := treeFor_needs sound' fun e' mem => levels' e' (mem_append_right _ mem)
  refine ⟨t, t', isTree, isTree', spans.root_eq, spans'.root_eq, ?_, ?_, fun path mem => ?_, given, fun path mem => ?_, fun path => ?_⟩
  · rw [spans'.key_eq, key, spans.key_eq]
  · rw [spans.key_eq, ← key]
    exact sound'.key
  · obtain ⟨nonempty, inner, placed⟩ := spans.along path mem
    exact ⟨nonempty, inner, placed.within⟩
  · obtain ⟨e, given, needs⟩ := needs_one ((used path).mp mem)
    exact (clear e given).shown needs
  · rw [used', all, needs_respelled renames fun e mem => (clear e mem).level]
    simp only [used]

end Plan

end SemanticLayer
