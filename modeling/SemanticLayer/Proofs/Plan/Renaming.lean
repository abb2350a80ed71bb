import SemanticLayer.Proofs.Plan.Alike
import SemanticLayer.Proofs.Plan.Fuel
import SemanticLayer.Proofs.Plan.Renames

/-!
Renaming is transparent.
-/
namespace SemanticLayer.Plan

open List

/-- How statements over renamed fields may be spelled: a joined relation is labelled by the path to it, and widened
aggregates keep their labels. -/
def renamedSpelling (old new : String) (r : Namespace) : Sql.Spelling where
  labels a b := (∃ path inner, r.within? path = some inner ∧ a = aliasOf path ∧ b = aliasOf (respell old new path)) ∨
    (a = b ∧ ∃ i : Nat, a = s!"__u{i}")
  fields a b := ∃ path, a = dotted path ∧ b = dotted (respell old new path)

structure UngroupFrame.Alike (ρ : Sql.Spelling) (x y : UngroupFrame) : Prop where
  dimensions : List.Forall₂ (NamedAlike ρ) x.dimensions y.dimensions
  parents : List.Forall₂ (Sql.Expr.Alike ρ.labels) x.parents y.parents

theorem filter_named (keep : String → Bool) (alike : List.Forall₂ (NamedAlike ρ) xs ys) :
    List.Forall₂ (Sql.Expr.Alike ρ.labels)
      ((xs.filter fun x => keep x.1).map Prod.snd) ((ys.filter fun x => keep x.1).map Prod.snd) := by
  induction alike with
  | nil => exact .nil
  | cons first _ ih =>
    rw [filter_cons, filter_cons, first.1]
    split
    · exact .cons first.2 ih
    · exact ih

theorem partitionOf_alike (alike : x.Alike ρ y) (kind : UngroupKind) (fields : List String) :
    List.Forall₂ (Sql.Expr.Alike ρ.labels) (partitionOf x kind fields) (partitionOf y kind fields) := by
  refine rel_append alike.parents ?_
  cases kind with
  | all => exact filter_named (fields.contains ·) alike.dimensions
  | exclude => exact filter_named (fun name => !fields.contains name) alike.dimensions

theorem any_named (alike : List.Forall₂ (NamedAlike ρ) xs ys) (name : String) :
    (ys.any fun (d, _) => d == name) = xs.any fun (d, _) => d == name := by
  induction alike with
  | nil => rfl
  | @cons a b _ _ first _ ih =>
    rw [any_cons, ih]
    exact congrArg (fun d => d == name || _) first.1

structure Compilation.Renamed (old new : String) (names : List String) (r : Namespace) (c c' : Compilation) : Prop where
  keyed : ∀ {path}, Shown names path → (respell old new path ∈ c'.keyed ↔ path ∈ c.keyed)
  filters : List.Forall₂ (Sql.Expr.Alike (renamedSpelling old new r).labels) c.filters c'.filters
  frame : Option.Rel (UngroupFrame.Alike (renamedSpelling old new r)) c.frame c'.frame
  ungroups : List.Forall₂ (Ungroup.Alike (renamedSpelling old new r)) c.ungroups c'.ungroups

section Compile

variable {old new : String} {names : List String} {s r : Namespace} {t t' : Target} {follow follow' : CompileAt} {place : List String}
  {ns ns' : Namespace} {g : List String → List String}

abbrev InStep (old new : String) (names : List String) (r : Namespace) (x y : CompileM Sql.Expr) : Prop :=
  Lockstep (Compilation.Renamed old new names r) (Sql.Expr.Alike (renamedSpelling old new r).labels) x y

theorem Site.label (site : Site old new s r place ns g ns') :
    (renamedSpelling old new r).labels (aliasOf place) (aliasOf (respell old new place)) :=
  .inl ⟨place, ns, site.within, rfl, rfl⟩

/-- Following definitions in lockstep. Joins have to be told apart only where rows are aggregated. -/
def Keeps (old new : String) (names : List String) (s r : Namespace) (follow follow' : CompileAt) : Prop :=
  ∀ {place ns g ns'} {e : Expr} {l : SemanticLayer.Level}, Site old new s r place ns g ns' → e.level? (Names.of ns) = some l →
    (l = .aggregate → ∀ visited, e.Visits ns visited → Shown names (place ++ visited)) →
    InStep old new names r (follow place ns e) (follow' (respell old new place) ns' (e.mapPaths g))

theorem compileField_inStep (renames : Renaming old new s r) (keeps : Keeps old new names s r follow follow')
    (site : Site old new s r place ns g ns') (level : (Names.of ns).level path = some l)
    (shown : l = .aggregate → ∀ visited, (Expr.field path).Visits ns visited → Shown names (place ++ visited)) :
    InStep old new names r (compileField follow place ns path) (compileField follow' (respell old new place) ns' (g path)) := by
  obtain ⟨joins, owner, d, g', owner', defined, defined', inner, leveled⟩ := site.definition renames level
  have both := keeps inner leveled fun isAggregate visited visits => by
    rw [List.append_assoc]
    exact shown isAggregate _ (.definition defined visits)
  unfold compileField
  rw [defined, defined', ← site.append] at *
  exact both

theorem distinctKey_inStep (renames : Renaming old new s r) (tree : t.tree.Renamed old new names s r t'.tree)
    (keeps : Keeps old new names s r follow follow') (site : Site old new s r place ns g ns') (shown : Shown names place) :
    InStep old new names r (distinctKey t follow place) (distinctKey t' follow' (respell old new place)) := by
  obtain ⟨key, isKey, isKey', keyed⟩ := tree.keyAt renames site
  obtain ⟨found, found'⟩ := tree.fieldsAt renames site
  unfold distinctKey
  rw [isKey, isKey']
  cases key with
  | none =>
    rw [ofExcept_ok_bind, ofExcept_ok_bind]
    refine .bind (.modify fun c c' states => { states with keyed := fun {path} other => ?_ }) fun _ _ _ => .pure ?_
    · simp only [JoinPaths.mem_insert, states.keyed other, respell_inj tree.given other shown]
    · simp [Sql.Expr.Alike, Sql.Expr.ofTable, site.label]
  | some key =>
    obtain ⟨same, level⟩ := site.key renames (keyed key rfl)
    have both := compileField_inStep renames keeps site level (fun is => by cases is)
    rw [same] at both
    rw [found, found']
    exact both

theorem compileAggregate_inStep (renames : Renaming old new s r) (tree : t.tree.Renamed old new names s r t'.tree)
    (dialect : t'.dialect = t.dialect) (keeps : Keeps old new names s r follow follow')
    (site : Site old new s r place ns g ns') (shown : Shown names place) (argued : arg.isSome = true ∨ function = .count)
    (alike : Option.Rel (Sql.Expr.Alike (renamedSpelling old new r).labels) arg arg') :
    InStep old new names r (compileAggregate t follow function place arg)
      (compileAggregate t' follow' function (respell old new place) arg') :=
  compileAggregate_lockstep (distinctKey_inStep renames tree keeps site shown)
    (fun states => Sql.Expr.guards_related (Sql.Expr.related_allOf states.filters) fun alike => by
      simp [Sql.Expr.Alike, Sql.alikeList_iff, alike]) dialect (tree.fansOut renames shown)
    (by cases place <;> rfl) argued alike

theorem compileUngroup_inStep (kind : UngroupKind) (fields : List String) (both : InStep old new names r x y) :
    InStep old new names r (compileUngroup kind fields x) (compileUngroup kind fields y) := by
  refine .bind .get fun c c' states => ?_
  have frames := states.frame
  generalize c.frame = frame, c'.frame = frame' at frames
  cases frames with
  | none => exact .throw
  | @some frame frame' alike =>
    simp only [any_named alike.dimensions]
    split
    · exact .throw
    · have inner := both.withoutFrame (fun states => { states with frame := .none })
        fun before after => { after with frame := before.frame }
      refine inner.bind fun value value' alikeValue => ?_
      refine .bind .get fun d d' states => ?_
      rw [states.ungroups.length_eq]
      have label (i : Nat) : (renamedSpelling old new r).labels s!"__u{i}" s!"__u{i}" := .inr ⟨rfl, i, rfl⟩
      refine .bind (.modify fun c c' states => { states with
        ungroups := rel_append states.ungroups (.cons ⟨rfl, label _, partitionOf_alike alike kind fields, alikeValue⟩ .nil) })
        fun _ _ _ => .pure ?_
      simpa [Sql.Expr.Alike, Sql.AlikeList, Sql.Expr.fn, Sql.Expr.ofTable] using label _

theorem assemble_mapPaths (e : Expr) (xs : List Sql.Expr) : assemble d place (e.mapPaths g) xs = assemble d place e xs := by
  rcases xs with _ | ⟨x, _ | ⟨y, _ | ⟨z, rest⟩⟩⟩ <;> cases e <;> rfl

theorem isOperator_mapPaths (e : Expr) : isOperator (e.mapPaths g) = isOperator e := by cases e <;> rfl

section

variable (renames : Renaming old new s r) (tree : t.tree.Renamed old new names s r t'.tree) (dialect : t'.dialect = t.dialect)

include renames tree dialect

theorem compile_inStep (keeps : Keeps old new names s r follow follow')
    (site : Site old new s r place ns g ns') (level : e.level? (Names.of ns) = some l)
    (shown : l = .aggregate → ∀ visited, e.Visits ns visited → Shown names (place ++ visited)) :
    InStep old new names r (compile t follow place ns e) (compile t' follow' (respell old new place) ns' (e.mapPaths g)) := by
  induction e using Expr.parts_induction generalizing l with
  | step e ih =>
    have parts : ∀ p ∈ e.parts, InStep old new names r (compile t follow place ns p)
        (compile t' follow' (respell old new place) ns' (p.mapPaths g)) := by
      intro p mem
      obtain ⟨l', leveled, scalar⟩ := Expr.level_parts level p mem
      refine ih p mem leveled fun isAggregate visited visits => shown ?_ visited (.part mem visits)
      cases l with
      | aggregate => rfl
      | scalar => cases (scalar rfl).symm.trans isAggregate
    cases operator : isOperator e with
    | true =>
      rw [compile_operator operator, compile_operator ((isOperator_mapPaths e).trans operator), Expr.parts_mapPaths, dialect]
      refine .bind (.mapM_map parts) fun xs xs' alike => .ofDialect ?_
      rw [assemble_mapPaths]
      exact assemble_agree _ (fun name _ => by simp [Sql.Expr.Alike, Sql.Expr.ofTable, site.label])
        (fun text _ => by simp [Sql.Expr.Alike]) alike
    | false =>
      cases e with
      | field path =>
        exact compileField_inStep renames keeps site level shown
      | aggregate function locality arg =>
        obtain ⟨rfl, joined, argued, _⟩ := Expr.aggregate_level level
        obtain ⟨inner, within⟩ := Option.isSome_iff_exists.mp joined
        have placed : r.within? (place ++ locality) = some inner := by
          rw [Namespace.within?_append, site.within]
          exact within
        obtain ⟨g', inner', there⟩ := Site.of_within old new s placed
        rw [compile, Expr.mapPaths, compile, site.append]
        refine option_lockstep ?_ fun given alike =>
          compileAggregate_inStep renames tree dialect keeps there (shown rfl _ .locality) (by rwa [given]) alike
        cases arg with
        | none => exact .none
        | some a => exact .some (parts a mem_cons_self)
      | filtered a condition =>
        refine (parts condition (by simp [Expr.parts])).bind fun holds holds' alike => ?_
        exact (parts a (by simp [Expr.parts])).withFilter
          (fun states => { states with filters := rel_append states.filters (.cons alike .nil) })
          fun before after => { after with filters := before.filters }
      | ungroup kind a fields =>
        exact compileUngroup_inStep kind fields (parts a (by simp [Expr.parts]))
      | _ => cases operator

theorem compileWithin_keeps : ∀ fuel, Keeps old new names s r (t.compileWithin fuel) (t'.compileWithin fuel)
  | 0 => fun _ _ _ => .throw
  | fuel + 1 => fun site level shown => by
    exact compile_inStep renames tree dialect (compileWithin_keeps fuel) site level shown

theorem compileAt_inStep (site : Site old new s r place ns g ns')
    (level : e.level? (Names.of ns) = some l)
    (shown : l = .aggregate → ∀ visited, e.Visits ns visited → Shown names (place ++ visited)) :
    InStep old new names r (t.compileAt place ns e) (t'.compileAt (respell old new place) ns' (e.mapPaths g)) := by
  have both := compileWithin_keeps renames tree dialect (t.depth + t'.depth) site level shown
  have ends := t.compileAt_ends (tree.root ▸ renames.sound) (fun name mem => by
    rw [tree.root]
    exact (Site.root.key renames (tree.keyed name mem)).2) (tree.root ▸ site.within) level (t.compileWithin t'.depth)
  have ends' := t'.compileAt_ends (tree.base ▸ renames.base) (by rw [tree.base, tree.key]; exact tree.keyed)
    (tree.base ▸ site.base renames) ((site.leveled renames e).trans level) (t'.compileWithin t.depth)
  rw [← Target.compileWithin_add] at ends ends'
  rw [Nat.add_comm] at ends'
  rwa [ends, ends'] at both

theorem joinConditions_lockstep (site : Site old new s r place ns g ns')
    (found : ns.lookup? name = some (.join j)) :
    Lockstep (Compilation.Renamed old new names r) (List.Forall₂ (Sql.Expr.Alike (renamedSpelling old new r).labels))
      (joinConditions t (place ++ [name]) j) (joinConditions t' (respell old new (place ++ [name])) j) := by
  obtain ⟨fields, fields'⟩ := tree.fieldsAt renames site
  have inner : r.within? (place ++ [name]) = some j.source.fields := Namespace.within?_join site.within found
  have there : Site old new s r (place ++ [name]) j.source.fields id j.source.fields := .inner (by simp) inner
  have outside {e : Expr} (is : j.correlation.condition? = some e) :
      InStep old new names r (t.compileAt place ns e) (t'.compileAt (respell old new place) ns' e) := by
    obtain ⟨level, same⟩ := site.condition renames found is
    have both := compileAt_inStep renames tree dialect site level fun is => by cases is
    rwa [same] at both
  have inside {e : Expr} (level : e.level? (Names.of j.source.fields) = some .scalar) : InStep old new names r
      (t.compileAt (place ++ [name]) j.source.fields e)
      (t'.compileAt (respell old new (place ++ [name])) j.source.fields e) := by
    have both := compileAt_inStep renames tree dialect there level fun is => by cases is
    rwa [Expr.mapPaths_id] at both
  cases ((site.sound renames).1.joined found).1 with
  | mk _ _ _ key rows _ =>
    have filters := Lockstep.mapM (forall₂_same.mpr fun f mem => inside (rows f mem)) fun _ _ both => both
    have rest (conditions conditions' : List Sql.Expr)
        (alike : List.Forall₂ (Sql.Expr.Alike (renamedSpelling old new r).labels) conditions conditions') :=
      filters.bind fun xs xs' rest => .pure (rel_append alike rest)
    unfold joinConditions
    rw [respell_dropLast, dropLast_concat]
    dsimp only
    rw [fields, fields', ofExcept_ok_bind, ofExcept_ok_bind]
    cases is : j.correlation with
    | key e =>
      cases isKey : j.source.primaryKey with
      | none => exact .bind .throw rest
      | some name =>
        refine (outside (by rw [is]; rfl)).bind fun left left' first => ?_
        refine (inside (by rw [Expr.level?]; exact key name isKey)).bind fun right right' second => ?_
        exact .bind (.pure (.cons (Sql.Expr.related_operation .eq first second) .nil)) rest
    | on e => exact (outside (by rw [is]; rfl)).bind fun _ _ first => .bind (.pure (.cons first .nil)) rest
    | free => exact .bind (.pure .nil) rest

end

end Compile

section Inputs

variable {old new : String} {s r : Namespace}

/-- What is written over renamed fields, in the words of the fields as they were. -/
def renamedWording (old new : String) (names : List String) (r : Namespace) : Wording :=
  ⟨renamedSpelling old new r, respell old new, Clear names r⟩

variable {t t' : Target}

section

variable (renames : Renaming old new s r) (tree : t.tree.Renamed old new names s r t'.tree) (dialect : t'.dialect = t.dialect)

include renames tree dialect

theorem joins_renamed (isUsed : path ∈ t.tree.used) :
    (renamedWording old new names r).Joins (Compilation.Renamed old new names r) t t' path (respell old new path) := by
  obtain ⟨nonempty, inner, within⟩ := tree.along path isUsed
  obtain ⟨j, isJoin, isJoin', _⟩ := tree.join renames nonempty within
  refine ⟨isJoin'.trans isJoin.symm, .inl ⟨path, inner, within, rfl, rfl⟩, fun states => ?_, fun {k} is => ?_⟩
  · rw [Bool.eq_iff_iff, contains_iff_mem, contains_iff_mem]
    exact states.keyed (tree.shown path isUsed)
  · obtain ⟨place, name, parent, rfl, outer, found⟩ := joinFrom_inv is
    rw [tree.root] at outer
    obtain ⟨g, parent', site⟩ := Site.of_within old new s outer
    exact joinConditions_lockstep renames tree dialect site found

theorem compileRoot_inStep (clear : Clear names r e) :
    InStep old new names r (t.compileRoot e) (t'.compileRoot (e.mapPaths (respell old new))) := by
  obtain ⟨l, level⟩ := clear.level
  unfold Target.compileRoot
  rw [tree.root, tree.base]
  refine compileAt_inStep renames tree dialect .root level fun _ visited visits => ?_
  by_cases empty : visited = []
  · subst empty
    exact shown_nil names
  · exact clear.shown (.read mem_cons_self ⟨visited, visits, empty, prefix_rfl⟩)

end

theorem targets_renamed (renames : Renaming old new s r)
    (tree : t.tree.Renamed old new (unread old new s side) s r t'.tree) (dialect : t'.dialect = t.dialect) :
    (renamedWording old new (unread old new s side) r).Targets (Compilation.Renamed old new (unread old new s side) r) t t' where
  start := ⟨by simp [Compilation.empty], .nil, .none, .nil⟩
  root clear := compileRoot_inStep renames tree dialect clear
  joins := by
    rw [tree.ordered renames]
    exact forall₂_map_right_iff.mpr (forall₂_same.mpr fun path mem =>
      joins_renamed renames tree dialect (t.tree.ordered_used mem))
  base := .inl ⟨[], r, rfl, rfl, rfl⟩
  keyed states := by
    rw [Bool.eq_iff_iff, contains_iff_mem, contains_iff_mem]
    exact states.keyed (shown_nil _)
  framed states dimensions keys := { states with frame := .some ⟨dimensions, keys⟩ }
  ungroups states := states.ungroups

theorem inputs_renamed (d : Dialect) (input input' : Input) (renames : Renaming old new input'.fields input.fields)
    (sound' : InputSound input') (relation : input'.relation = input.relation) (key : input'.key = input.key)
    (filters : input'.filters = input.filters)
    (clear : ∀ e ∈ input.filters, Clear (unread old new input'.fields side) input.fields e) :
    (renamedWording old new (unread old new input'.fields side) input.fields).Inputs d input input' where
  relation := relation
  filters := by
    rw [← filters]
    exact (renames.all_unchanged sound'.filters).symm
  has := clear
  root := rfl
  indexed path := ⟨path, rfl, rfl⟩
  trees {exprs} clears := by
    obtain ⟨t, t', isTree, isTree', tree⟩ := treeFor_renamed renames sound' key filters (unread_one old new input'.fields side)
      (forall_mem_append.mpr ⟨clear, clears⟩)
    rw [isTree]
    refine isTree' ▸ .ok ⟨_, targets_renamed renames tree rfl⟩

end Inputs

end SemanticLayer.Plan
