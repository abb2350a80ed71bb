import SemanticLayer.Proofs.Plan.Emission

/-!
Which joins a `SELECT` reads, told without the rounds in which they are found: those that its expressions lead
along, and with every join those that its condition and the filters of its source lead along. There are enough
rounds to find all of them, since every round but the last finds a new one.
-/
namespace SemanticLayer

open List

namespace Plan

/-- The joins that a join leads along, by its condition and by the filters of its source. -/
inductive Pulls (root : Namespace) : List String → List String → Prop where
  | condition {place : List String} {name : String} {parent : Namespace} {j : Join} {e : Expr} {path : List String}
      (within : root.within? place = some parent) (found : parent.lookup? name = some (.join j))
      (is : j.correlation.condition? = some e) (way : OnWay place parent e path) : Pulls root (place ++ [name]) path
  | filter {place : List String} {name : String} {parent : Namespace} {j : Join} {f : Filter} {path : List String}
      (within : root.within? place = some parent) (found : parent.lookup? name = some (.join j))
      (mem : f ∈ j.source.filters) (way : OnWay (place ++ [name]) j.source.fields f.expr path) :
      Pulls root (place ++ [name]) path

theorem pulls_iff (within : root.within? place = some parent) (found : parent.lookup? name = some (.join j)) :
    Pulls root (place ++ [name]) path ↔ (∃ e, j.correlation.condition? = some e ∧ OnWay place parent e path) ∨
      ∃ f ∈ j.source.filters, OnWay (place ++ [name]) j.source.fields f.expr path := by
  constructor
  · generalize split : place ++ [name] = joined
    intro pulls
    cases pulls with
    | condition within' found' is way =>
      obtain ⟨rfl, isName⟩ := append_inj' split rfl
      cases isName
      cases within.symm.trans within'
      cases found.symm.trans found'
      exact .inl ⟨_, is, way⟩
    | filter within' found' mem way =>
      obtain ⟨rfl, isName⟩ := append_inj' split rfl
      cases isName
      cases within.symm.trans within'
      cases found.symm.trans found'
      exact .inr ⟨_, mem, way⟩
  · rintro (⟨e, is, way⟩ | ⟨f, mem, way⟩)
    · exact .condition within found is way
    · exact .filter within found mem way

theorem Pulls.joined (pulls : Pulls root join path) : join ≠ [] ∧ ∃ inner, root.within? join = some inner := by
  cases pulls with
  | @condition _ _ _ j _ _ within found | @filter _ _ _ j _ _ within found =>
    exact ⟨by simp, j.source.fields, Namespace.within?_join within found⟩

/-- Joins together with those on the way to them and those that they lead along in turn. -/
structure Complete (root : Namespace) (used : List String → Prop) : Prop where
  starts : ∀ {path start}, used path → start ≠ [] → start <+: path → used start
  pulls : ∀ {join path}, used join → Pulls root join path → used path

theorem OnWay.start {start : List String} (way : OnWay place ns e path) (nonempty : start ≠ [])
    (starts : start <+: path) : OnWay place ns e start := by
  obtain ⟨visited, visits, _, within⟩ := way
  exact ⟨visited, visits, nonempty, starts.trans within⟩

theorem Pulls.way (pulls : Pulls root join path) : path ≠ [] ∧
    ∀ start, start ≠ [] → start <+: path → Pulls root join start := by
  cases pulls with
  | condition within found is way =>
    exact ⟨way.choose_spec.2.1, fun start nonempty starts => .condition within found is (way.start nonempty starts)⟩
  | filter within found mem way =>
    exact ⟨way.choose_spec.2.1, fun start nonempty starts => .filter within found mem (way.start nonempty starts)⟩

/-- The joins that a `SELECT` with some expressions needs. -/
inductive Needs (root : Namespace) (exprs : List Expr) : List String → Prop where
  | read (mem : e ∈ exprs) (way : OnWay [] root e path) : Needs root exprs path
  | pulled (needed : Needs root exprs join) (pulls : Pulls root join path) :
      Needs root exprs path

namespace JoinTree

variable {root : Namespace} {key : Option String} {t t' : JoinTree}

theorem closeAt_mem (closed : t.closeAt path = .ok t') (p : List String) :
    p ∈ t'.used ↔ p ∈ t.used ∨ Pulls t.root path p := by
  obtain ⟨place, name, parent, j, rfl, within, found, run⟩ := closeAt_inv closed
  obtain ⟨_, added⟩ := foldlM_adds run trivial
    fun _ _ _ _ _ step => ⟨trivial, readAt_mem step⟩
  rw [added, pulls_iff within found]
  simp [readings, or_and_right, exists_or]

theorem closeOnce_mem (once : t.closeOnce = .ok t') (p : List String) :
    p ∈ t'.used ↔ p ∈ t.used ∨ ∃ q ∈ t.used, Pulls t.root q p :=
  (foldlM_adds (I := fun u => u.root = t.root) once rfl
    fun _ _ _ _ root step => ⟨(closeAt_wider step).root.trans root, fun p => root ▸ closeAt_mem step p⟩).2 p

end JoinTree

section Sizes

variable {slot : Slot FieldDef} {rest : List (Slot FieldDef)}

theorem slotsSize_join (is : slot.field = .join j) :
    slotsSize (slot :: rest) = slotsSize j.source.fields.entries + 1 + slotsSize rest := by
  obtain ⟨name, field, hidden⟩ := slot
  obtain ⟨_, _, ⟨_, _, ⟨entries⟩, _, _, _⟩, _, _⟩ := j
  cases is
  simp [slotsSize, FieldDef.size, Join.size, Source.size]

theorem slotsSize_le : slotsSize rest ≤ slotsSize (slot :: rest) := by
  simp [slotsSize]

end Sizes

theorem usedSlots_length (entries : List (Slot FieldDef)) :
    (usedSlots used place entries).length ≤ slotsSize entries :=
  usedSlots_induction (P := fun _ entries paths => paths.length ≤ slotsSize entries) (Nat.zero_le _)
    (fun _ later => Nat.le_trans later slotsSize_le)
    (fun is _ inner later => by
      rw [slotsSize_join is, length_append, length_cons]
      omega) place entries

theorem along_length (along : Along J root paths) (nodup : paths.Nodup) : paths.length ≤ root.size := by
  have listed : paths ⊆ usedSlots (paths.flatMap JoinPaths.starts) [] root.entries := by
    intro path mem
    obtain ⟨nonempty, inner, placed⟩ := along path mem
    refine (usedSlots_below placed.within nonempty fun p some starts => ?_).subset mem_cons_self
    exact mem_flatMap.mpr ⟨path, mem, JoinPaths.mem_starts.mpr ⟨some, starts⟩⟩
  exact Nat.le_trans (nodup.subperm listed).length_le (usedSlots_length root.entries)

namespace JoinTree

variable {J : Namespace → Join → Prop} {R : Namespace → Expr → Prop} {root : Namespace} {key : Option String}

theorem closeWithin_closed (closed : Closed R J) (sound : FieldsSound root) : ∀ (rounds : Nat) {t t' : JoinTree},
    t.Over J root key → t.used.Ascending → root.size + 1 ≤ rounds + t.used.length → t.closeWithin rounds = .ok t' →
      ∀ q ∈ t'.used, ∀ p, Pulls root q p → p ∈ t'.used
  | 0, t, t', spans, ascending, enough, _ => by
    have most := along_length spans.along ascending.nodup
    omega
  | rounds + 1, t, t', spans, ascending, enough, run => by
    obtain ⟨next, once, spans'⟩ := closeOnce_ok closed sound spans
    have wider := closeOnce_wider once
    have fits := ascending.nodup.subperm wider.used
    rw [closeWithin, once] at run
    simp only [bind, Except.bind] at run
    split at run
    · next same =>
      cases run
      intro q mem p pulls
      have before : q ∈ t.used := (fits.perm_of_length_le (Nat.le_of_eq same)).symm.subset mem
      exact (closeOnce_mem once p).mpr (.inr ⟨q, before, spans.root_eq ▸ pulls⟩)
    · next grown =>
      have more := fits.length_le
      exact closeWithin_closed closed sound rounds spans' (wider.ascending ascending) (by omega) run

/-- Nothing is found but what is read and what is pulled by it. -/
theorem closeWithin_least {P : List String → Prop} {t t' : JoinTree} (pulled : ∀ q p, P q → Pulls t.root q p → P p)
    (rounds : Nat) (read : ∀ p ∈ t.used, P p) (closed : t.closeWithin rounds = .ok t') : ∀ p ∈ t'.used, P p := by
  refine (closeWithin_keeps (P := fun t₁ => t₁.root = t.root ∧ ∀ p ∈ t₁.used, P p) ?_ rounds ⟨rfl, read⟩ closed).2
  rintro t₁ t₂ ⟨root, read⟩ once
  refine ⟨(closeOnce_wider once).root.trans root, fun p mem => ?_⟩
  rcases (closeOnce_mem once p).mp mem with mem | ⟨q, mem, pulls⟩
  · exact read p mem
  · exact pulled q p (read q mem) (root ▸ pulls)

end JoinTree

/-- Join trees as they come about: expressions are read into an empty one, and it is closed. -/
inductive JoinTree.Grown (root : Namespace) (key : Option String) : JoinTree → Prop where
  | start : Grown root key (.ofRoot root key)
  | read (before : Grown root key t) (read : t.read e = .ok t') : Grown root key t'
  | close (before : Grown root key t) (closed : t.close = .ok t') : Grown root key t'

namespace JoinTree

variable {root : Namespace} {key : Option String} {t t' : JoinTree}

/-- A tree over some fields with paths in order, and with all joins on the way to them. -/
structure Rooted (root : Namespace) (t : JoinTree) : Prop where
  root : t.root = root
  ascending : t.used.Ascending
  starts : ∀ path ∈ t.used, path ≠ [] ∧ ∀ start, start ≠ [] → start <+: path → start ∈ t.used

theorem Rooted.add {G : List String → Prop} (rooted : t.Rooted root) (wider : t.Wider t')
    (added : ∀ p, p ∈ t'.used ↔ p ∈ t.used ∨ G p)
    (way : ∀ {path}, G path → path ≠ [] ∧ ∀ start, start ≠ [] → start <+: path → G start) : t'.Rooted root := by
  refine ⟨wider.root.trans rooted.root, wider.ascending rooted.ascending, fun path mem => ?_⟩
  rcases (added path).mp mem with mem | new
  · obtain ⟨nonempty, starts⟩ := rooted.starts path mem
    exact ⟨nonempty, fun start some within => wider.used (starts start some within)⟩
  · obtain ⟨nonempty, starts⟩ := way new
    exact ⟨nonempty, fun start some within => (added start).mpr (.inr (starts start some within))⟩

theorem Rooted.close (rooted : t.Rooted root) (closed : t.close = .ok t') : t'.Rooted root := by
  refine closeWithin_keeps (fun rooted once => ?_) _ rooted closed
  refine rooted.add (closeOnce_wider once) (closeOnce_mem once) fun {path} pulled => ?_
  obtain ⟨q, mem, pulls⟩ := pulled
  exact ⟨pulls.way.1, fun start nonempty starts => ⟨q, mem, pulls.way.2 start nonempty starts⟩⟩

theorem Grown.rooted (grown : Grown root key t) : t.Rooted root := by
  induction grown with
  | start => exact ⟨rfl, .nil, forall_mem_nil _⟩
  | read _ read ih =>
    refine ih.add (readAt_wider read) (readAt_mem read) fun way => ⟨way.choose_spec.2.1, fun start => way.start⟩
  | close _ closed ih => exact ih.close closed

theorem close_along (closed : t.close = .ok t') : Along (fun _ _ => True) t.root t.used := by
  intro path mem
  obtain ⟨next, once, _⟩ := bind_eq_ok closed
  obtain ⟨_, steps⟩ := foldlM_steps .refl .trans once fun _ _ _ _ step => closeAt_wider step
  obtain ⟨t₁, t₂, wider, step, _⟩ := steps path mem
  obtain ⟨place, name, parent, j, rfl, within, found, _⟩ := closeAt_inv step
  refine ⟨by simp, j.source.fields, .of_within ?_ fun _ _ _ _ _ _ _ _ => trivial⟩
  exact Namespace.within?_join (wider.root ▸ within) found

section Closed

variable (sound : FieldsSound root) (rooted : t.Rooted root)

include sound rooted

theorem close_over (along : Along (fun _ _ => True) root t.used) :
    ∃ t', t.close = .ok t' ∧ t'.Over (fun _ _ => True) root t.key :=
  closeWithin_ok closed_any sound _ ⟨rooted.root, rfl, along⟩

theorem close_iff : (∃ t', t.close = .ok t') ↔ ∀ path ∈ t.used, ∃ inner, root.within? path = some inner := by
  constructor
  · rintro ⟨t', closed⟩ path mem
    obtain ⟨_, inner, placed⟩ := close_along closed path mem
    exact ⟨inner, rooted.root ▸ placed.within⟩
  · intro joined
    obtain ⟨t', closed, _⟩ := close_over sound rooted fun path mem =>
      have ⟨inner, within⟩ := joined path mem
      ⟨(rooted.starts path mem).1, inner, .of_within within fun _ _ _ _ _ _ _ _ => trivial⟩
    exact ⟨t', closed⟩

variable (closed : t.close = .ok t')

include closed

theorem close_complete : Complete root (· ∈ t'.used) where
  starts mem := ((rooted.close closed).starts _ mem).2 _
  pulls mem pulls := by
    have spans : t.Over (fun _ _ => True) root t.key := ⟨rooted.root, rfl, rooted.root ▸ close_along closed⟩
    refine closeWithin_closed closed_any sound _ spans rooted.ascending ?_ closed _ mem _ pulls
    rw [rooted.root]
    omega

end Closed

end JoinTree

/-- The joins of a `SELECT` are those that it needs. -/
theorem treeFor_mem (sound : FieldsSound input.fields) (isTree : treeFor input exprs = .ok tree) (p : List String) :
    p ∈ tree.used ↔ Needs input.fields (input.filters ++ exprs) p := by
  obtain ⟨mid, read, closed⟩ := bind_eq_ok isTree
  obtain ⟨grown, found⟩ := foldlM_adds (I := JoinTree.Grown input.fields input.key)
    read .start fun e _ t t' grown step =>
      ⟨grown.read step, grown.rooted.root ▸ JoinTree.readAt_mem step⟩
  have rooted := grown.rooted
  constructor
  · refine JoinTree.closeWithin_least (fun q p needed pulls => .pulled needed (rooted.root ▸ pulls)) _
      (fun p mem => ?_) closed p
    obtain ⟨e, mem, way⟩ := ((found p).mp mem).resolve_left not_mem_nil
    exact .read mem way
  · intro needs
    induction needs with
    | read mem way => exact (JoinTree.closeWithin_wider _ closed).used ((found _).mpr (.inr ⟨_, mem, way⟩))
    | pulled _ pulls ih => exact (JoinTree.close_complete sound rooted closed).pulls ih pulls

theorem treeFor_needs (sound : InputSound input)
    (levels : ∀ e ∈ exprs, ∃ l, e.level? (Names.of input.fields) = some l) : ∃ tree, treeFor input exprs = .ok tree ∧
      tree.Over (fun _ _ => True) input.fields input.key ∧
      ∀ path, path ∈ tree.used ↔ Needs input.fields (input.filters ++ exprs) path := by
  obtain ⟨tree, isTree, spans⟩ := treeFor_ok closed_any sound.fields fun e mem =>
    ⟨(mem_append.mp mem).elim (fun mem => ⟨_, sound.filters e mem⟩) (levels e), trivial⟩
  exact ⟨tree, isTree, spans, treeFor_mem sound.fields isTree⟩

theorem needs_within (sound : FieldsSound root) (levels : ∀ e ∈ exprs, ∃ l, e.level? (Names.of root) = some l)
    (needs : Needs root exprs path) : path ≠ [] ∧ ∃ inner, root.within? path = some inner := by
  have given : InputSound ⟨.table "", root, none, []⟩ := ⟨sound, by simp, forall_mem_nil _⟩
  obtain ⟨tree, _, spans, used⟩ := treeFor_needs given levels
  obtain ⟨nonempty, inner, placed⟩ := spans.along path ((used path).mpr needs)
  exact ⟨nonempty, inner, placed.within⟩

end Plan

end SemanticLayer
