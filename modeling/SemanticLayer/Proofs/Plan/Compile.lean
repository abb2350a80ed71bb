import SemanticLayer.Proofs.Plan.Columns
import SemanticLayer.Proofs.Plan.Restores

/-!
Whatever is compiled is neat: it reads columns that may be read, and leaves the rest as it was.
-/
namespace SemanticLayer.Plan

open List

/-- What an expression at a place may have in it: columns that may be read there, and certain numbers. -/
structure Allowed (N : String → Prop) (A : JoinPaths → Option String → String → Prop) (place : List String)
    (e : Expr) : Prop where
  columns : e.Columns fun name => A [] (some (aliasOf place)) name
  numbers : e.Numbers N

theorem Allowed.part (allowed : Allowed N A place e) (mem : p ∈ e.parts) : Allowed N A place p :=
  ⟨allowed.columns.part mem, allowed.numbers.part mem⟩

/-- What compiling rests on: sound fields, and columns and numbers that may be there. Which columns these are may
depend on the relations that have a generated key. -/
structure Grounds (t : Target) (N : String → Prop) (A : JoinPaths → Option String → String → Prop) : Prop where
  sound : FieldsSound t.tree.root
  numbers : t.tree.root.Numbers N
  keyed : ∀ name ∈ t.tree.key, (Names.of t.tree.root).level [name] = some .scalar
  owns : ∀ {place ns path joins owner d}, t.tree.root.within? place = some ns →
    definitionOf ns path = .ok (joins, owner, d) →
    d.Columns fun name => A [] (some (aliasOf (place ++ joins))) name
  mono : ∀ {paths paths' : JoinPaths}, paths ⊆ paths' → ∀ {table name}, A paths table name → A paths' table name
  generated : ∀ {paths : JoinPaths} {path}, path ∈ paths → t.tree.keyAt path = .ok none →
    A paths (some (aliasOf path)) distinctKeyColumn

def Compilation.Reads (A : JoinPaths → Option String → String → Prop) (c : Compilation) (table : Option String)
    (name : String) : Prop :=
  A c.keyed table name ∨
    (c.frame.isSome = true ∧ ∃ i < c.ungroups.length, table = some s!"__u{i}" ∧ name = ungroupColumn)

structure Compilation.Tidy (d : Dialect) (N : String → Prop) (A : JoinPaths → Option String → String → Prop)
    (c : Compilation) : Prop where
  filters : ∀ x ∈ c.filters, x.Neat d N (A c.keyed) ∧ x.Plain
  dimensions : ∀ frame ∈ c.frame, ∀ x ∈ frame.dimensions, x.2.Neat d N (A c.keyed)
  parents : ∀ frame ∈ c.frame, ∀ x ∈ frame.parents, x.Neat d N (A c.keyed)
  partitions : ∀ u ∈ c.ungroups, ∀ x ∈ u.partition, x.Neat d N (A c.keyed)
  values : ∀ u ∈ c.ungroups, u.value.Neat d N (A c.keyed)
  labels : c.Numbered

theorem keyedSum_inv {f : Sql.Expr → Sql.Expr → Sql.Expr} {fault : Fault}
    (run : Gives (distinctKey t follow path >>= fun key => match arg with
      | some value => pure (f key value)
      | none => throw fault) c x c') :
    ∃ key value, arg = some value ∧ x = f key value ∧ Gives (distinctKey t follow path) c key c' := by
  obtain ⟨key, mid, first, run⟩ := gives_bind.mp run
  cases arg with
  | none => exact (not_gives_throw run).elim
  | some value =>
    obtain ⟨rfl, rfl⟩ := gives_pure.mp run
    exact ⟨key, value, rfl, rfl, first⟩

theorem Compilation.Reads.grows {A : JoinPaths → Option String → String → Prop} {c c' : Compilation}
    (mono : ∀ {paths paths' : JoinPaths}, paths ⊆ paths' → ∀ {table name},
      A paths table name → A paths' table name) (grows : c.Grows c') (reads : c.Reads A table name) :
    c'.Reads A table name := by
  rcases reads with reads | ⟨framed, i, small, label, isValue⟩
  · exact .inl (mono grows.keyed reads)
  · exact .inr ⟨grows.frame ▸ framed, i, Nat.lt_of_lt_of_le small grows.ungroups.length_le, label, isValue⟩

theorem keyAt_level {tree : JoinTree} (sound : FieldsSound tree.root)
    (keyed : ∀ name ∈ tree.key, (Names.of tree.root).level [name] = some .scalar)
    (isKey : tree.keyAt path = .ok (some key)) (found : tree.fieldsAt path = .ok ns) :
    (Names.of ns).level [key] = some .scalar := by
  unfold JoinTree.keyAt at isKey
  unfold JoinTree.fieldsAt at found
  split at isKey
  · next empty =>
    rw [if_pos empty] at found
    cases found
    exact keyed key (by simpa using isKey)
  · next nonempty =>
    rw [if_neg nonempty] at found
    obtain ⟨j, join, rfl⟩ := map_eq_ok found
    rw [join] at isKey
    obtain ⟨place, name, parent, rfl, within, here⟩ := joinFrom_inv join
    cases ((sound.within within).joined here).1 with
    | mk _ _ _ key _ _ => exact key _ (by simpa [Except.map] using isKey)

namespace Grounds

variable {t : Target} {N : String → Prop} {A : JoinPaths → Option String → String → Prop} {place : List String} {ns : Namespace}

/-- Whatever columns an expression comes to may be read, if those that it names itself may. -/
theorem mentioned (g : Grounds t N A) {e : Expr} (mentions : e.Mentions ns rest name) :
    ∀ {place : List String}, t.tree.root.within? place = some ns →
    (e.Columns fun name => A [] (some (aliasOf place)) name) → A [] (some (aliasOf (place ++ rest))) name := by
  induction mentions with
  | column =>
    intro place _ columns
    rw [append_nil]
    exact columns _ .here
  | @field _ owner _ joins rest _ _ defined _ ih =>
    intro place within _
    obtain ⟨_, _, _, inner, _⟩ := Namespace.definitionOf_iff.mp defined
    have there : t.tree.root.within? (place ++ joins) = some owner := by
      rw [Namespace.within?_append, within]
      exact inner
    rw [← List.append_assoc]
    exact ih there (g.owns within defined)
  | part mem _ ih => exact fun within columns => ih within (columns.part mem)

theorem scalar (g : Grounds t N A) (fuel : Nat) (within : t.tree.root.within? place = some ns)
    (level : e.level? (Names.of ns) = some .scalar) (allowed : Allowed N A place e) :
    Steady (t.compileWithin fuel place ns e) fun x => x.Neat t.dialect N (A []) ∧ x.Plain := by
  intro c x c' run
  obtain ⟨same, ⟨exactly, plain⟩, anywhere⟩ := scalar_exactly g.sound g.numbers fuel within level allowed.numbers c x c' run
  refine ⟨same, ⟨exactly.neat.mono ?_, plain⟩, anywhere⟩
  rintro table name ⟨rest, mentions, rfl⟩
  exact g.mentioned mentions within allowed.columns

theorem root (g : Grounds t N A) (level : e.level? (Names.of t.tree.root) = some .scalar) (allowed : Allowed N A [] e) :
    Steady (t.compileRoot e) fun x => x.Neat t.dialect N (A []) :=
  (g.scalar t.depth rfl level allowed).weaken fun _ => And.left

theorem definition (g : Grounds t N A) (within : t.tree.root.within? place = some ns)
    (defined : definitionOf ns path = .ok (joins, owner, d)) :
    Allowed N A (place ++ joins) d := ⟨g.owns within defined, g.numbers.definition within defined⟩

variable {x : Sql.Expr} {c c' : Compilation}

theorem neat_mono (g : Grounds t N A) (le : paths ⊆ paths') (neat : x.Neat t.dialect N (A paths)) :
    x.Neat t.dialect N (A paths') := neat.mono fun _ _ => g.mono le

theorem neat_grows (g : Grounds t N A) (grows : c.Grows c') (neat : x.Neat t.dialect N (c.Reads A)) :
    x.Neat t.dialect N (c'.Reads A) :=
  neat.mono fun _ _ => .grows g.mono grows

theorem tidy_rekey (g : Grounds t N A) (tidy : c.Tidy t.dialect N A) (le : c.keyed ⊆ paths) :
    { c with keyed := paths }.Tidy t.dialect N A where
  filters x mem := (tidy.filters x mem).imp_left (g.neat_mono le)
  dimensions frame is x mem := g.neat_mono le (tidy.dimensions frame is x mem)
  parents frame is x mem := g.neat_mono le (tidy.parents frame is x mem)
  partitions u mem x inside := g.neat_mono le (tidy.partitions u mem x inside)
  values u mem := g.neat_mono le (tidy.values u mem)
  labels := tidy.labels

theorem tidy_filter (tidy : c.Tidy t.dialect N A) (neat : condition.Neat t.dialect N (A c.keyed) ∧ condition.Plain) :
    { c with filters := c.filters ++ [condition] }.Tidy t.dialect N A where
  __ := tidy
  filters x mem := by
    rcases mem_append.mp mem with mem | mem
    · exact tidy.filters x mem
    · rwa [mem_singleton.mp mem]

theorem tidy_unfilter (g : Grounds t N A) (tidy : c.Tidy t.dialect N A) (le : c.keyed ⊆ c'.keyed)
    (after : c'.Tidy t.dialect N A) (same : filters = c.filters) : { c' with filters }.Tidy t.dialect N A where
  __ := after
  filters x mem := (tidy.filters x (same ▸ mem)).imp_left (g.neat_mono le)

theorem neat_unframed (unframed : c.frame = none) (neat : x.Neat t.dialect N (c.Reads A)) :
    x.Neat t.dialect N (A c.keyed) := by
  refine neat.mono fun table name reads => reads.resolve_right ?_
  rintro ⟨framed, _⟩
  rw [unframed] at framed
  cases framed

theorem distinctKey_neat (g : Grounds t N A) (run : Gives (distinctKey t (t.compileWithin fuel) path) c x c')
    (tidy : c.Tidy t.dialect N A) :
    c'.Tidy t.dialect N A ∧ x.Neat t.dialect N (A c'.keyed) ∧ x.Plain := by
  unfold distinctKey at run
  rw [gives_ofExcept_bind] at run
  obtain ⟨key, isKey, run⟩ := run
  cases key with
  | none =>
    obtain ⟨rfl, rfl⟩ := run
    have le : c.keyed ⊆ c.keyed.insert path := fun p mem => JoinPaths.mem_insert.mpr (.inr mem)
    exact ⟨g.tidy_rekey tidy le, Sql.Expr.each_column.mpr (g.generated (JoinPaths.mem_insert.mpr (.inl rfl)) isKey),
      Sql.Expr.each_column.mpr nofun⟩
  | some key =>
    unfold compileField at run
    simp only [gives_ofExcept_bind] at run
    obtain ⟨ns, found, ⟨joins, owner, d⟩, defined, run⟩ := run
    have within := fieldsAt_within found
    have level := keyAt_level g.sound g.keyed isKey found
    obtain ⟨within', level'⟩ := definition_within g.sound within defined (by rw [Expr.level?]; exact level)
    obtain ⟨rfl, neat, _⟩ := g.scalar fuel within' level' (g.definition within defined) _ _ _ run
    exact ⟨tidy, neat.imp_left (g.neat_mono (nil_subset _))⟩

theorem aggregate_neat (g : Grounds t N A)
    (run : Gives (compileAggregate t (t.compileWithin fuel) function path arg) c x c') (tidy : c.Tidy t.dialect N A)
    (argued : ∀ a ∈ arg, a.Neat t.dialect N (A []) ∧ a.Plain) :
    c'.Tidy t.dialect N A ∧ x.Neat t.dialect N (A c'.keyed) := by
  unfold compileAggregate at run
  rw [gives_get_bind] at run
  dsimp only at run
  have filtered : ∀ {after : Compilation}, c.Grows after →
      ∀ y ∈ allOf? c.filters, y.Neat t.dialect N (A after.keyed) ∧ y.Plain := by
    intro after grows
    exact Sql.Expr.made_allOf
      fun y mem => (tidy.filters y mem).imp_left (g.neat_mono grows.keyed)
  have guard {after : Compilation} (grows : c.Grows after) {a : Sql.Expr} (inner : a.Neat t.dialect N (A after.keyed) ∧ a.Plain) :
      (guarded (allOf? c.filters) a).Neat t.dialect N (A after.keyed) ∧ (guarded (allOf? c.filters) a).Plain :=
    Sql.Expr.made_guarded (filtered grows) inner
  have plain {function : AggregateFunction} {arg : Option Sql.Expr}
      (neat : ∀ a ∈ arg, a.Neat t.dialect N (A c.keyed) ∧ a.Plain) {y : Sql.Expr} {after : Compilation}
      (run : Gives (pure (Dialect.plainAggregate function arg) : CompileM _) c y after) :
      after.Tidy t.dialect N A ∧ y.Neat t.dialect N (A after.keyed) := by
    obtain ⟨rfl, rfl⟩ := gives_pure.mp run
    exact ⟨tidy, Sql.Expr.neat_plainAggregate function neat⟩
  have value {a : Sql.Expr} (is : arg = some a) (paths : JoinPaths) : a.Neat t.dialect N (A paths) ∧ a.Plain :=
    (argued a is).imp_left (g.neat_mono (nil_subset _))
  have grows {key : Sql.Expr} {after : Compilation} (first : Gives (distinctKey t (t.compileWithin fuel) path) c key after) :
      c.Grows after := (Restores.distinctKey (t.restores fuel) t path).gives first
  have summed {average : Bool} {key a : Sql.Expr} {after : Compilation} (is : arg = some a)
      (first : Gives (distinctKey t (t.compileWithin fuel) path) c key after) : after.Tidy t.dialect N A ∧
        (t.dialect.sumDistinct key a (allOf? c.filters) average).Neat t.dialect N (A after.keyed) := by
    obtain ⟨tidy, neat⟩ := g.distinctKey_neat first tidy
    exact ⟨tidy, Sql.Expr.neat_sumDistinct _ _ neat (value is _) (filtered (grows first))⟩
  split at run
  · simp only [gives_bind] at run
    obtain ⟨key, after, first, rfl, rfl⟩ := run
    obtain ⟨tidy, neat⟩ := g.distinctKey_neat first tidy
    exact ⟨tidy, Sql.Expr.neat_aggregate (guard (grows first) neat)⟩
  · split at run
    · simp only [gives_bind] at run
      obtain ⟨key, after, first, rfl, rfl⟩ := run
      obtain ⟨tidy, neat⟩ := g.distinctKey_neat first tidy
      exact ⟨tidy, Sql.Expr.neat_aggregate (guard (grows first) neat)⟩
    · refine plain (fun a is => ?_) run
      obtain ⟨condition, isCondition, rfl⟩ := Option.map_eq_some_iff.mp is
      have one := guard (.refl c) (a := .int 1)
        (Sql.Expr.Congruent.literal (R := fun y _ => y.Neat t.dialect N (A c.keyed) ∧ y.Plain) (by simp))
      rwa [isCondition] at one
  · obtain ⟨key, a, is, rfl, first⟩ := keyedSum_inv run
    exact summed is first
  · obtain ⟨key, a, is, rfl, first⟩ := keyedSum_inv run
    exact summed is first
  · refine plain (fun a is => ?_) run
    obtain ⟨a, given, rfl⟩ := Option.map_eq_some_iff.mp is
    exact guard (.refl c) (value given _)

theorem partition_neat (tidy : c.Tidy t.dialect N A) (framed : c.frame = some frame) :
    ∀ x ∈ partitionOf frame kind fields, x.Neat t.dialect N (A c.keyed) := by
  intro x mem
  rcases mem_append.mp mem with mem | mem
  · exact tidy.parents frame framed x mem
  · obtain ⟨dimension, kept, rfl⟩ := mem_map.mp mem
    exact tidy.dimensions frame framed dimension (mem_of_mem_filter kept)

theorem ungroup_neat {inner : CompileM Sql.Expr} (g : Grounds t N A)
    (run : Gives (compileUngroup kind fields inner) c x c') (tidy : c.Tidy t.dialect N A)
    (each : ∀ {c x c'}, Gives inner c x c' → c.Tidy t.dialect N A →
      c'.Tidy t.dialect N A ∧ c.Grows c' ∧ x.Neat t.dialect N (c'.Reads A)) :
    c'.Tidy t.dialect N A ∧ x.Neat t.dialect N (c'.Reads A) := by
  unfold compileUngroup at run
  rw [gives_get_bind] at run
  cases framed : c.frame with
  | none =>
    rw [framed] at run
    exact (not_gives_throw run).elim
  | some frame =>
    simp only [framed] at run
    split at run
    · exact (not_gives_throw run).elim
    obtain ⟨value, after, first, run⟩ := gives_bind.mp run
    obtain ⟨rfl, rfl⟩ := run
    obtain ⟨mid, within, rfl⟩ := gives_withoutFrame.mp first
    obtain ⟨tidied, grows, neat⟩ :=
      each within { tidy with dimensions := fun _ is => (by cases is), parents := fun _ is => (by cases is) }
    have valued := neat_unframed grows.frame neat
    have partition {kind : UngroupKind} {fields : List String} (x : Sql.Expr)
        (mem : x ∈ partitionOf frame kind fields) : x.Neat t.dialect N (A mid.keyed) :=
      g.neat_mono grows.keyed (partition_neat tidy framed x mem)
    refine ⟨⟨tidied.filters, fun frame is x mem => ?_, fun frame is x mem => ?_, fun u mem x inside => ?_,
      fun u mem => ?_, ?_⟩, ?_⟩
    · exact g.neat_mono grows.keyed (tidy.dimensions frame (framed ▸ is) x mem)
    · exact g.neat_mono grows.keyed (tidy.parents frame (framed ▸ is) x mem)
    · rcases mem_append.mp mem with mem | mem
      · exact tidied.partitions u mem x inside
      · cases mem_singleton.mp mem
        exact partition x inside
    · rcases mem_append.mp mem with mem | mem
      · exact tidied.values u mem
      · cases mem_singleton.mp mem
        exact valued
    · exact (grows.reframe.trans (.widen framed)).labels tidy.labels
    · refine Sql.Expr.neat_aggregate ⟨Sql.Expr.each_column.mpr (.inr ⟨?_, mid.ungroups.length, by simp, rfl, rfl⟩),
        Sql.Expr.each_column.mpr nofun⟩
      simp [framed]

/-- Whatever is compiled from a tidy state is neat, and leaves a tidy state. -/
theorem compiled (g : Grounds t N A) : ∀ (fuel : Nat) {place : List String} {ns : Namespace} {e : Expr} {l : SemanticLayer.Level},
    t.tree.root.within? place = some ns → e.level? (Names.of ns) = some l →
    Allowed N A place e → ∀ {c x c'},
    Gives (t.compileWithin fuel place ns e) c x c' → c.Tidy t.dialect N A →
    c'.Tidy t.dialect N A ∧ c.Grows c' ∧ x.Neat t.dialect N (c'.Reads A)
  | 0, place, ns, e, l, _, _, _, c, x, c', run, _ => (not_gives_throw run).elim
  | fuel + 1, place, ns, e, l, within, level, allowed, c, x, c', run, tidy => by
    rw [Target.compileWithin] at run
    induction e using Expr.parts_induction generalizing c x c' l with
    | step e ih =>
      have part {p : Expr} (mem : p ∈ e.parts) {c x c'}
          (run : Gives (compile t (t.compileWithin fuel) place ns p) c x c') (tidy : c.Tidy t.dialect N A) :
          c'.Tidy t.dialect N A ∧ c.Grows c' ∧ x.Neat t.dialect N (c'.Reads A) := by
        obtain ⟨l', partLevel, _⟩ := Expr.level_parts level p mem
        exact ih p mem l' partLevel (allowed.part mem) _ _ _ run tidy
      have restores := Restores.compile (t.restores fuel) t place ns
      suffices neat : c'.Tidy t.dialect N A ∧ x.Neat t.dialect N (c'.Reads A) from
        ⟨neat.1, (restores e).gives run, neat.2⟩
      have scalar {p : Expr} (mem : p ∈ e.parts) (scalar : p.level? (Names.of ns) = some .scalar) :
          Steady (compile t (t.compileWithin fuel) place ns p) fun x => x.Neat t.dialect N (A []) ∧ x.Plain := by
        have steady := g.scalar (fuel + 1) within scalar (allowed.part mem)
        rwa [Target.compileWithin] at steady
      cases operator : isOperator e with
      | true =>
        rw [compile_operator operator] at run
        obtain ⟨xs, mid, parts, run⟩ := gives_bind.mp run
        obtain ⟨is, rfl⟩ := gives_ofDialect.mp run
        obtain ⟨tidy, _, neat⟩ := gives_mapM
          (R := Compilation.Grows) (Q := fun _ x c => x.Neat t.dialect N (c.Reads A)) .refl .trans
          (fun grows neat => g.neat_grows grows neat) parts tidy fun p mem c x c' tidy run => part mem run tidy
        refine ⟨tidy, made_assemble (fun x mem => ?_) (fun name same => ?_) (fun text same => ?_) is⟩
        · obtain ⟨_, _, neat⟩ := exists_of_forall₂ neat mem
          exact neat
        · subst same
          exact Sql.Expr.each_column.mpr (.inl (g.mono (nil_subset _) (allowed.columns name .here)))
        · exact Sql.Expr.each_literal.mpr (allowed.numbers text (same ▸ .here))
      | false =>
        cases e with
        | field path =>
          rw [compile] at run
          unfold compileField at run
          rw [gives_ofExcept_bind] at run
          obtain ⟨⟨joins, owner, d⟩, defined, run⟩ := run
          obtain ⟨within', level'⟩ := definition_within g.sound within defined level
          obtain ⟨tidy, _, neat⟩ := g.compiled fuel within' level' (g.definition within defined) run tidy
          exact ⟨tidy, neat⟩
        | aggregate function locality arg =>
          obtain ⟨rfl, _, _, argument⟩ := Expr.aggregate_level level
          rw [compile, compileOption_eq] at run
          simp only [bind_assoc] at run
          obtain ⟨xs, mid, parts, computed⟩ := gives_bind.mp run
          have steady : Steady (arg.toList.mapM (compile t (t.compileWithin fuel) place ns))
              fun xs => ∀ x ∈ xs, x.Neat t.dialect N (A []) ∧ x.Plain := by
            refine .mapM_all fun p mem => ?_
            obtain ⟨_, level, isScalar⟩ := Expr.covers_option argument p mem
            exact scalar mem (isScalar rfl ▸ level)
          obtain ⟨rfl, neat, _⟩ := steady _ _ _ parts
          obtain ⟨tidy, neat⟩ := g.aggregate_neat computed tidy fun a is =>
            neat a (mem_of_mem_head? is)
          exact ⟨tidy, neat.mono fun _ _ => .inl⟩
        | filtered a condition =>
          obtain ⟨rfl, _, isScalar⟩ := Expr.filtered_level level
          obtain ⟨y, mid, first, rest⟩ := gives_bind.mp run
          obtain ⟨rfl, neat, _⟩ := scalar (by simp [Expr.parts]) isScalar _ _ _ first
          obtain ⟨inner, filtered, rfl⟩ := gives_withFilter.mp rest
          obtain ⟨after, grows, result⟩ := part (by simp [Expr.parts]) filtered
            (tidy_filter tidy (neat.imp_left (g.neat_mono (nil_subset _))))
          exact ⟨g.tidy_unfilter tidy grows.keyed after rfl, result⟩
        | ungroup kind a fields =>
          exact g.ungroup_neat run tidy fun run tidy => part (by simp [Expr.parts]) run tidy
        | _ => cases operator

theorem joinConditions_steady (g : Grounds t N A) (found : t.tree.join path = .ok j)
    (own : ∀ e ∈ j.correlation.condition?, e.Columns fun name => A [] (some (aliasOf path.dropLast)) name)
    (rows : ∀ f ∈ j.source.filters, f.expr.Columns fun name => A [] (some (aliasOf path)) name) :
    Steady (joinConditions t path j) fun xs => ∀ x ∈ xs, x.Neat t.dialect N (A []) := by
  obtain ⟨place, name, parent, rfl, within, here⟩ := joinFrom_inv found
  rw [dropLast_concat] at own
  have inner : t.tree.root.within? (place ++ [name]) = some j.source.fields := Namespace.within?_join within here
  refine (joinConditions_exactly g.sound g.numbers within here).weaken fun xs jointly x mem => (jointly.neat x mem).mono ?_
  rintro table column ⟨rest, mentions, rfl⟩
  cases mentions with
  | correlation is mentions => exact g.mentioned mentions within (own _ is)
  | key _ _ mentions =>
    rw [append_cons]
    exact g.mentioned mentions inner Expr.columns_field
  | filter mem mentions =>
    rw [append_cons]
    exact g.mentioned mentions inner (rows _ mem)

end Grounds

end SemanticLayer.Plan
