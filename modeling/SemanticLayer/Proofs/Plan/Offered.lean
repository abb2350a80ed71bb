import SemanticLayer.Proofs.Plan.Aliases
import SemanticLayer.Proofs.Plan.Scope

/-!
What relations offer. The columns that a planned `SELECT` reads through the alias of a relation are stored in it, or
are a generated key; and where the relation is a query of the `WITH` list, its output has them.
-/
namespace SemanticLayer

open List

theorem Expr.columns_stored {e : Expr} (level : e.level? (Names.of ns) = some l) :
    e.Columns fun name => ns.stores name = true := by
  intro name occurs
  induction occurs generalizing l with
  | here =>
    rw [level?] at level
    split at level
    · next stored => exact stored
    · cases level
  | part mem _ ih =>
    obtain ⟨_, level, _⟩ := level_parts level _ mem
    exact ih level

theorem FieldsSound.definition_stored (sound : FieldsSound ns)
    (defined : Plan.definitionOf ns path = .ok (joins, owner, d)) :
    d.Columns fun name => owner.stores name = true := by
  obtain ⟨last, x, _, within, found, rfl⟩ := Namespace.definitionOf_iff.mp defined
  rcases found with found | found
  · cases (sound.within within).fits found with
    | defined fits => cases fits with | dimension level => exact Expr.columns_stored level
  · cases (sound.within within).fits found with
    | defined fits => cases fits with | measure level => exact Expr.columns_stored level

namespace Plan

section Owned

/-- The columns that a relation of a tree has under its alias: those stored in it, and a generated key. -/
def Owned (tree : JoinTree) (keyed : JoinPaths) (table : Option String) (name : String) : Prop :=
  ∃ path owner, tree.root.within? path = some owner ∧ table = some (aliasOf path) ∧
    (owner.stores name = true ∨ path ∈ keyed ∧ name = distinctKeyColumn)

variable {tree : JoinTree} {d : Dialect} {place : List String} {owner : Namespace}

theorem owned_of_level (within : tree.root.within? place = some owner) {e : Expr}
    (level : e.level? (Names.of owner) = some l) : e.Columns fun name => Owned tree [] (some (aliasOf place)) name :=
  fun _ occurs => ⟨place, owner, within, rfl, .inl (Expr.columns_stored level _ occurs)⟩

theorem join_within (found : tree.join path = .ok j) : tree.root.within? path = some j.source.fields := by
  obtain ⟨place, name, parent, rfl, within, found⟩ := joinFrom_inv found
  exact Namespace.within?_join within found

theorem keyAt_within (isKey : tree.keyAt path = .ok key) : ∃ owner, tree.root.within? path = some owner := by
  unfold JoinTree.keyAt at isKey
  split at isKey
  · next empty =>
    cases isEmpty_iff.mp empty
    exact ⟨_, rfl⟩
  · obtain ⟨j, join, _⟩ := map_eq_ok isKey
    exact ⟨_, join_within join⟩

theorem owned_grounds (sound : InputSound input) (numbers : input.fields.Numbers N)
    (spans : tree.Over (fun _ _ => True) input.fields input.key) :
    Grounds ⟨d, tree⟩ N (Owned tree) where
  sound := spans.root_eq ▸ sound.fields
  numbers := spans.root_eq ▸ numbers
  keyed := spans.key_eq ▸ spans.root_eq ▸ sound.key
  owns {place ns path joins owner definition} within defined name occurs := by
    have fields : FieldsSound tree.root := spans.root_eq ▸ sound.fields
    obtain ⟨_, _, _, inner, _⟩ := Namespace.definitionOf_iff.mp defined
    have there : tree.root.within? (place ++ joins) = some owner := by
      rw [Namespace.within?_append, within]
      exact inner
    exact ⟨_, owner, there, rfl, .inl ((fields.within within).definition_stored defined name occurs)⟩
  mono le := fun ⟨path, owner, within, is, has⟩ =>
    ⟨path, owner, within, is, has.imp_right fun ⟨mem, key⟩ => ⟨le mem, key⟩⟩
  generated {paths path} mem isKey := by
    obtain ⟨owner, within⟩ := keyAt_within isKey
    exact ⟨path, owner, within, rfl, .inr ⟨mem, rfl⟩⟩

theorem owned_joins (sound : FieldsSound tree.root) : JoinsOwn tree (Owned tree) := by
  intro path j found
  have there := join_within found
  obtain ⟨place, name, parent, rfl, within, here⟩ := joinFrom_inv found
  obtain ⟨source, correlated⟩ := (sound.within within).joined here
  rw [dropLast_concat]
  constructor
  · intro e is
    exact owned_of_level within (correlated.condition is)
  · intro f mem
    cases source with
    | mk _ _ _ _ rows _ => exact owned_of_level there (rows f mem)

theorem owned_root (levels : ∀ e ∈ exprs, ∃ l, e.level? (Names.of tree.root) = some l) :
    RootOwns (Owned tree) exprs := fun e mem =>
  have ⟨_, level⟩ := levels e mem
  owned_of_level rfl level

end Owned

section Offered

variable {F : Family} {d : Dialect} {ctes : List Sql.Cte}

/-- Names that end in a number, after something else, are told apart by it. -/
theorem numbered_injective (endsA : ∀ c ∈ a.toList.getLast?, c.isDigit = false)
    (endsB : ∀ c ∈ b.toList.getLast?, c.isDigit = false) {j : Nat} (same : a ++ toString i = b ++ toString j) :
    i = j := by
  have number {s : String} (ends : ∀ c ∈ s.toList.getLast?, c.isDigit = false) (k : Nat) :
      (s ++ toString k).toList.reverse.takeWhile Char.isDigit = (Nat.toDigits 10 k).reverse := by
    have digits : ∀ c ∈ (Nat.toDigits 10 k).reverse, c.isDigit = true := fun c mem =>
      Nat.isDigit_of_mem_toDigits (by decide) (by decide) (mem_reverse.mp mem)
    rw [String.toList_append, reverse_append, Nat.toString_eq_repr, Nat.toList_repr,
      takeWhile_append_of_pos digits]
    cases h : s.toList.reverse with
    | nil => simp
    | cons c rest =>
      have last : c ∈ s.toList.getLast? := by
        rw [← head?_reverse, h]
        rfl
      simp [ends c last]
  have digits : Nat.toDigits 10 i = Nat.toDigits 10 j := by
    rw [← reverse_inj, ← number endsA i, same, number endsB j]
  have value := congrArg (Nat.ofDigitChars 10 · 0) digits
  rwa [Nat.ofDigitChars_toDigits (by decide) (by decide), Nat.ofDigitChars_toDigits (by decide) (by decide)] at value

theorem widened_nodup (count : Nat) : ((List.range count).map fun i => s!"__u{i}").Nodup := by
  refine nodup_range.map fun i j same => ?_
  have ends : ∀ c ∈ "__u".toList.getLast?, c.isDigit = false := by simp
  exact numbered_injective ends ends same

theorem Listed.named (listed : Listed F d ctes) (mem : c ∈ ctes) :
    ∃ stem ∈ stems, ∃ i < ctes.length, c.name = s!"__{stem}{i}" := by
  induction listed with
  | nil => cases mem
  | @snoc ctes stem query before emitted named ih =>
    rw [length_append]
    rcases mem_append.mp mem with mem | mem
    · obtain ⟨stem, named, i, small, is⟩ := ih mem
      exact ⟨stem, named, i, Nat.lt_add_right _ small, is⟩
    · cases mem_singleton.mp mem
      exact ⟨stem, named, _, Nat.lt_succ_self _, rfl⟩

theorem Listed.names_nodup (listed : Listed F d ctes) : (ctes.map Sql.Cte.name).Nodup := by
  induction listed with
  | nil => exact nodup_nil
  | @snoc ctes stem query before emitted named ih =>
    rw [map_append, nodup_append]
    refine ⟨ih, nodup_singleton _, fun name mem other isLast same => ?_⟩
    cases mem_singleton.mp isLast
    obtain ⟨c, given, rfl⟩ := mem_map.mp mem
    obtain ⟨stem', named', i, small, is⟩ := before.named given
    have ends : ∀ stem ∈ stems, ∀ c ∈ ("__" ++ stem).toList.getLast?, c.isDigit = false := by simp [stems]
    have last : i = ctes.length := numbered_injective (ends stem' named') (ends stem named) (is.symm.trans same)
    omega

theorem offers_cte (names : (ctes.map Sql.Cte.name).Nodup) (mem : ⟨name, query⟩ ∈ ctes)
    (offers : Sql.Relation.Offers ctes (.cte name) columns) : columns = query.outputs := by
  cases offers with
  | cte mem' =>
    cases inj_on_of_nodup_map names mem mem' rfl
    rfl

theorem aliased_offers (offers : (aliased keyed path relation).relation.Offers ctes columns) :
    (∃ inner, relation.Offers ctes inner ∧ inner ⊆ columns) ∧ (path ∈ keyed → distinctKeyColumn ∈ columns) := by
  unfold aliased at offers
  split at offers
  · cases offers with
    | added items source inner =>
      cases items
      cases source
      exact ⟨⟨_, inner, subset_append_left _ _⟩, fun _ => mem_append_right _ mem_cons_self⟩
  · next fresh => exact ⟨⟨columns, offers, Subset.refl _⟩, fun mem => (fresh (by simpa using mem)).elim⟩

theorem Served.offers (names : (ctes.map Sql.Cte.name).Nodup) (sound : SourceSound s)
    (served : Served ctes s relation) (offers : relation.Offers ctes columns)
    (stored : Namespace.stores s.fields name = true) : name ∈ columns := by
  cases served with
  | table | text => cases offers
  | query origin mem outputs =>
    cases sound with
    | mk _ _ holds _ _ _ =>
      rw [offers_cte names mem offers, outputs]
      exact holds _ origin name stored

theorem Known.offers (names : (ctes.map Sql.Cte.name).Nodup) (known : Known F ctes input) {columns : List String}
    (offers : input.relation.Offers ctes columns) (stored : input.fields.stores name = true) : name ∈ columns := by
  cases known with
  | source given served =>
    cases F.sound given with
    | mk source _ _ _ => exact served.offers names source offers stored
  | columns mem outputs _ =>
    rw [offers_cte names mem offers, outputs]
    exact stores_ofResult stored

end Offered

section Frames

variable {F : Family} {d : Dialect} {ctes : List Sql.Cte} {input : Input} {tree : JoinTree} {frame : Frame}
  {conditions : List Sql.Expr} {keyed : JoinPaths}

theorem distinctAliases_of_flat (flat : Flat root) : root.DistinctAliases where
  separate path path' _ _ within within' _ := by
    rw [(flat.joinless.within within).1, (flat.joinless.within within').1]
  reserved path _ i within same := by
    obtain ⟨rfl, _⟩ := flat.joinless.within within
    have chars := congrArg String.toList same
    rw [String.toList_append] at chars
    cases chars

/-- No relation that the queries of a family read has joins with a common alias. -/
def Family.DistinctAliases (F : Family) : Prop := ∀ r, F.query r → Namespace.DistinctAliases r.source.fields

theorem Known.distinctAliases (known : Known F ctes input) (distinct : F.DistinctAliases) :
    input.fields.DistinctAliases := by
  rcases known.root with ⟨r, given, is⟩ | flat
  · exact is ▸ distinct r given
  · exact distinctAliases_of_flat flat

theorem aliased_listed (is : (aliased keyed path relation).relation = .cte name) : relation = .cte name := by
  unfold aliased at is
  split at is
  · cases is
  · exact is

theorem FrameOf.listed (known : Known F ctes input) (shared : FrameOf ctes t input conditions keyed frame)
    (mem : table ∈ (frame.query []).tables) (is : table.relation = .cte name) : ∃ query, ⟨name, query⟩ ∈ ctes := by
  rcases mem_append.mp mem with mem | mem
  · cases mem_singleton.mp mem
    rw [shared.source] at is
    exact known.listed (aliased_listed is)
  · obtain ⟨join, given, rfl⟩ := mem_map.mp mem
    obtain ⟨path, _, j, relation, conditions, at'⟩ := exists_of_forall₂ shared.joins given
    rw [at'.table] at is
    exact at'.served.listed (aliased_listed is)

section

variable (names : (ctes.map Sql.Cte.name).Nodup) (known : Known F ctes input) (root : tree.root = input.fields) (shared : FrameOf ctes ⟨d, tree⟩ input conditions keyed frame)

include names known root shared

theorem FrameOf.offers
    (mem : table ∈ (frame.query []).tables) :
    ∃ path owner, tree.root.within? path = some owner ∧ table.label = some (aliasOf path) ∧
      ∀ columns, table.relation.Offers ctes columns →
        ∀ name, owner.stores name = true ∨ path ∈ keyed ∧ name = distinctKeyColumn → name ∈ columns := by
  rcases mem_append.mp mem with mem | mem
  · cases mem_singleton.mp mem
    rw [shared.source]
    refine ⟨[], input.fields, by rw [root]; rfl, rfl, fun columns offers name has => ?_⟩
    obtain ⟨⟨inner, offers, le⟩, generated⟩ := aliased_offers offers
    rcases has with stored | ⟨mem, rfl⟩
    · exact le (known.offers names offers stored)
    · exact generated mem
  · obtain ⟨join, given, rfl⟩ := mem_map.mp mem
    obtain ⟨path, _, j, relation, conditions, at'⟩ := exists_of_forall₂ shared.joins given
    have sound : SourceSound j.source := by
      obtain ⟨place, name, parent, rfl, within, here⟩ := joinFrom_inv at'.found
      exact ((root ▸ known.sound.fields : FieldsSound tree.root).within within).joined here |>.1
    rw [at'.table]
    refine ⟨path, j.source.fields, join_within at'.found, rfl, fun columns offers name has => ?_⟩
    obtain ⟨⟨inner, offers, le⟩, generated⟩ := aliased_offers offers
    rcases has with stored | ⟨mem, rfl⟩
    · exact le (at'.served.offers names sound offers stored)
    · exact generated mem

theorem FrameOf.covered
    (distinct : tree.root.DistinctAliases) (owned : Owned tree keyed table name) :
    Sql.Query.Covered ctes (frame.query []).tables table name := by
  obtain ⟨path, owner, within, rfl, has⟩ := owned
  intro t mem label columns offers
  obtain ⟨path', owner', within', label', covers⟩ := shared.offers names known root mem
  have same : aliasOf path' = aliasOf path := Option.some.inj (label'.symm.trans label)
  cases distinct.separate _ _ _ _ within' within same
  rw [within] at within'
  cases within'
  exact covers columns offers name has

end

end Frames

end Plan

end SemanticLayer
