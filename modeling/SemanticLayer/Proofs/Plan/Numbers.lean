import SemanticLayer.Proofs.Plan.Scope
import SemanticLayer.Proofs.Sql.Numbers

/-!
The numbers of a planned statement. Nothing looks at the spelling of a number on its way from a model to a
statement: it is written as it stands there. Where a model spells its numbers without a sign, none of them can
start a comment.
-/
namespace SemanticLayer

/-- The numbers in the expressions of a query: its stages, the filters of its source, and what the fields of the
source come to. -/
inductive Query.HasNumber (q : Query) (text : String) : Prop where
  | stage {ns : Namespace} {e : Expr} (reads : StagesRead q.source.fields q.stages ns e)
      (occurs : (Expr.number text).Occurs e) : q.HasNumber text
  | filter {f : Filter} (mem : f ∈ q.source.filters) (occurs : (Expr.number text).Occurs f.expr) : q.HasNumber text
  | definition {place path joins : List String} {ns owner : Namespace} {e : Expr}
      (within : Namespace.within? q.source.fields place = some ns)
      (defined : Plan.definitionOf ns path = .ok (joins, owner, e)) (occurs : (Expr.number text).Occurs e) :
      q.HasNumber text
  | condition {place : List String} {parent : Namespace} {name : String} {j : Join} {e : Expr}
      (within : Namespace.within? q.source.fields place = some parent)
      (found : parent.lookup? name = some (.join j)) (is : e ∈ j.correlation.condition?)
      (occurs : (Expr.number text).Occurs e) : q.HasNumber text
  | restriction {place : List String} {parent : Namespace} {name : String} {j : Join} {f : Filter}
      (within : Namespace.within? q.source.fields place = some parent)
      (found : parent.lookup? name = some (.join j)) (mem : f ∈ j.source.filters)
      (occurs : (Expr.number text).Occurs f.expr) : q.HasNumber text

/-- The spellings that planning a query can write: those of the queries that it reads, and plain decimals. -/
def Query.Writes (q : Query) (text : String) : Prop :=
  (∃ n : Nat, text = toString n) ∨ ∃ r, q.Over r ∧ r.HasNumber text

theorem StageReads.among (mem : stage ∈ stages) (reads : StageReads other stage owner e) :
    ∃ owner, StagesRead ns stages owner e := by
  induction stages generalizing ns with
  | nil => cases mem
  | cons first rest ih =>
    rcases List.mem_cons.mp mem with rfl | mem
    · exact (reads.elsewhere ns).imp fun _ reads => .first reads
    · exact (ih mem).imp fun _ reads => .later reads

namespace Plan

def numbersOver (q : Query) : Family where
  query := (queriesOver q).query
  stage s := ∀ ns owner e, StageReads ns s owner e → e.Numbers q.Writes
  sound := (queriesOver q).sound
  stages {r inner} given mem ns owner e reads text occurs := by
    obtain ⟨owner, reads⟩ := reads.among mem
    exact .inr ⟨r, given.2, .stage reads occurs⟩
  nested given mem inner ns owner e reads := by
    obtain ⟨owner, reads⟩ := reads.among inner
    exact given ns owner e (.nest mem reads)
  source := (queriesOver q).source
  joined := (queriesOver q).joined
  number := q.Writes
  decimal n := .inl ⟨n, rfl⟩
  fields {r} given := by
    refine ⟨fun within defined _ occurs => ?_, fun within found _ is _ occurs => ?_, fun within found _ mem _ occurs => ?_⟩
    · exact .inr ⟨r, given.2, .definition within defined occurs⟩
    · exact .inr ⟨r, given.2, .condition within found is occurs⟩
    · exact .inr ⟨r, given.2, .restriction within found mem occurs⟩
  rows given f mem _ occurs := .inr ⟨_, given.2, .filter mem occurs⟩
  exprs given e mem := given .empty .empty e (.own mem)

theorem PieceExpr.number (piece : PieceExpr F d ctes e) (occurs : (Sql.Expr.literal (.number text)).Occurs e) :
    F.number text := by
  rcases piece with neat | ⟨query, _, rfl⟩
  · exact neat _ occurs
  · cases occurs.leaf rfl

theorem statement_numbers (listed : Listed F d ctes) (emitted : Emitted F d ctes select)
    (written : .number text ∈ Sql.Query.tokens d { select with ctes, limit }) : F.number text := by
  rcases Sql.Query.number_within _ written with ⟨n, rfl⟩ | ⟨x, inside, e, mem, occurs⟩
  · exact F.decimal n
  · rcases statement_pieces listed emitted inside with piece | rfl
    · exact (piece.inner.exprs e mem).number occurs
    · exact (emitted.pieces e mem).number occurs

end Plan

/-- The numbers that are written into a statement are limits, or are spelled as the queries that it reads spell
them. Where those have no sign, what is written is a number, and it has no part in anything that starts a comment. -/
theorem numbers_written_verbatim {m : Model} (built : Elaborate.Built m) {q : Query} (recorded : m.Records q)
    {d : Dialect} {limit : Option Nat} {statement : Sql.Query} (planned : q.plan d limit = .ok statement)
    {before after : List Sql.Token} {text : String}
    (written : statement.tokens d = before ++ .number text :: after) :
    ((∃ n : Nat, text = toString n) ∨ ∃ r, q.Over r ∧ r.HasNumber text) ∧
    ((∀ r, q.Over r → ∀ text, r.HasNumber text → Sql.Numeral text.toList) →
      Sql.Numeral text.toList ∧ ∀ start opener rest, opener ∈ Sql.commentOpeners →
        (statement.text d).toList = start ++ opener ++ rest →
        start ++ opener <+: (Sql.spell d before).toList ∨ opener ++ rest <:+ (Sql.spell d after).toList) := by
  have sound : (Plan.numbersOver q).query q := ⟨(Elaborate.built_sound built).recorded recorded, .self⟩
  have inside : .number text ∈ statement.tokens d := by simp [written]
  obtain ⟨ctes, last, rfl, listed, emitted, _⟩ := Plan.plan_emitted sound planned
  have writes : q.Writes text := Plan.statement_numbers listed emitted inside
  refine ⟨writes, fun numerals => ?_⟩
  have number : Sql.Numeral text.toList := by
    rcases writes with ⟨n, rfl⟩ | ⟨r, reach, has⟩
    · exact Sql.numeral_decimal n
    · exact numerals r reach text has
  refine ⟨number, fun start opener rest opens split => number.comment_apart opens ?_⟩
  rw [← split, Sql.Query.text, written]
  simp [Sql.toList_spell, Sql.Token.text]

namespace Elaborate

def negated (text : String) : Document.Statement :=
  .query none
    ⟨.source (.table none "flights" default),
      [.stage ⟨[.project [.define ⟨⟨"grade", default⟩, ⟨.unary .neg ⟨.number text, default⟩, default⟩, default⟩]],
        default⟩], default⟩ default

def negatedQuery (text : String) : Query :=
  let location : Location := ⟨"file:///flights.model", default⟩
  ⟨none, ⟨"flights", .table "flights" none,
      Namespace.ofColumns [⟨"carrier", .string⟩, ⟨"origin", .string⟩] location, none, [], location⟩,
    [.project [.dimension ⟨"grade", .unary .neg (.number text), .number, location⟩] [] ⟨[], none, none⟩], location⟩

theorem negated_recorded : (document flights ⟨[negated text]⟩).Records (negatedQuery text) := by
  have queries : (document flights ⟨[negated text]⟩).queries = [.ok (negatedQuery text)] := by cbv
  exact .inr (queries ▸ List.mem_cons_self)

def negatedStatement (text : String) : Sql.Query :=
  { Sql.Query.empty with
    items := [.named (.unary .neg (.literal (.number text))) "grade"]
    source := some ⟨.table "flights", some "base"⟩ }

theorem negated_planned : (negatedQuery text).plan .duckdb none = .ok (negatedStatement text) := rfl

theorem negated_tokens (text : String) : ∃ before after,
    (negatedStatement text).tokens .duckdb = before ++ .symbol "-" :: .number text :: after :=
  ⟨[.symbol "SELECT", .newline, .indent], _, rfl⟩

theorem negated_over (reach : (negatedQuery text).Over r) : r = negatedQuery text := by
  have flat : Flat (negatedQuery text).source.fields := flat_ofColumns _ _
  induction reach with
  | self => rfl
  | source _ origin ih =>
    cases ih
    cases origin
  | joined _ within found _ ih =>
    cases ih
    obtain ⟨rfl, rfl⟩ := flat.joinless.within within
    exact (flat.joinless _ _ found).elim

theorem negated_numbers (has : (negatedQuery text).HasNumber t) : t = text := by
  have flat : Flat (negatedQuery text).source.fields := flat_ofColumns _ _
  have bare := flat.numbers (N := fun _ => False)
  cases has with
  | stage reads occurs =>
    cases reads with
    | later reads => cases reads
    | first reads =>
      cases reads with
      | nest mem => cases mem
      | own mem =>
        cases List.mem_singleton.mp mem
        cases occurs with
        | part mem occurs =>
          cases List.mem_singleton.mp mem
          cases occurs with
          | here => rfl
          | part mem => cases mem
  | filter mem => cases mem
  | definition within defined occurs => exact (bare.definition within defined t occurs).elim
  | condition within found is occurs => exact (bare.condition within found _ is t occurs).elim
  | restriction within found mem occurs => exact (bare.restriction within found _ mem t occurs).elim

theorem negated_verbatim : Built (document flights ⟨[negated "1.5e-3"]⟩) ∧
    (document flights ⟨[negated "1.5e-3"]⟩).Records (negatedQuery "1.5e-3") ∧
    (negatedQuery "1.5e-3").plan .duckdb none = .ok (negatedStatement "1.5e-3") ∧
    ∃ before after, (negatedStatement "1.5e-3").tokens .duckdb = before ++ .number "1.5e-3" :: after ∧
      Sql.Numeral "1.5e-3".toList ∧ ∀ start opener rest, opener ∈ Sql.commentOpeners →
        ((negatedStatement "1.5e-3").text .duckdb).toList = start ++ opener ++ rest →
        start ++ opener <+: (Sql.spell .duckdb before).toList ∨ opener ++ rest <:+ (Sql.spell .duckdb after).toList := by
  have built : Built (document flights ⟨[negated "1.5e-3"]⟩) := .document _ _ nofun
  have number : Sql.Numeral "1.5e-3".toList :=
    ⟨['1'], ['.', '5'], ['e', '-', '3'], by decide, ⟨List.cons_ne_nil _ _, rfl⟩,
      .inr ⟨['.'], List.mem_cons_self, ['5'], rfl, List.cons_ne_nil _ _, rfl⟩,
      .inr ⟨['e', '-'], by decide, ['3'], rfl, List.cons_ne_nil _ _, rfl⟩⟩
  obtain ⟨before, after, is⟩ := negated_tokens "1.5e-3"
  rw [List.append_cons] at is
  refine ⟨built, negated_recorded, negated_planned, _, after, is, ?_⟩
  refine (numbers_written_verbatim built negated_recorded negated_planned is).2 fun r reach t has => ?_
  cases negated_over reach
  exact negated_numbers has ▸ number

/-- Any text passes for a number, and comes to stand behind the sign. -/
theorem negated_injected : (∀ text, Built (document flights ⟨[negated text]⟩) ∧
      (document flights ⟨[negated text]⟩).Records (negatedQuery text) ∧
      (negatedQuery text).plan .duckdb none = .ok (negatedStatement text) ∧
      ∃ before after, ((negatedStatement text).text .duckdb).toList = before ++ '-' :: text.toList ++ after) ∧
    ∀ sign ∈ [[], ['+'], ['-']], ∀ digits, "1; DROP TABLE flights".toList = sign ++ digits →
      ¬Sql.Numeral digits := by
  constructor
  · intro text
    obtain ⟨before, after, is⟩ := negated_tokens text
    refine ⟨.document _ _ nofun, negated_recorded, negated_planned, (Sql.spell .duckdb before).toList,
      (Sql.spell .duckdb after).toList, ?_⟩
    rw [Sql.Query.text, is]
    simp [Sql.toList_spell, Sql.Token.text]
  · intro sign mem digits is number
    have none := number.count (c := ';') (m := 0) (n := 0) (by decide) (by decide) (by decide)
    have unsigned : ∀ sign ∈ [[], ['+'], ['-']], sign.count ';' = 0 := by decide
    have one : "1; DROP TABLE flights".toList.count ';' = 1 := by decide
    rw [is, List.count_append, unsigned sign mem] at one
    omega

end Elaborate

end SemanticLayer
