import SemanticLayer.Sql.Layout
import SemanticLayer.Proofs.Sql.Parts
import Mathlib.Data.List.Basic

/-!
Where the numbers in the text of a statement come from: each is a literal of an expression in it, or a limit.
A number that is spelled without a sign cannot be a part of what starts a comment.
-/
namespace SemanticLayer.Sql

open List hiding after

section Sizes

theorem Expr.part_smaller {e : Expr} (mem : p ∈ e.parts) : sizeOf p < sizeOf e := by
  cases e with
  | column | literal | star | raw | subquery => cases mem
  | unary | isNull | cast | paren =>
    cases mem_singleton.mp mem
    simp +arith
  | binary | nullSafeEq => rcases mem_pair.mp mem with rfl | rfl <;> simp +arith
  | call _ parts | sequence parts =>
    have smaller := sizeOf_lt_of_mem (show p ∈ parts from mem)
    simp
    omega
  | choose operand arms otherwise =>
    simp only [parts, mem_append, mem_flatMap, Option.mem_toList, mem_pair] at mem
    rcases mem with (rfl | ⟨⟨a, b⟩, given, rfl | rfl⟩) | rfl
    · simp +arith
    · have smaller := sizeOf_lt_of_mem given
      simp at smaller ⊢
      omega
    · have smaller := sizeOf_lt_of_mem given
      simp at smaller ⊢
      omega
    · simp +arith
  | isIn a values =>
    rcases mem_cons.mp mem with rfl | mem
    · simp +arith
    · have smaller := sizeOf_lt_of_mem mem
      simp
      omega
  | window function partitionBy orderBy =>
    simp only [parts, cons_append, mem_cons, mem_append, mem_map] at mem
    rcases mem with rfl | mem | ⟨⟨e, _, _⟩, given, rfl⟩
    · simp +arith
    · have smaller := sizeOf_lt_of_mem mem
      simp
      omega
    · have smaller := sizeOf_lt_of_mem given
      simp at smaller ⊢
      omega

theorem Expr.subquery_smaller (occurs : (subquery r).Occurs e) : sizeOf r < sizeOf e := by
  induction occurs with
  | here => simp
  | part mem _ ih => exact Nat.lt_trans ih (part_smaller mem)

variable {q : Query}

theorem Query.mem_exprs : e ∈ q.exprs ↔ (∃ item ∈ q.items, item.expr = e) ∨
    (∃ j ∈ q.joins, j.condition = some e) ∨ q.condition = some e ∨ e ∈ q.groupBy ∨ q.having = some e ∨
      ∃ o ∈ q.orderBy, o.expr = e := by
  simp [exprs]

theorem Query.expr_smaller (mem : e ∈ q.exprs) : sizeOf e < sizeOf q := by
  obtain ⟨ctes, items, source, joins, condition, groupBy, having, orderBy, limit, unions⟩ := q
  rw [mem_exprs] at mem
  rcases mem with ⟨⟨_, _⟩, mem, rfl⟩ | ⟨⟨_, _, _⟩, mem, rfl⟩ | rfl | mem | rfl | ⟨⟨_, _, _⟩, mem, rfl⟩
  case inr.inr.inl | inr.inr.inr.inr.inl => simp +arith
  all_goals
    have smaller := sizeOf_lt_of_mem mem
    simp at smaller ⊢
    omega

theorem Query.cte_smaller (mem : c ∈ q.ctes) : sizeOf c.query < sizeOf q := by
  have smaller := sizeOf_lt_of_mem mem
  cases q
  cases c
  simp at smaller ⊢
  omega

theorem Query.union_smaller (mem : u ∈ q.unions) : sizeOf u < sizeOf q := by
  have smaller := sizeOf_lt_of_mem mem
  cases q
  simp at smaller ⊢
  omega

theorem Query.table_smaller (mem : t ∈ q.tables) (is : t.relation = .subquery r) : sizeOf r < sizeOf q := by
  obtain ⟨ctes, items, source, joins, condition, groupBy, having, orderBy, limit, unions⟩ := q
  simp only [tables, mem_append, mem_map, Option.mem_toList] at mem
  rcases mem with rfl | ⟨⟨_, t, _⟩, mem, rfl⟩
  · cases t
    cases is
    simp +arith
  · have smaller := sizeOf_lt_of_mem mem
    cases t
    cases is
    simp at smaller ⊢
    omega

end Sizes

section Tokens

variable {d : Dialect} {text : String}

@[simp] theorem number_qualifier : Token.number text ∉ qualifier table := by
  cases table <;> simp [qualifier]

@[simp] theorem number_alias : Token.number text ∉ aliasTokens label := by
  cases label <;> simp [aliasTokens, spaced]

@[simp] theorem number_option :
    Token.number text ∈ exprOptionTokens d introduction e ↔
      ∃ x ∈ e.toList, Token.number text ∈ introduction ∨ Token.number text ∈ x.tokens d := by
  cases e <;> simp [exprOptionTokens]

@[simp] theorem number_tail : Token.number text ∈ exprTailTokens d es ↔ ∃ e ∈ es, Token.number text ∈ e.tokens d := by
  induction es <;> simp_all [exprTailTokens, comma]

@[simp] theorem number_list : Token.number text ∈ exprListTokens d es ↔ ∃ e ∈ es, Token.number text ∈ e.tokens d := by
  cases es <;> simp [exprListTokens]

@[simp] theorem number_sequence :
    Token.number text ∈ sequenceTokens d es ↔ ∃ e ∈ es, Token.number text ∈ e.tokens d := by
  induction es <;> simp_all [sequenceTokens]

@[simp] theorem number_arms : Token.number text ∈ armTokens d arms ↔
    ∃ arm ∈ arms, Token.number text ∈ arm.1.tokens d ∨ Token.number text ∈ arm.2.tokens d := by
  induction arms <;> simp_all [armTokens, spaced, or_assoc]

@[simp] theorem number_order {o : OrderTerm} :
    Token.number text ∈ o.tokens d ↔ Token.number text ∈ o.expr.tokens d := by
  obtain ⟨e, _ | _, _ | _ | _⟩ := o <;> simp [OrderTerm.tokens, directionTokens, nullsTokens]

@[simp] theorem number_orderTail :
    Token.number text ∈ orderTailTokens d orderBy ↔ ∃ o ∈ orderBy, Token.number text ∈ o.expr.tokens d := by
  induction orderBy <;> simp_all [orderTailTokens, comma]

@[simp] theorem number_orderBy :
    Token.number text ∈ orderTokens d orderBy ↔ ∃ o ∈ orderBy, Token.number text ∈ o.expr.tokens d := by
  cases orderBy <;> simp [orderTokens]

@[simp] theorem number_binary {op : BinaryOp} : Token.number text ∉ op.tokens := by
  cases op <;> simp [BinaryOp.tokens]

theorem Expr.number_part {e : Expr} (written : Token.number text ∈ e.tokens d) :
    e = .literal (.number text) ∨ (∃ r, e = .subquery r ∧ Token.number text ∈ r.tokens d) ∨
      ∃ p ∈ e.parts, Token.number text ∈ p.tokens d := by
  cases e with
  | literal value => cases value <;> simp_all [Expr.tokens, Literal.token]
  | unary op => cases op <;> simp_all [Expr.tokens, UnaryOp.tokens, parts]
  | binary op a b =>
    rw [Expr.tokens] at written
    split at written <;> simpa [comma, parts] using written
  | isIn a values negated =>
    rw [Expr.tokens] at written
    split at written
    · simp at written
    · cases negated <;> simpa [spaced, parts] using written
  | window function partitionBy orderBy =>
    simp only [Expr.tokens, spaced, parts, mem_append, mem_ite_nil_left, number_list,
      number_orderBy] at written ⊢
    grind
  | choose operand arms otherwise =>
    simp only [Expr.tokens, spaced, parts, mem_append, number_option, number_arms] at written ⊢
    grind
  | call function args distinct => cases distinct <;> simp_all [Expr.tokens, parts]
  | _ => simp_all [Expr.tokens, parts, spaced]

theorem Expr.number_occurs (e : Expr) (written : Token.number text ∈ e.tokens d) :
    (Expr.literal (.number text)).Occurs e ∨
      ∃ r, (Expr.subquery r).Occurs e ∧ Token.number text ∈ r.tokens d := by
  rcases e.number_part written with rfl | ⟨r, rfl, inside⟩ | ⟨p, mem, inside⟩
  · exact .inl .here
  · exact .inr ⟨r, .here, inside⟩
  · have := part_smaller mem
    rcases p.number_occurs inside with occurs | ⟨r, occurs, inside⟩
    · exact .inl (.part mem occurs)
    · exact .inr ⟨r, .part mem occurs, inside⟩
termination_by sizeOf e

@[simp] theorem number_item {item : SelectItem} :
    Token.number text ∈ item.tokens d ↔ Token.number text ∈ item.expr.tokens d := by
  cases item
  simp [SelectItem.tokens]

@[simp] theorem number_itemTail :
    Token.number text ∈ itemTailTokens d items ↔ ∃ item ∈ items, Token.number text ∈ item.expr.tokens d := by
  induction items <;> simp_all [itemTailTokens]

@[simp] theorem number_items :
    Token.number text ∈ itemTokens d items ↔ ∃ item ∈ items, Token.number text ∈ item.expr.tokens d := by
  cases items <;> simp [itemTokens]

@[simp] theorem number_table {t : TableRef} : Token.number text ∈ t.tokens d ↔
    ∃ r, t.relation = .subquery r ∧ Token.number text ∈ r.tokens d := by
  obtain ⟨_ | _ | _ | _, _⟩ := t <;> simp [TableRef.tokens, Relation.tokens]

@[simp] theorem number_source :
    Token.number text ∈ sourceTokens d source ↔ ∃ t ∈ source.toList, Token.number text ∈ t.tokens d := by
  cases source <;> simp [sourceTokens]

@[simp] theorem number_join {j : Join} : Token.number text ∈ j.tokens d ↔
    Token.number text ∈ j.table.tokens d ∨ ∃ e ∈ j.condition.toList, Token.number text ∈ e.tokens d := by
  cases j
  simp [Join.tokens, spaced]

@[simp] theorem number_joins :
    Token.number text ∈ joinTokens d joins ↔ ∃ j ∈ joins, Token.number text ∈ j.tokens d := by
  induction joins <;> simp_all [joinTokens]

@[simp] theorem number_cte {c : Cte} : Token.number text ∈ c.tokens d ↔ Token.number text ∈ c.query.tokens d := by
  cases c
  simp [Cte.tokens, spaced]

@[simp] theorem number_cteTail :
    Token.number text ∈ cteTailTokens d ctes ↔ ∃ c ∈ ctes, Token.number text ∈ c.query.tokens d := by
  induction ctes <;> simp_all [cteTailTokens]

@[simp] theorem number_ctes :
    Token.number text ∈ cteTokens d ctes ↔ ∃ c ∈ ctes, Token.number text ∈ c.query.tokens d := by
  cases ctes <;> simp [cteTokens]

@[simp] theorem number_unionTail :
    Token.number text ∈ unionTailTokens d unions ↔ ∃ u ∈ unions, Token.number text ∈ u.tokens d := by
  induction unions <;> simp_all [unionTailTokens]

@[simp] theorem number_unions :
    Token.number text ∈ unionTokens d unions ↔ ∃ u ∈ unions, Token.number text ∈ u.tokens d := by
  cases unions <;> simp [unionTokens]

theorem Query.number_part {q : Query} (written : Token.number text ∈ q.tokens d) :
    (∃ n : Nat, text = toString n) ∨ (∃ e ∈ q.exprs, Token.number text ∈ e.tokens d) ∨
      (∃ c ∈ q.ctes, Token.number text ∈ c.query.tokens d) ∨ (∃ u ∈ q.unions, Token.number text ∈ u.tokens d) ∨
      ∃ t ∈ q.tables, ∃ r, t.relation = .subquery r ∧ Token.number text ∈ r.tokens d := by
  obtain ⟨ctes, items, source, joins, condition, groupBy, having, orderBy, limit, unions⟩ := q
  simp only [Query.tokens, mem_append, number_ctes, mem_ite_nil_left, number_orderBy, mem_cons,
    not_mem_nil, reduceCtorEq, false_or] at written
  rcases written with ((listed | body) | ⟨_, o, mem, inside⟩) | limited
  · exact .inr (.inr (.inl listed))
  · split at body
    · simp only [mem_append, number_items, number_source, number_table, number_joins, number_join, number_option,
        number_list, mem_ite_nil_left, mem_cons, not_mem_nil, reduceCtorEq, false_or] at body
      rcases body with (((((⟨item, mem, inside⟩ | ⟨t, mem, inside⟩) | ⟨j, mem, inside | ⟨e, is, inside⟩⟩) |
        ⟨e, mem, inside⟩) | ⟨_, e, mem, inside⟩) | ⟨e, mem, inside⟩)
      · exact .inr (.inl ⟨_, mem_exprs.mpr (.inl ⟨item, mem, rfl⟩), inside⟩)
      · exact .inr (.inr (.inr (.inr ⟨t, mem_append_left _ mem, inside⟩)))
      · exact .inr (.inr (.inr (.inr ⟨j.table, mem_append_right _ (mem_map_of_mem mem), inside⟩)))
      · exact .inr (.inl ⟨e, mem_exprs.mpr (.inr (.inl ⟨j, mem, Option.mem_toList.mp is⟩)), inside⟩)
      · exact .inr (.inl ⟨e, mem_exprs.mpr (.inr (.inr (.inl (Option.mem_toList.mp mem)))), inside⟩)
      · exact .inr (.inl ⟨e, mem_exprs.mpr (.inr (.inr (.inr (.inl mem)))), inside⟩)
      · exact .inr (.inl ⟨e, mem_exprs.mpr (.inr (.inr (.inr (.inr (.inl (Option.mem_toList.mp mem)))))), inside⟩)
    · exact .inr (.inr (.inr (.inl (number_unions.mp body))))
  · exact .inr (.inl ⟨o.expr, mem_append_right _ (mem_map_of_mem mem), inside⟩)
  · cases limit with
    | none => cases limited
    | some n => exact .inl ⟨n, by simpa using limited⟩

theorem Query.number_within (q : Query) (written : Token.number text ∈ q.tokens d) :
    (∃ n : Nat, text = toString n) ∨ ∃ select : Query, select.Within q ∧ ∃ e ∈ select.exprs,
      (Expr.literal (.number text)).Occurs e := by
  have inner {r : Query} (inside : ∀ {x : Query}, x.Within r → x.Within q) (written : Token.number text ∈ r.tokens d)
      (smaller : sizeOf r < sizeOf q) : (∃ n : Nat, text = toString n) ∨ ∃ select : Query, select.Within q ∧
        ∃ e ∈ select.exprs, (Expr.literal (.number text)).Occurs e :=
    (r.number_within written).imp_right fun ⟨select, within, found⟩ => ⟨select, inside within, found⟩
  rcases q.number_part written with limit | ⟨e, mem, found⟩ | ⟨c, mem, found⟩ | ⟨u, mem, found⟩ |
    ⟨t, mem, r, is, found⟩
  · exact .inl limit
  · rcases e.number_occurs found with occurs | ⟨r, occurs, found⟩
    · exact .inr ⟨q, .self, e, mem, occurs⟩
    · exact inner (.expr mem occurs) found (Nat.lt_trans (Expr.subquery_smaller occurs) (expr_smaller mem))
  · exact inner (.cte mem) found (cte_smaller mem)
  · exact inner (.union mem) found (union_smaller mem)
  · exact inner (.table mem is) found (table_smaller mem is)
termination_by sizeOf q

end Tokens

section Numerals

def Digits (text : List Char) : Prop := text ≠ [] ∧ text.all Char.isDigit = true

def Suffix (marks : List (List Char)) (text : List Char) : Prop :=
  text = [] ∨ ∃ mark ∈ marks, ∃ digits, text = mark ++ digits ∧ Digits digits

def exponentMarks : List (List Char) := [['e'], ['e', '+'], ['e', '-'], ['E'], ['E', '+'], ['E', '-']]

/-- A number without a sign: digits, perhaps a fraction, and perhaps an exponent. -/
def Numeral (text : List Char) : Prop := ∃ whole fraction exponent, text = whole ++ fraction ++ exponent ∧
  Digits whole ∧ Suffix [['.']] fraction ∧ Suffix exponentMarks exponent

def commentOpeners : List (List Char) := [['-', '-'], ['/', '*'], ['/', '/'], ['#']]

theorem numeral_decimal (n : Nat) : Numeral (toString n).toList := by
  refine ⟨Nat.toDigits 10 n, [], [], by simp, ⟨Nat.toDigits_ne_nil, all_eq_true.mpr fun c mem => ?_⟩, .inl rfl,
    .inl rfl⟩
  exact Nat.isDigit_of_mem_toDigits (by decide) (by decide) mem

variable {c : Char}

theorem Digits.digit (given : Digits digits) (mem : c ∈ digits) : c.isDigit = true := all_eq_true.mp given.2 c mem

theorem Digits.count (given : Digits digits) (other : c.isDigit = false) : digits.count c = 0 :=
  count_eq_zero.mpr fun mem => by simp [given.digit mem] at other

theorem Suffix.count (mem : Suffix marks text) (other : c.isDigit = false) (few : ∀ mark ∈ marks, mark.count c ≤ n) :
    text.count c ≤ n := by
  rcases mem with rfl | ⟨mark, mem, digits, rfl, given⟩
  · simp
  · simpa [given.count other] using few mark mem

theorem Numeral.count (number : Numeral text) (other : c.isDigit = false) (fraction : ['.'].count c ≤ m)
    (exponent : ∀ mark ∈ exponentMarks, mark.count c ≤ n) : text.count c ≤ m + n := by
  obtain ⟨whole, _, _, rfl, given, point, scale⟩ := number
  have before := point.count other (by simpa using fraction)
  have after := scale.count other exponent
  simp only [count_append, given.count other]
  omega

/-- A number starts and ends with a digit, so a text without digits that meets it stands inside of it. -/
theorem Numeral.ends (number : Numeral text) :
    (∃ c rest, text = c :: rest ∧ c.isDigit = true) ∧ ∃ init c, text = init ++ [c] ∧ c.isDigit = true := by
  have ends (before : List Char) {digits : List Char} (given : Digits digits) :
      ∃ init c, before ++ digits = init ++ [c] ∧ c.isDigit = true := by
    obtain ⟨init, c, rfl⟩ := (eq_nil_or_concat digits).resolve_left given.1
    exact ⟨before ++ init, c, by simp, given.digit (by simp)⟩
  obtain ⟨whole, fraction, exponent, rfl, given, point, scale⟩ := number
  constructor
  · obtain ⟨c, rest, rfl⟩ := exists_cons_of_ne_nil given.1
    exact ⟨c, rest ++ fraction ++ exponent, by simp, given.digit mem_cons_self⟩
  · rcases scale with rfl | ⟨mark, _, digits, rfl, scale⟩
    · rcases point with rfl | ⟨mark, _, digits, rfl, point⟩
      · simpa using ends [] given
      · simpa using ends (whole ++ mark) point
    · simpa using ends (whole ++ fraction ++ mark) scale

theorem Numeral.no_opener (number : Numeral text) (opens : opener ∈ commentOpeners) : ¬opener <:+: text := by
  intro inside
  have apart (c : Char) {m n : Nat} (other : c.isDigit = false) (fraction : ['.'].count c ≤ m)
      (exponent : ∀ mark ∈ exponentMarks, mark.count c ≤ n) : opener.count c ≤ m + n :=
    Nat.le_trans (inside.sublist.count_le c) (number.count other fraction exponent)
  simp only [commentOpeners, mem_cons, not_mem_nil, or_false] at opens
  rcases opens with rfl | rfl | rfl | rfl
  · exact absurd (apart '-' (m := 0) (n := 1) (by decide) (by decide) (by decide)) (by decide)
  · exact absurd (apart '/' (m := 0) (n := 0) (by decide) (by decide) (by decide)) (by decide)
  · exact absurd (apart '/' (m := 0) (n := 0) (by decide) (by decide) (by decide)) (by decide)
  · exact absurd (apart '#' (m := 0) (n := 0) (by decide) (by decide) (by decide)) (by decide)

theorem opener_bare (opens : opener ∈ commentOpeners) (mem : c ∈ opener) : c.isDigit = false := by
  have bare : commentOpeners.all (fun opener => opener.all fun c => !c.isDigit) = true := by decide
  simpa using all_eq_true.mp (all_eq_true.mp bare opener opens) c mem

/-- Where a comment starts in a text, it starts before or after a number in it. -/
theorem Numeral.comment_apart (number : Numeral text) (opens : opener ∈ commentOpeners)
    (split : before ++ (text ++ after) = start ++ opener ++ rest) :
    start ++ opener <+: before ∨ opener ++ rest <:+ after := by
  obtain ⟨⟨first, tail, begins, firstDigit⟩, init, last, ends, lastDigit⟩ := number.ends
  rcases append_eq_append_iff.mp split with ⟨more, same, inside⟩ | ⟨_, same, _⟩
  · rcases append_eq_append_iff.mp same with ⟨part, rfl, rfl⟩ | ⟨skipped, rfl, rfl⟩
    · -- the opener starts before the number, so it would go on with the first digit
      cases more with
      | nil => exact .inl (by simp)
      | cons c more =>
        rw [begins] at inside
        have same : first = c := (List.cons.inj inside).1
        simp [same, opener_bare opens] at firstDigit
    · rw [List.append_assoc] at inside
      rcases append_eq_append_iff.mp inside with ⟨later, rfl, is⟩ | ⟨part, rfl, is⟩
      · exact .inr ⟨later, is.symm⟩
      · -- the opener starts in the number, so it would go on after the last digit
        rcases append_eq_append_iff.mp is with ⟨more, rfl, _⟩ | ⟨more, rfl, rfl⟩
        · exact (number.no_opener opens ⟨skipped, more, by simp⟩).elim
        · rcases eq_nil_or_concat part with rfl | ⟨part, c, rfl⟩
          · exact .inr ⟨[], by simp⟩
          · rw [concat_eq_append, ← List.append_assoc] at ends
            have same : c = last := singleton_inj.mp (append_inj' ends rfl).2
            simp [← same, opener_bare opens] at lastDigit
  · exact .inl ⟨_, same.symm⟩

theorem toList_spell (tokens : List Token) :
    (spell d tokens).toList = tokens.flatMap fun token => (token.text d).toList := by
  have from' (text : String) : (tokens.foldl (fun text token => text ++ token.text d) text).toList =
      text.toList ++ tokens.flatMap fun token => (token.text d).toList := by
    induction tokens generalizing text with
    | nil => simp
    | cons token rest ih => simp [ih]
  exact from' ""

end Numerals

end SemanticLayer.Sql
