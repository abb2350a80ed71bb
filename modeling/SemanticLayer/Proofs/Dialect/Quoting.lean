import SemanticLayer.Dialect.Conventions
import Mathlib.Data.List.Basic

/-!
Quoted text, read back. A rule says how a quoted text is read: where it ends, and what it stands for. What the
dialects write for names and strings is read by their own rules as it was meant, except that in Snowflake a string
is written as if a backslash were an ordinary character.
-/
namespace SemanticLayer.Dialect

open List

structure QuoteRule where
  quote : Char
  doubles : Bool
  escapes : Bool
  deriving DecidableEq, Repr

namespace QuoteRule

/-- Reads what follows the opening quote: what the text stands for, and what follows its closing quote. -/
def readInside (r : QuoteRule) : List Char → Option (List Char × List Char)
  | [] => none
  | [c] => if c = r.quote then some ([], []) else none
  | c :: next :: rest =>
    if c = r.quote then
      if r.doubles ∧ next = r.quote then (r.readInside rest).map (Prod.map (c :: ·) id)
      else some ([], next :: rest)
    else if r.escapes ∧ c = '\x5c' then (r.readInside rest).map (Prod.map (next :: ·) id)
    else (r.readInside (next :: rest)).map (Prod.map (c :: ·) id)

def read (r : QuoteRule) : List Char → Option (List Char × List Char)
  | [] => none
  | c :: rest => if c = r.quote then r.readInside rest else none

end QuoteRule

def stringRule : Dialect → QuoteRule
  | duckdb | postgres => ⟨'\x27', true, false⟩
  | bigquery | mysql => ⟨'\x27', false, true⟩
  | snowflake => ⟨'\x27', true, true⟩

/-- How a dialect with names in doubled quotes reads a name. BigQuery is none of them. -/
def nameRule? : Dialect → Option QuoteRule
  | duckdb | postgres | snowflake => some ⟨'\x22', true, false⟩
  | mysql => some ⟨'\x60', true, false⟩
  | bigquery => none

namespace QuoteRule

variable {r : QuoteRule} {rest : List Char}

theorem readInside_plain (other : c ≠ r.quote) (plain : r.escapes = true → c ≠ '\x5c') (nonempty : more ≠ []) :
    r.readInside (c :: more) = (r.readInside more).map (Prod.map (c :: ·) id) := by
  obtain ⟨next, more, rfl⟩ := exists_cons_of_ne_nil nonempty
  rw [readInside, if_neg other, if_neg fun escaped => plain escaped.1 escaped.2]

theorem readInside_close (apart : r.doubles = true → rest.head? ≠ some r.quote) :
    r.readInside (r.quote :: rest) = some ([], rest) := by
  cases rest with
  | nil => simp [readInside]
  | cons next rest =>
    rw [readInside, if_pos rfl, if_neg]
    rintro ⟨doubles, rfl⟩
    exact apart doubles rfl

theorem readInside_pair (doubles : r.doubles = true) :
    r.readInside (r.quote :: r.quote :: rest) =
      (r.readInside rest).map (Prod.map (r.quote :: ·) id) := by
  rw [readInside, if_pos rfl, if_pos ⟨doubles, rfl⟩]

theorem readInside_escape (escapes : r.escapes = true) (other : r.quote ≠ '\x5c') :
    r.readInside ('\x5c' :: c :: rest) = (r.readInside rest).map (Prod.map (c :: ·) id) := by
  rw [readInside, if_neg other.symm, if_pos ⟨escapes, rfl⟩]

/-- Quotes that were written twice are read as one each, up to what follows. -/
theorem readInside_doubling (doubles : r.doubles = true) (nonempty : rest ≠ []) :
    ∀ {text : List Char}, (r.escapes = true → '\x5c' ∉ text) → r.readInside (doubling r.quote text ++ rest) =
      (r.readInside rest).map (Prod.map (text ++ ·) id)
  | [], _ => Option.map_id_apply.symm
  | c :: text, plain => by
    have later := readInside_doubling doubles nonempty fun escapes mem => plain escapes (mem_cons_of_mem c mem)
    rw [doubling]
    split
    · next isQuote =>
      subst isQuote
      rw [cons_append, cons_append, readInside_pair doubles, later, Option.map_map]
      rfl
    · next other =>
      rw [cons_append, readInside_plain other (fun escapes is => plain escapes (is ▸ mem_cons_self))
        (by simp [nonempty]), later, Option.map_map]
      rfl

theorem readInside_backslashing (escapes : r.escapes = true) (quote : r.quote = '\x27') (nonempty : rest ≠ []) :
    ∀ text : List Char, r.readInside (backslashing text ++ rest) =
      (r.readInside rest).map (Prod.map (text ++ ·) id)
  | [] => Option.map_id_apply.symm
  | c :: text => by
    have later := readInside_backslashing escapes quote nonempty text
    rw [backslashing]
    split
    · rw [cons_append, cons_append, readInside_escape escapes (by rw [quote]; decide), later,
        Option.map_map]
      rfl
    · next plain =>
      simp only [Bool.or_eq_true, decide_eq_true_eq, not_or] at plain
      rw [cons_append, readInside_plain (quote ▸ plain.1) (fun _ => plain.2) (by simp [nonempty]), later,
        Option.map_map]
      rfl

def weight (r : QuoteRule) : List Char → Nat
  | [] => 0
  | c :: rest => (if c = r.quote then 1 else 2) + r.weight rest

theorem weight_doubling (text rest : List Char) :
    r.weight (doubling r.quote text ++ r.quote :: rest) = 2 * text.length + 1 + r.weight rest := by
  induction text with
  | nil => simp [doubling, weight]
  | cons c text ih =>
    rw [doubling]
    split <;> simp_all [weight] <;> omega

/-- What is read was paid for: each character of it by a weight of two, the closing quote by its own. -/
theorem weight_readInside (read : r.readInside written = some (text, rest)) :
    2 * text.length + 1 + r.weight rest ≤ r.weight written := by
  fun_induction r.readInside written generalizing text rest with
  | case1 | case3 => cases read
  | case2 => cases read; simp [weight]
  | case4 next more pair ih =>
    obtain ⟨_, inner, same⟩ := Option.map_eq_some_iff.mp read
    cases same
    have paid := ih inner
    simp [weight, pair.2] at paid ⊢
    omega
  | case5 => cases read; simp [weight]
  | case6 c next more other escape ih =>
    obtain ⟨⟨text, rest⟩, inner, same⟩ := Option.map_eq_some_iff.mp read
    cases same
    have paid := ih inner
    simp [weight, other] at paid ⊢
    split <;> omega
  | case7 c next more other plain ih =>
    obtain ⟨⟨text, rest⟩, inner, same⟩ := Option.map_eq_some_iff.mp read
    cases same
    have paid := ih inner
    simp [weight, other] at paid ⊢
    omega

theorem doubling_append (quote : Char) (before after : List Char) :
    doubling quote (before ++ after) = doubling quote before ++ doubling quote after := by
  induction before with
  | nil => rfl
  | cons c before ih => rw [cons_append, doubling, doubling, ih]; split <;> rfl

/-- Where a backslash escapes, a text with one in it is not read back if only its quotes were written twice. -/
theorem backslash_lost (doubles : r.doubles = true) (escapes : r.escapes = true) (other : r.quote ≠ '\x5c')
    (mem : '\x5c' ∈ text) : r.readInside (doubling r.quote text ++ r.quote :: rest) ≠ some (text, rest) := by
  obtain ⟨before, after, rfl, first⟩ := eq_append_cons_of_mem mem
  rw [doubling_append, doubling, if_neg other.symm, append_assoc,
    readInside_doubling doubles (by simp) fun _ => first, cons_append]
  intro read
  obtain ⟨⟨text, left⟩, inner, same⟩ := Option.map_eq_some_iff.mp read
  obtain ⟨same, isRest⟩ := Prod.ext_iff.mp same
  obtain rfl : rest = left := isRest.symm
  cases append_cancel_left (show before ++ text = before ++ '\x5c' :: after from same)
  -- the backslash takes the character behind it, so too little is left to pay for the rest
  obtain ⟨c, more, is⟩ := exists_cons_of_ne_nil (l := doubling r.quote after ++ r.quote :: rest) (by simp)
  have weighs := r.weight_doubling after rest
  rw [is, readInside_escape escapes other] at inner
  rw [is] at weighs
  obtain ⟨_, later, same⟩ := Option.map_eq_some_iff.mp inner
  cases same
  have paid := weight_readInside later
  simp [weight] at paid weighs
  split at weighs <;> omega

theorem read_enclose (r : QuoteRule) (inside rest : List Char) :
    r.read ((enclose r.quote inside).toList ++ rest) = r.readInside (inside ++ r.quote :: rest) := by
  simp [enclose, read]

end QuoteRule

open QuoteRule

theorem quoteIdentifier_reads {d : Dialect} (rule : d.nameRule? = some r) (name : String)
    (apart : rest.head? ≠ some r.quote) :
    r.read ((d.quoteIdentifier name).toList ++ rest) = some (name.toList, rest) := by
  have is : d.conventions.identifierQuote = r.quote ∧ r.doubles = true ∧ r.escapes = false := by
    cases d <;> cases rule <;> decide
  rw [quoteIdentifier, is.1, read_enclose, readInside_doubling is.2.1 (by simp) (by simp [is.2.2]),
    readInside_close fun _ => apart]
  simp

/-- A string is read back as it was meant, unless a backslash escapes where it was written as it is. -/
theorem quoteString_reads_iff (d : Dialect) (text : String) (apart : rest.head? ≠ some '\x27') :
    d.stringRule.read ((d.quoteString text).toList ++ rest) = some (text.toList, rest) ↔
      (d = .snowflake → '\x5c' ∉ text.toList) := by
  have quote : d.stringRule.quote = '\x27' := by cases d <;> rfl
  have close : d.stringRule.readInside ('\x27' :: rest) = some ([], rest) :=
    quote ▸ readInside_close fun _ => quote ▸ apart
  cases escape : d.conventions.stringEscape with
  | doubled =>
    have doubles : d.stringRule.doubles = true := by cases d <;> first | rfl | cases escape
    have escapes : d.stringRule.escapes = true ↔ d = .snowflake := by cases d <;> cases escape <;> decide
    rw [quoteString, escape]
    rw [← quote, read_enclose]
    constructor
    · intro read isSnowflake mem
      exact backslash_lost doubles (escapes.mpr isSnowflake) (by rw [quote]; decide) mem read
    · intro plain
      rw [readInside_doubling doubles (by simp) fun escaped => plain (escapes.mp escaped), quote, close]
      simp
  | backslash =>
    have escapes : d.stringRule.escapes = true := by cases d <;> first | rfl | cases escape
    have other : d ≠ .snowflake := by rintro rfl; cases escape
    rw [quoteString, escape]
    rw [← quote, read_enclose, readInside_backslashing escapes quote (by simp), quote, close]
    simp [other]

/-- What is quoted is read back by the dialect's own rules, and all of it: names without exception, strings unless
they have a backslash in Snowflake. What follows cannot change that, if it is no quote. -/
theorem quoting_reads_back (d : Dialect) (text : String) {rest : List Char}
    (apart : ∀ c ∈ rest.head?, c ≠ '\x27' ∧ c ≠ '\x22' ∧ c ≠ '\x60') :
    (d.stringRule.read ((d.quoteString text).toList ++ rest) = some (text.toList, rest) ↔
      (d = .snowflake → '\x5c' ∉ text.toList)) ∧
    ∀ r ∈ d.nameRule?, r.read ((d.quoteIdentifier text).toList ++ rest) = some (text.toList, rest) := by
  refine ⟨d.quoteString_reads_iff text fun first => (apart _ first).1 rfl, fun r rule => ?_⟩
  refine quoteIdentifier_reads rule text fun first => ?_
  have other := apart _ first
  have quote : r.quote = '\x22' ∨ r.quote = '\x60' := by cases d <;> cases rule <;> decide
  exact quote.elim other.2.1 other.2.2

theorem quoting_reads_back_ohare :
    (∀ c ∈ [',', ' '].head?, c ≠ '\x27' ∧ c ≠ '\x22' ∧ c ≠ '\x60') ∧
    (snowflake.stringRule.read ((snowflake.quoteString "O'Hare").toList ++ [',', ' ']) =
      some ("O'Hare".toList, [',', ' ']) ↔ (snowflake = .snowflake → '\x5c' ∉ "O'Hare".toList)) ∧
    ∀ r ∈ snowflake.nameRule?,
      r.read ((snowflake.quoteIdentifier "O'Hare").toList ++ [',', ' ']) = some ("O'Hare".toList, [',', ' ']) := by
  have apart : ∀ c ∈ [',', ' '].head?, c ≠ '\x27' ∧ c ≠ '\x22' ∧ c ≠ '\x60' := by simp
  exact ⟨apart, quoting_reads_back snowflake "O'Hare" apart⟩

/-- In Snowflake, the quote that should end the string of a backslash belongs to the string. -/
theorem snowflake_backslash_open :
    snowflake.stringRule.read (snowflake.quoteString "\x5c").toList = none := by decide

end SemanticLayer.Dialect
