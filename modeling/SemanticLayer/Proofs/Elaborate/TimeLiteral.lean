import SemanticLayer.Elaborate.TimeLiteral
import Mathlib.Data.List.Basic

/-!
Which texts are time literals, and what each of them stands for. The date or timestamp that is read is itself such a
text: it is read again as what it is, to the day or to the second.
-/
namespace SemanticLayer.TimeLiteral

open List

def digits (n : Nat) : List Char := [Nat.digitChar (n / 10), Nat.digitChar (n % 10)]

def dateText (year : List Char) (month day : Nat) : String :=
  String.ofList year ++ "-" ++ pad month ++ "-" ++ pad day

def momentText (date : String) (hour minute second : Nat) : String :=
  date ++ " " ++ pad hour ++ ":" ++ pad minute ++ ":" ++ pad second

def dateDigits (month day : Nat) : List Char := '-' :: digits month ++ '-' :: digits day

def clockDigits (hour minute : Nat) : List Char := digits hour ++ ':' :: digits minute

def IsYear (year : List Char) : Prop := year.length = 4 ∧ ∀ c ∈ year, Text.isDecimalDigit c = true

def IsDate (month day : Nat) : Prop := (1 ≤ month ∧ month ≤ 12) ∧ 1 ≤ day ∧ day ≤ 31

def IsClock (hour minute second : Nat) : Prop := hour ≤ 23 ∧ minute ≤ 59 ∧ second ≤ 59

def IsFraction (cs : List Char) : Prop :=
  cs = [] ∨ ∃ places, cs = '.' :: places ∧ places ≠ [] ∧ ∀ c ∈ places, Text.isDecimalDigit c = true

/-- What may follow the year, and what the whole then stands for. -/
inductive Written (year : List Char) : List Char → Literal × TimeUnit → Prop where
  | year : Written year [] (.date (dateText year 1 1), .year)
  | quarter (quarter : Nat) (range : 1 ≤ quarter ∧ quarter ≤ 4) :
      Written year ['-', 'Q', Nat.digitChar quarter] (.date (dateText year (3 * quarter - 2) 1), .quarter)
  | month {month : Nat} (range : 1 ≤ month ∧ month ≤ 12) :
      Written year ('-' :: digits month) (.date (dateText year month 1), .month)
  | day {month day : Nat} (date : IsDate month day) :
      Written year (dateDigits month day) (.date (dateText year month day), .day)
  | minute {month day hour minute : Nat} {separator : Char} (date : IsDate month day) (clock : IsClock hour minute 0)
      (separates : separator = ' ' ∨ separator = 'T') :
      Written year (dateDigits month day ++ separator :: clockDigits hour minute)
        (.timestamp (momentText (dateText year month day) hour minute 0), .minute)
  | second {month day hour minute second : Nat} {separator : Char} {fraction : List Char} (date : IsDate month day)
      (clock : IsClock hour minute second) (separates : separator = ' ' ∨ separator = 'T')
      (fractional : IsFraction fraction) :
      Written year (dateDigits month day ++ separator :: (clockDigits hour minute ++ ':' :: (digits second ++ fraction)))
        (.timestamp (momentText (dateText year month day) hour minute second), .second)

theorem digitChar_toNat : ∀ n < 10, (Nat.digitChar n).toNat = 48 + n := by decide

theorem isDigit_iff : c.isDigit = true ↔ ∃ n < 10, c = Nat.digitChar n := by
  have bounds : c.isDigit = true ↔ 48 ≤ c.toNat ∧ c.toNat ≤ 57 := by simp [Char.isDigit, UInt32.le_iff_toNat_le]
  rw [bounds]
  constructor
  · intro range
    refine ⟨c.toNat - 48, by omega, Char.toNat_inj.mp ?_⟩
    rw [digitChar_toNat _ (by omega)]
    omega
  · rintro ⟨n, small, rfl⟩
    rw [digitChar_toNat n small]
    omega

theorem twoDigits?_digits (small : high < 100) (range : low ≤ n ∧ n ≤ high) :
    twoDigits? low high (Nat.digitChar (n / 10)) (Nat.digitChar (n % 10)) = some n := by
  have tens : n / 10 < 10 := by omega
  have ones : n % 10 < 10 := by omega
  simp [twoDigits?, isDigit_iff.mpr ⟨_, tens, rfl⟩, isDigit_iff.mpr ⟨_, ones, rfl⟩, digitChar_toNat _ tens,
    digitChar_toNat _ ones, Nat.div_add_mod', range]

theorem digits_of_twoDigits? (read : twoDigits? low high a b = some n) : [a, b] = digits n ∧ low ≤ n ∧ n ≤ high := by
  unfold twoDigits? at read
  split at read
  · next both =>
    rw [Bool.and_eq_true, isDigit_iff, isDigit_iff] at both
    obtain ⟨⟨i, tens, rfl⟩, j, ones, rfl⟩ := both
    have value : (48 + i - '0'.toNat) * 10 + (48 + j - '0'.toNat) = i * 10 + j := by simp
    simp only [digitChar_toNat i tens, digitChar_toNat j ones, value] at read
    split at read
    · next range =>
      cases read
      have parts : (i * 10 + j) / 10 = i ∧ (i * 10 + j) % 10 = j := by omega
      exact ⟨by rw [digits, parts.1, parts.2], by simpa using range⟩
    · cases read
  · cases read

theorem dateText_month : dateText year month 1 = String.ofList year ++ "-" ++ pad month ++ "-01" := by
  rw [dateText, String.append_assoc, show "-" ++ pad 1 = "-01" from rfl]

theorem dateText_year : dateText year 1 1 = String.ofList year ++ "-01-01" := by
  rw [dateText_month, String.append_assoc, String.append_assoc, show "-" ++ (pad 1 ++ "-01") = "-01-01" from rfl]

theorem momentText_minute : momentText date hour minute 0 = date ++ " " ++ pad hour ++ ":" ++ pad minute ++ ":00" := by
  rw [momentText, String.append_assoc, show ":" ++ pad 0 = ":00" from rfl]

theorem read_date (date : IsDate month day) :
    afterYear? stem (dateDigits month day ++ cs) = afterDay? (stem ++ "-" ++ pad month ++ "-" ++ pad day) cs := by
  simp [dateDigits, digits, afterYear?, afterMonth?, twoDigits?_digits (by decide) date.1, twoDigits?_digits (by decide) date.2]

theorem read_clock (clock : IsClock hour minute second) (separates : separator = ' ' ∨ separator = 'T') :
    afterDay? stem (separator :: (clockDigits hour minute ++ cs)) =
      afterMinute? (stem ++ " " ++ pad hour ++ ":" ++ pad minute) cs := by
  simp [clockDigits, digits, afterDay?, separates, twoDigits?_digits (by decide : 23 < 100) ⟨Nat.zero_le _, clock.1⟩,
    twoDigits?_digits (by decide : 59 < 100) ⟨Nat.zero_le _, clock.2.1⟩]

theorem read_written (written : Written year cs r) : afterYear? (String.ofList year) cs = some r := by
  cases written with
  | year =>
    rw [dateText_year]
    rfl
  | quarter quarter range =>
    rw [dateText_month]
    obtain rfl | rfl | rfl | rfl : quarter = 1 ∨ quarter = 2 ∨ quarter = 3 ∨ quarter = 4 := by omega
    all_goals rfl
  | month range =>
    rw [dateText_month]
    simp [digits, afterYear?, afterMonth?, twoDigits?_digits (by decide) range]
  | @day month day date =>
    rw [← append_nil (dateDigits month day), read_date date]
    rfl
  | @minute month day hour minute _ date clock separates =>
    rw [read_date date, ← append_nil (clockDigits hour minute), read_clock clock separates, momentText_minute]
    rfl
  | second date clock separates fractional =>
    rw [read_date date, read_clock clock separates]
    simp only [digits, cons_append, afterMinute?, twoDigits?_digits (by decide : 59 < 100) ⟨Nat.zero_le _, clock.2.2⟩]
    rcases fractional with rfl | ⟨places, rfl, nonempty, decimal⟩
    · rfl
    · have all : (!places.isEmpty && places.all Text.isDecimalDigit) = true := by simpa [nonempty] using decimal
      exact if_pos all

theorem afterMinute?_written (date : IsDate month day) (clock : IsClock hour minute 0)
    (separates : separator = ' ' ∨ separator = 'T')
    (read : afterMinute? (dateText year month day ++ " " ++ pad hour ++ ":" ++ pad minute) cs = some r) :
    Written year (dateDigits month day ++ separator :: (clockDigits hour minute ++ cs)) r := by
  unfold afterMinute? at read
  split at read
  · cases read
    rw [← momentText_minute]
    exact .minute date clock separates
  · next a b rest =>
    obtain ⟨second, isSecond, after⟩ := Option.bind_eq_some_iff.mp read
    obtain ⟨is, _, range⟩ := digits_of_twoDigits? isSecond
    have seconds (fractional : IsFraction rest)
        (after : some (.timestamp (momentText (dateText year month day) hour minute second), .second) = some r) :
        Written year (dateDigits month day ++ separator :: (clockDigits hour minute ++ ':' :: a :: b :: rest)) r := by
      rw [show a :: b :: rest = [a, b] ++ rest from rfl, is, ← Option.some.inj after]
      exact .second date ⟨clock.1, clock.2.1, range⟩ separates fractional
    split at after
    · exact seconds (.inl rfl) after
    · split at after
      · next places => exact seconds (.inr ⟨_, rfl, by simpa using places⟩) after
      · cases after
    · cases after
  · cases read

theorem afterDay?_written (date : IsDate month day) (read : afterDay? (dateText year month day) cs = some r) :
    Written year (dateDigits month day ++ cs) r := by
  unfold afterDay? at read
  split at read
  · cases read
    exact .day date
  · split at read
    · next separates =>
      obtain ⟨hour, isHour, read⟩ := Option.bind_eq_some_iff.mp read
      obtain ⟨minute, isMinute, read⟩ := Option.bind_eq_some_iff.mp read
      obtain ⟨hours, _, hourly⟩ := digits_of_twoDigits? isHour
      obtain ⟨minutes, _, minutely⟩ := digits_of_twoDigits? isMinute
      have written := afterMinute?_written date ⟨hourly, minutely, Nat.zero_le _⟩ (by simpa using separates) read
      rwa [clockDigits, ← hours, ← minutes] at written
    · cases read
  · cases read

theorem afterYear?_written (read : afterYear? (String.ofList year) cs = some r) : Written year cs r := by
  unfold afterYear? at read
  split at read
  · cases read
    rw [← dateText_year]
    exact .year
  · obtain ⟨month, isMonth, read⟩ := Option.bind_eq_some_iff.mp read
    cases read
    rw [← dateText_month]
    unfold quarterMonth? at isMonth
    split at isMonth <;> cases isMonth
    exacts [.quarter 1 (by decide), .quarter 2 (by decide), .quarter 3 (by decide), .quarter 4 (by decide)]
  · obtain ⟨month, isMonth, read⟩ := Option.bind_eq_some_iff.mp read
    obtain ⟨is, range⟩ := digits_of_twoDigits? isMonth
    unfold afterMonth? at read
    split at read
    · cases read
      rw [is, ← dateText_month]
      exact .month range
    · obtain ⟨day, isDay, read⟩ := Option.bind_eq_some_iff.mp read
      obtain ⟨days, daily⟩ := digits_of_twoDigits? isDay
      have written := afterDay?_written ⟨range, daily⟩ read
      rwa [dateDigits, ← is, ← days] at written
    · cases read
  · cases read

theorem decimal_apart (decimal : Text.isDecimalDigit c = true) : Text.isBlank c = false ∧ c ≠ '@' := by
  obtain ⟨first, mem, range⟩ := any_eq_true.mp decimal
  have bounds : first ≤ c.toNat ∧ c.toNat ≤ first + 9 := by simpa using range
  have apart : ∀ first ∈ Text.zeroDigits, ∀ i < 10, ∀ r ∈ (64, 64) :: Text.blankRanges,
      ¬(r.1 ≤ first + i ∧ first + i ≤ r.2) := by decide
  have none := apart first mem (c.toNat - first) (by omega)
  rw [Nat.add_sub_cancel' bounds.1] at none
  constructor
  · rw [Text.isBlank, any_eq_false]
    intro r mem
    simpa using none r (mem_cons_of_mem _ mem)
  · rintro rfl
    exact none _ mem_cons_self ⟨by decide, by decide⟩

theorem IsYear.apart (isYear : IsYear year) : ∃ c rest, year = c :: rest ∧ Text.isBlank c = false ∧ c ≠ '@' := by
  rcases year with _ | ⟨first, others⟩
  · cases isYear.1
  · exact ⟨first, others, rfl, decimal_apart (isYear.2 _ mem_cons_self)⟩

theorem ofChars?_iff : ofChars? cs = some r ↔ ∃ year rest, IsYear year ∧ Written year rest r ∧ cs = year ++ rest := by
  constructor
  · intro read
    unfold ofChars? at read
    split at read
    · next a b c d rest =>
      split at read
      · next decimal => exact ⟨[a, b, c, d], rest, ⟨rfl, all_eq_true.mp decimal⟩, afterYear?_written read, rfl⟩
      · cases read
    · cases read
  · rintro ⟨year, rest, ⟨length, decimal⟩, written, rfl⟩
    rcases year with _ | ⟨a, _ | ⟨b, _ | ⟨c, _ | ⟨d, _ | _⟩⟩⟩⟩ <;> cases length
    exact (if_pos (all_eq_true.mpr decimal)).trans (read_written written)

theorem read?_iff : read? text = some r ↔ ∃ year rest, IsYear year ∧ Written year rest r ∧
    (Text.trim text.toList = year ++ rest ∨ Text.trim text.toList = '@' :: (year ++ rest)) := by
  unfold read?
  split
  · next rest is =>
    rw [ofChars?_iff, is]
    refine exists_congr fun year => exists_congr fun rest => and_congr_right fun isYear => and_congr_right fun _ => ?_
    obtain ⟨c, others, rfl, _, signless⟩ := isYear.apart
    simp [signless.symm]
  · next signed =>
    rw [ofChars?_iff]
    exact exists_congr fun year => exists_congr fun rest => and_congr_right fun _ => and_congr_right fun _ =>
      (or_iff_left (signed _)).symm

theorem pad_toList : ∀ n < 100, (pad n).toList = digits n := by decide

theorem dropWhile_blank {cs : List Char} (opens : ∀ c ∈ cs.head?, Text.isBlank c = false) : cs.dropWhile Text.isBlank = cs := by
  cases cs with
  | nil => rfl
  | cons c rest => rw [dropWhile_cons_of_neg (by simp [opens c rfl])]

/-- A text that starts with a year and ends with two digits is read as it stands. -/
theorem read?_canonical (isYear : IsYear year) (written : Written year (cs ++ digits n) r)
    (is : text.toList = year ++ (cs ++ digits n)) : read? text = some r := by
  have decimal : ∀ i < 10, Text.isDecimalDigit (Nat.digitChar i) = true := by decide
  have last := (decimal_apart (decimal (n % 10) (Nat.mod_lt _ (by decide)))).1
  obtain ⟨c, others, rfl, first, _⟩ := isYear.apart
  refine read?_iff.mpr ⟨_, _, isYear, written, .inl ?_⟩
  have opens : (c :: others ++ (cs ++ digits n)).dropWhile Text.isBlank = _ := dropWhile_blank (by simpa using first)
  rw [is, Text.trim, opens, dropWhile_blank (by simpa [digits] using last), reverse_reverse]

theorem dateText_toList (date : IsDate month day) : (dateText year month day).toList = year ++ dateDigits month day := by
  obtain ⟨⟨_, monthly⟩, _, daily⟩ := date
  simp [dateText, dateDigits, pad_toList month (by omega), pad_toList day (by omega)]

theorem date_again (isYear : IsYear year) (date : IsDate month day) :
    read? (dateText year month day) = some (.date (dateText year month day), .day) := by
  have written : Written year _ _ := .day date
  rw [dateDigits, append_cons] at written
  exact read?_canonical isYear written (by simp [dateText_toList date, dateDigits])

theorem moment_again (isYear : IsYear year) (date : IsDate month day) (clock : IsClock hour minute second) :
    read? (momentText (dateText year month day) hour minute second) =
      some (.timestamp (momentText (dateText year month day) hour minute second), .second) := by
  have written : Written year _ _ := .second date clock (.inl rfl) (.inl rfl)
  rw [append_cons _ ':', ← cons_append, ← append_assoc] at written
  obtain ⟨hourly, minutely, secondly⟩ := clock
  refine read?_canonical isYear written ?_
  simp [momentText, dateText_toList date, clockDigits, pad_toList hour (by omega), pad_toList minute (by omega),
    pad_toList second (by omega)]

/-- The texts that are time literals, what each of them stands for and to which unit, and that a date or timestamp so
written is read again as itself. -/
theorem time_literals_exact (text : String) :
    (∀ r, read? text = some r ↔ ∃ year rest, IsYear year ∧ Written year rest r ∧
      (Text.trim text.toList = year ++ rest ∨ Text.trim text.toList = '@' :: (year ++ rest))) ∧
    ∀ literal unit, read? text = some (literal, unit) →
      (∃ s, literal = .date s ∧ read? s = some (literal, .day)) ∨
        ∃ s, literal = .timestamp s ∧ read? s = some (literal, .second) := by
  refine ⟨fun r => read?_iff, fun literal unit read => ?_⟩
  have first : 1 ≤ 1 ∧ 1 ≤ 31 := by decide
  obtain ⟨year, rest, isYear, written, _⟩ := read?_iff.mp read
  cases written with
  | year => exact .inl ⟨_, rfl, date_again isYear ⟨by decide, first⟩⟩
  | quarter _ range => exact .inl ⟨_, rfl, date_again isYear ⟨by omega, first⟩⟩
  | month range => exact .inl ⟨_, rfl, date_again isYear ⟨range, first⟩⟩
  | day date => exact .inl ⟨_, rfl, date_again isYear date⟩
  | minute date clock => exact .inr ⟨_, rfl, moment_again isYear date clock⟩
  | second date clock => exact .inr ⟨_, rfl, moment_again isYear date clock⟩

end SemanticLayer.TimeLiteral
