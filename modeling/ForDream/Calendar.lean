import ForDream.Lib.Decimal
import ForDream.Model
import Mathlib.Data.Prod.Lex
import Mathlib.Order.Basic

/-!
# Calendar dates and their texts

`WriteVC` takes the date of a dream from a date formatter of the format `yyyy-MM-dd`: the
year with at least four digits, month and day with two, filled up with zeros.  For the
years with four digits these texts are compared character by character as the dates they
stand for, so that sorting dreams by the text of their date is sorting them by date.
-/

namespace ForDream

open Model

/-- Whether February of a year has a 29th. -/
def isLeapYear (year : ℕ) : Bool :=
  year % 4 = 0 && (year % 100 ≠ 0 || year % 400 = 0)

/-- The number of days of a month. -/
def daysInMonth (year : ℕ) : ℕ → ℕ
  | 2 => if isLeapYear year then 29 else 28
  | 4 | 6 | 9 | 11 => 30
  | _ => 31

/-- A date of the Gregorian calendar, in the years 1 to 9999. -/
structure CalendarDate where
  year : ℕ
  month : ℕ
  day : ℕ
  year_pos : 1 ≤ year
  year_le : year ≤ 9999
  month_pos : 1 ≤ month
  month_le : month ≤ 12
  day_pos : 1 ≤ day
  day_le : day ≤ daysInMonth year month

/-- No month has more than 31 days. -/
theorem daysInMonth_le (year month : ℕ) :
  daysInMonth year month ≤ 31
  := by
  unfold daysInMonth
  split
  · split <;> decide
  · decide
  · decide
  · decide
  · decide
  · decide

namespace CalendarDate

/-- Year, month and day, to be compared in this order. -/
def triple (date : CalendarDate) : ℕ ×ₗ ℕ ×ₗ ℕ :=
  toLex (date.year, toLex (date.month, date.day))

theorem triple_injective :
  Function.Injective triple
  := by
  rintro ⟨year, month, day, _⟩ ⟨year', month', day', _⟩ h
  simp only [triple, EmbeddingLike.apply_eq_iff_eq, Prod.mk.injEq] at h
  obtain ⟨rfl, rfl, rfl⟩ := h
  rfl

/-- The chronological order. -/
instance : LinearOrder CalendarDate := LinearOrder.lift' triple triple_injective

theorem lt_iff {d e : CalendarDate} :
  d < e ↔ d.year < e.year ∨ (d.year = e.year
    ∧ (d.month < e.month ∨ (d.month = e.month ∧ d.day < e.day)))
  := by
  change d.triple < e.triple ↔ _
  rw [triple, triple, Prod.Lex.toLex_lt_toLex, Prod.Lex.toLex_lt_toLex]

/-- The characters of the text of a date. -/
def characters (date : CalendarDate) : List Char :=
  Decimal.padded 4 date.year ++ ('-' :: (Decimal.padded 2 date.month
    ++ ('-' :: Decimal.padded 2 date.day)))

/-- The text `yyyy-MM-dd` of a date, as the date formatter writes it. -/
def text (date : CalendarDate) : String := String.ofList date.characters

variable (d e : CalendarDate)

/-- The year fits four digits. -/
theorem year_lt :
  d.year < 10 ^ 4
  := Nat.lt_succ_of_le d.year_le

/-- The month fits two digits. -/
theorem month_lt :
  d.month < 10 ^ 2
  := Nat.lt_of_le_of_lt d.month_le (by decide)

/-- The day fits two digits. -/
theorem day_lt :
  d.day < 10 ^ 2
  := Nat.lt_of_le_of_lt (d.day_le.trans (daysInMonth_le _ _)) (by decide)

/-- Texts of dates are compared as the dates. -/
theorem text_lt_iff :
  d.text < e.text ↔ d < e
  := by
  have hyear : (Decimal.padded 4 d.year).length = (Decimal.padded 4 e.year).length := by
    rw [Decimal.length_padded d.year_lt, Decimal.length_padded e.year_lt]
  have hmonth : (Decimal.padded 2 d.month).length = (Decimal.padded 2 e.month).length := by
    rw [Decimal.length_padded d.month_lt, Decimal.length_padded e.month_lt]
  have hdash : ∀ us vs : List Char, '-' :: us < '-' :: vs ↔ us < vs := by
    intro us vs
    rw [List.cons_lt_cons_iff]
    simp
  rw [String.lt_iff_toList_lt, text, text, String.toList_ofList, String.toList_ofList,
    characters, characters, Decimal.append_lt_append_iff hyear, hdash,
    Decimal.append_lt_append_iff hmonth, hdash, Decimal.padded_lt_iff d.year_lt e.year_lt,
    Decimal.padded_inj d.year_lt e.year_lt, Decimal.padded_lt_iff d.month_lt e.month_lt,
    Decimal.padded_inj d.month_lt e.month_lt, Decimal.padded_lt_iff d.day_lt e.day_lt, lt_iff]

/-- Equal texts mean the same day. -/
theorem text_inj :
  d.text = e.text ↔ d = e
  := by
  constructor
  · intro h
    apply le_antisymm
    · rw [← not_lt, ← text_lt_iff, h]
      apply lt_irrefl
    · rw [← not_lt, ← text_lt_iff, h]
      apply lt_irrefl
  · intro h
    rw [h]

theorem text_le_iff :
  d.text ≤ e.text ↔ d ≤ e
  := by
  rw [← not_lt, ← not_lt, text_lt_iff]

/-- A text of a date has ten characters. -/
theorem length_characters :
  d.characters.length = 10
  := by
  rw [characters, List.length_append, List.length_cons, List.length_append, List.length_cons,
    Decimal.length_padded d.year_lt, Decimal.length_padded d.month_lt,
    Decimal.length_padded d.day_lt]

/-- The text of a date consists of digits and dashes. -/
theorem digit_or_dash {c : Char} (h : c ∈ d.characters) :
  c.isDigit ∨ c = '-'
  := by
  simp only [characters, List.mem_append, List.mem_cons] at h
  rcases h with h | rfl | h | rfl | h
  · left
    apply Decimal.isDigit_of_mem_padded h
  · right
    rfl
  · left
    apply Decimal.isDigit_of_mem_padded h
  · right
    rfl
  · left
    apply Decimal.isDigit_of_mem_padded h

end CalendarDate

/-- Sorting by the text of the date is sorting by date: texts are compared as the dates
they stand for, and the two orders of the container are permutations of it in
chronological and in reverse chronological order. -/
theorem chronological (S : Sorter Dream) (l : List Dream) (date : Dream → CalendarDate)
    (hdate : ∀ dream ∈ l, dream.writedDate = (date dream).text) :
  (∀ d e : CalendarDate, (d.text < e.text ↔ d < e) ∧ (d.text > e.text ↔ d > e)
      ∧ (d.text = e.text ↔ d = e))
    ∧ (ascendingOrder S l).Perm l
    ∧ (ascendingOrder S l).Pairwise (fun d1 d2 => date d1 ≤ date d2)
    ∧ (descendingOrder S l).Perm l
    ∧ (descendingOrder S l).Pairwise (fun d1 d2 => date d2 ≤ date d1)
  := by
  have hle : ∀ d1 ∈ l, ∀ d2 ∈ l, d1.writedDate ≤ d2.writedDate → date d1 ≤ date d2 := by
    intro d1 hd1 d2 hd2 h
    rw [hdate d1 hd1, hdate d2 hd2, CalendarDate.text_le_iff] at h
    exact h
  constructor
  · intro d e
    use d.text_lt_iff e, e.text_lt_iff d
    apply d.text_inj e
  · use ascendingOrder_perm S l
    constructor
    · apply (ascendingOrder_ascending S l).imp_of_mem
      intro d1 d2 hd1 hd2
      apply hle d1 ((ascendingOrder_perm S l).mem_iff.mp hd1) d2
        ((ascendingOrder_perm S l).mem_iff.mp hd2)
    · use descendingOrder_perm S l
      apply (descendingOrder_descending S l).imp_of_mem
      intro d1 d2 hd1 hd2
      apply hle d2 ((descendingOrder_perm S l).mem_iff.mp hd2) d1
        ((descendingOrder_perm S l).mem_iff.mp hd1)

/-- New Year's Eve and New Year's Day. -/
def newYear (day : Bool) : CalendarDate where
  year := if day then 2019 else 2018
  month := if day then 1 else 12
  day := if day then 1 else 31
  year_pos := by cases day <;> decide
  year_le := by cases day <;> decide
  month_pos := by cases day <;> decide
  month_le := by cases day <;> decide
  day_pos := by cases day <;> decide
  day_le := by cases day <;> decide

/-- Two dreams around New Year, the later one first, are sorted by date. -/
theorem chronological_newYear :
  (ascendingOrder Sorter.insertion [sea "2019-01-01", fire "2018-12-31"]).Pairwise
    fun d1 d2 => newYear (d1 = sea "2019-01-01") ≤ newYear (d2 = sea "2019-01-01")
  := by
  obtain ⟨-, -, hascending, -⟩ := chronological Sorter.insertion
    [sea "2019-01-01", fire "2018-12-31"] (fun dream => newYear (dream = sea "2019-01-01"))
    (by decide)
  exact hascending

end ForDream
