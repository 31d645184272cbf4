import Mathlib

/-!
# Days and calendar dates

`MakeDay` and `DateYMDFromTime` of the runtime, with every `int` operation checked for its range.
`/` and `%` of the source truncate, and the year is shifted so that they divide no negative number.
-/
namespace W16.Calendar

open List Option

def int (n : Int) : Option Int := if -2 ^ 31 ≤ n ∧ n < 2 ^ 31 then some n else none

def dayFromMonth : List Int := [0, 31, 59, 90, 120, 151, 181, 212, 243, 273, 304, 334]
def dayFromMonthLeap : List Int := [0, 31, 60, 91, 121, 152, 182, 213, 244, 274, 305, 335]

def yearDelta : Int := 399999

def baseDay : Int :=
  365 * (1970 + yearDelta) + (1970 + yearDelta) / 4 - (1970 + yearDelta) / 100 + (1970 + yearDelta) / 400

/-- The days before the first of the month. -/
def firstOfMonth (year month : Int) : Option Int :=
  if year.tmod 4 ≠ 0 ∨ year.tmod 100 = 0 ∧ year.tmod 400 ≠ 0 then dayFromMonth[month.toNat]?
  else dayFromMonthLeap[month.toNat]?

def dayFromYear (year : Int) : Option Int := do
  let year1 ← int (year + yearDelta)
  let days ← int (365 * year1)
  let days ← int (days + year1.tdiv 4)
  let days ← int (days - year1.tdiv 100)
  let days ← int (days + year1.tdiv 400)
  int (days - baseDay)

/-- The year with the whole years of the month. -/
def carryMonth (year month : Int) : Option Int := do
  let year ← int (year + month.tdiv 12)
  if month.tmod 12 < 0 then int (year - 1) else return year

def makeDay (year month day : Int) : Option Int := do
  let year ← carryMonth year month
  let month := if month.tmod 12 < 0 then month.tmod 12 + 12 else month.tmod 12
  let days ← dayFromYear year
  let first ← firstOfMonth year month
  let days ← int (days + first)
  let days ← int (days + day)
  int (days - 1)

def kDaysIn4Years : Int := 4 * 365 + 1
def kDaysIn100Years : Int := 25 * kDaysIn4Years - 1
def kDaysIn400Years : Int := 4 * kDaysIn100Years + 1
def kDays1970to2000 : Int := 30 * 365 + 7
def kDaysOffset : Int := 1000 * kDaysIn400Years + 5 * kDaysIn400Years - kDays1970to2000
def kYearsOffset : Int := 400000

def monthLengths : List Nat := [31, 28, 31, 30, 31, 30, 31, 31, 30, 31, 30, 31]
def monthLengthsLeap : List Nat := [31, 29, 31, 30, 31, 30, 31, 31, 30, 31, 30, 31]

/-- The rows of the tables for a year with these months: the months and the days. -/
def yearTable (lengths : List Nat) : List (Nat × Nat) :=
  lengths.zipIdx.flatMap fun (length, month) => (range' 1 length).map fun day => (month, day)

/-- `kMonthInYear` and `kDayInYear`: four years, the third of them a leap year. -/
def inYear : List (Nat × Nat) :=
  yearTable monthLengths ++ yearTable monthLengths ++ yearTable monthLengthsLeap ++ yearTable monthLengths

/-- Year, month and day, from a year and an index of the tables. -/
def ymd (year index : Int) : Option (Int × Nat × Nat) :=
  if index < 0 then none else inYear[index.toNat]?.map fun (month, day) => (year, month, day)

def dateYMDFromTimeAfter1970 (date : Int) : Option (Int × Nat × Nat) := do
  let scaled ← int (4 * date)
  let scaled ← int (scaled + 2)
  let year ← int (1970 + scaled.tdiv kDaysIn4Years)
  ymd year (date.tmod kDaysIn4Years)

def dateYMDFromTimeSlow (date : Int) : Option (Int × Nat × Nat) := do
  let date ← int (date + kDaysOffset)
  let year ← int (400 * date.tdiv kDaysIn400Years)
  let year ← int (year - kYearsOffset)
  let date := date.tmod kDaysIn400Years - 1
  let yd1 := date.tdiv kDaysIn100Years
  let date := date.tmod kDaysIn100Years + 1
  let year ← int (year + 100 * yd1)
  let yd2 := date.tdiv kDaysIn4Years
  let date := date.tmod kDaysIn4Years - 1
  let year ← int (year + 4 * yd2)
  let yd3 := date.tdiv 365
  let date := date.tmod 365
  let year ← int (year + yd3)
  let isLeap := (yd1 = 0 ∨ yd2 ≠ 0) ∧ yd3 = 0
  if isLeap then ymd year (2 * 365 + 1 + date) else ymd year date

def dateYMDFromTime (date : Int) : Option (Int × Nat × Nat) :=
  if date ≥ 0 ∧ date < 32 * kDaysIn4Years then dateYMDFromTimeAfter1970 date else dateYMDFromTimeSlow date

/-! ## The proleptic Gregorian calendar -/

def IsLeap (year : Int) : Prop := year % 4 = 0 ∧ (year % 100 ≠ 0 ∨ year % 400 = 0)

instance (year : Int) : Decidable (IsLeap year) := inferInstanceAs (Decidable (_ ∧ _))

def lengths (year : Int) : List Nat := if IsLeap year then monthLengthsLeap else monthLengths

/-- The day on which a year begins, from the leap years before it. -/
def yearStart (year : Int) : Int :=
  365 * (year - 1970) + (year - 1969) / 4 - (year - 1901) / 100 + (year - 1601) / 400

/-- Months behind the last or before the first are those of other years. -/
def dayNumber (year month date : Int) : Int :=
  yearStart (year + month / 12) + ((lengths (year + month / 12)).take (month % 12).toNat).sum + date - 1

structure Valid (year : Int) (month day : Nat) : Prop where
  month_lt : month < 12
  day_pos : 1 ≤ day
  day_le : ∃ length, (lengths year)[month]? = some length ∧ day ≤ length

theorem yearStart_succ (year : Int) : yearStart (year + 1) = yearStart year + (lengths year).sum := by
  by_cases h : IsLeap year
  · rw [lengths, if_pos h, show (monthLengthsLeap.sum : Int) = 366 from rfl]
    unfold IsLeap at h
    unfold yearStart
    omega
  · rw [lengths, if_neg h, show (monthLengths.sum : Int) = 365 from rfl]
    unfold IsLeap at h
    unfold yearStart
    omega

variable {year date : Int}

theorem yearStart_mono {year' : Int} (h : year ≤ year') : yearStart year ≤ yearStart year' := by
  unfold yearStart
  omega

/-! ## MakeDay -/

theorem int_eq {n : Int} (h : -2 ^ 31 ≤ n) (h' : n < 2 ^ 31) : int n = some n := if_pos ⟨h, h'⟩

/-- Where truncation does not matter: the shifted year is not negative, or a leap year. -/
def Exact (year1 : Int) : Prop := 0 ≤ year1 ∨ IsLeap year1

/-- Truncation adds one where it does not divide a negative number evenly. -/
theorem tdiv_eq (a : Int) {b : Int} (hb : 0 < b) : a.tdiv b = a / b + if 0 ≤ a ∨ a % b = 0 then 0 else 1 := by
  rw [Int.tdiv_eq_ediv, Int.sign_eq_one_of_pos hb]
  simp only [Int.dvd_iff_emod_eq_zero]

/-- The leap days before a year, with truncation. -/
theorem leapDays_iff (y : Int) : y.tdiv 4 - y.tdiv 100 + y.tdiv 400 = y / 4 - y / 100 + y / 400 ↔ Exact y := by
  rw [tdiv_eq y (b := 4) (by decide), tdiv_eq y (b := 100) (by decide), tdiv_eq y (b := 400) (by decide)]
  by_cases hy : 0 ≤ y
  · simp [Exact, hy]
  · unfold Exact IsLeap
    simp only [hy, false_or]
    by_cases h4 : y % 4 = 0
    · omega
    omega

theorem tdiv_bounds (y b : Int) (hlow : -2400000 ≤ y) (hhigh : y ≤ 2400000) :
    -2400000 ≤ y.tdiv b ∧ y.tdiv b ≤ 2400000 := by
  have h := Int.natAbs_tdiv_le_natAbs y b
  omega

theorem dayFromYear_spec (hlow : -2000000 ≤ year) (hhigh : year ≤ 2000000) :
    ∃ days, dayFromYear year = some days ∧ (days = yearStart year ↔ Exact (year + yearDelta)) ∧
      -1000000000 ≤ days ∧ days ≤ 1000000000 := by
  have hbase : baseDay = 146816162 := rfl
  have hdelta : yearDelta = 399999 := rfl
  have hiff := leapDays_iff (year + yearDelta)
  have h4 := tdiv_bounds (year + yearDelta) 4 (by omega) (by omega)
  have h100 := tdiv_bounds (year + yearDelta) 100 (by omega) (by omega)
  have h400 := tdiv_bounds (year + yearDelta) 400 (by omega) (by omega)
  have hstart : yearStart year = 365 * (year + yearDelta) +
      ((year + yearDelta) / 4 - (year + yearDelta) / 100 + (year + yearDelta) / 400) - baseDay := by
    unfold yearStart
    omega
  refine ⟨365 * (year + yearDelta) + (year + yearDelta).tdiv 4 - (year + yearDelta).tdiv 100 +
    (year + yearDelta).tdiv 400 - baseDay, ?_, ?_, by omega, by omega⟩
  · unfold dayFromYear
    simp (disch := omega) only [int_eq, bind_eq_bind, bind_some]
  · rw [← hiff, hstart]
    omega

theorem carryMonth_eq {month : Int} (hyear : -1000000 ≤ year ∧ year ≤ 1000000)
    (hmonth : -10000000 ≤ month ∧ month ≤ 10000000) : carryMonth year month = some (year + month / 12) ∧
      (if month.tmod 12 < 0 then month.tmod 12 + 12 else month.tmod 12) = month % 12 := by
  have hdiv := tdiv_eq month (b := 12) (by decide)
  have hmod := Int.mul_tdiv_add_tmod month 12
  constructor
  · have hyear : int (year + month.tdiv 12) = some (year + month.tdiv 12) := int_eq (by omega) (by omega)
    simp only [carryMonth, hyear, bind_eq_bind, bind_some]
    by_cases hneg : month.tmod 12 < 0
    · rw [if_pos hneg, int_eq (by omega) (by omega)]
      congr 1
      omega
    · rw [if_neg hneg]
      grind
  · split <;> omega

theorem firstOfMonth_eq (year : Int) {month : Int} (h : 0 ≤ month) (h' : month < 12) :
    firstOfMonth year month = some (((lengths year).take month.toNat).sum : Int) := by
  have hleap : (year.tmod 4 ≠ 0 ∨ year.tmod 100 = 0 ∧ year.tmod 400 ≠ 0) ↔ ¬IsLeap year := by
    have hzero : ∀ b : Int, 0 < b → (year.tmod b = 0 ↔ year % b = 0) := fun b _ => by
      rw [← Int.dvd_iff_tmod_eq_zero, Int.dvd_iff_emod_eq_zero]
    unfold IsLeap
    rw [ne_eq, ne_eq, hzero 4 (by decide), hzero 100 (by decide), hzero 400 (by decide)]
    omega
  have htable : ∀ m < 12, dayFromMonth[m]? = some ((monthLengths.take m).sum : Int) ∧
      dayFromMonthLeap[m]? = some ((monthLengthsLeap.take m).sum : Int) := by decide
  obtain ⟨hcommon, hleapTable⟩ := htable month.toNat (by omega)
  unfold firstOfMonth lengths
  by_cases hl : IsLeap year
  · rw [if_neg (mt hleap.1 (not_not.2 hl)), if_pos hl, hleapTable]
  · rw [if_pos (hleap.2 hl), if_neg hl, hcommon]

/-- The limits of `date.js`. -/
structure Limits (year month date : Int) : Prop where
  year : -1000000 ≤ year ∧ year ≤ 1000000
  month : -10000000 ≤ month ∧ month ≤ 10000000
  date : -100000000 ≤ date ∧ date ≤ 100000000

theorem makeDay_spec {month : Int} (h : Limits year month date) : ∃ n, makeDay year month date = some n ∧
      (n = dayNumber year month date ↔ Exact (year + month / 12 + yearDelta)) := by
  obtain ⟨hyear, hmonth, hdate⟩ := h
  obtain ⟨hcarry, hm⟩ := carryMonth_eq hyear hmonth
  obtain ⟨days, hdays, hiff, hlow, hhigh⟩ := @dayFromYear_spec (year + month / 12) (by omega) (by omega)
  have hfirst := firstOfMonth_eq (year + month / 12) (Int.emod_nonneg month (show (12 : Int) ≠ 0 by decide))
    (Int.emod_lt_of_pos month (by decide))
  have hsum : ∀ m, (monthLengths.take m).sum ≤ 366 ∧ (monthLengthsLeap.take m).sum ≤ 366 := fun m => by
    have hlt : ∀ m ≤ 12, (monthLengths.take m).sum ≤ 366 ∧ (monthLengthsLeap.take m).sum ≤ 366 := by decide
    rcases Nat.le_total m 12 with hle | hle
    · exact hlt m hle
    · rw [take_of_length_le hle, take_of_length_le hle]
      decide
  have hfirst_le : ((lengths (year + month / 12)).take (month % 12).toNat).sum ≤ 366 := by
    grind [lengths]
  unfold dayNumber
  generalize ((lengths (year + month / 12)).take (month % 12).toNat).sum = first at hfirst hfirst_le
  refine ⟨days + first + date - 1, ?_, by rw [← hiff]; omega⟩
  simp (disch := omega) only [makeDay, hcarry, hm, hdays, hfirst, int_eq, bind_eq_bind, bind_some]

/-! ## Dates from days -/

/-- The date at a day of a year. -/
def Reads (date : Int) (r : Option (Int × Nat × Nat)) : Prop :=
  ∃ (year : Int) (j : Nat), yearStart year + j = date ∧ j < (lengths year).sum ∧
    r = (yearTable (lengths year))[j]?.map fun (month, day) => (year, month, day)

theorem Reads.unique {r r' : Option (Int × Nat × Nat)} (h : Reads date r) (h' : Reads date r') : r = r' := by
  obtain ⟨year, j, hdate, hj, rfl⟩ := h
  obtain ⟨year', j', hdate', hj', rfl⟩ := h'
  have hsucc := yearStart_succ year
  have hsucc' := yearStart_succ year'
  obtain rfl : year = year' := by
    rcases Int.lt_trichotomy year year' with hlt | heq | hlt
    · have := yearStart_mono (show year + 1 ≤ year' from hlt)
      omega
    · exact heq
    · have := yearStart_mono (show year' + 1 ≤ year from hlt)
      omega
  obtain rfl : j = j' := by omega
  rfl

/-- The row of a table for its day of the year. -/
def rowFits (lengths : List Nat) (j : Nat) : Bool :=
  (yearTable lengths)[j]?.any fun (month, day) => month < 12 && 1 ≤ day &&
    lengths[month]?.any (day ≤ ·) && (lengths.take month).sum + day == j + 1

theorem length_yearTable : (yearTable monthLengths).length = 365 ∧ (yearTable monthLengthsLeap).length = 366 := by
  decide +kernel

/-- The table is read once, row after row. -/
theorem rowFits_of_all {lengths : List Nat} (h : ((yearTable lengths).zipIdx.all fun row =>
      row.1.1 < 12 && 1 ≤ row.1.2 && lengths[row.1.1]?.any (row.1.2 ≤ ·) &&
        (lengths.take row.1.1).sum + row.1.2 == row.2 + 1) = true)
    {j : Nat} (hj : j < (yearTable lengths).length) : rowFits lengths j = true := by
  have hmem : ((yearTable lengths)[j], j) ∈ (yearTable lengths).zipIdx := by
    rw [mem_zipIdx_iff_getElem?, getElem?_eq_getElem hj]
  rw [rowFits, getElem?_eq_getElem hj]
  exact all_eq_true.1 h _ hmem

theorem table_fits : (∀ j < 365, rowFits monthLengths j = true) ∧ ∀ j < 366, rowFits monthLengthsLeap j = true := by
  obtain ⟨hc, hl⟩ := length_yearTable
  refine ⟨fun j hj => rowFits_of_all ?_ (by rwa [hc]), fun j hj => rowFits_of_all ?_ (by rwa [hl])⟩
  · decide +kernel
  · decide +kernel

theorem Reads.valid {r : Option (Int × Nat × Nat)} (h : Reads date r) :
    ∃ year month day, r = some (year, month, day) ∧ Valid year month day ∧ dayNumber year month day = date ∧
      yearStart year ≤ date ∧ date < yearStart year + 366 := by
  obtain ⟨year, j, hdate, hj, rfl⟩ := h
  have hrow : rowFits (lengths year) j = true := by
    unfold lengths at hj ⊢
    split at hj <;> rename_i hleap
    · rw [if_pos hleap]
      exact table_fits.2 j hj
    · rw [if_neg hleap]
      exact table_fits.1 j hj
  obtain ⟨⟨month, day⟩, hget, hfits⟩ := (any_eq_true _ _).1 hrow
  simp only [Bool.and_eq_true, decide_eq_true_iff, beq_iff_eq] at hfits
  obtain ⟨⟨⟨hmonth, hday⟩, hlen⟩, hsum⟩ := hfits
  obtain ⟨length, hlen, hle⟩ := (any_eq_true _ _).1 hlen
  have hj' : (lengths year).sum ≤ 366 := by
    unfold lengths
    split <;> decide
  refine ⟨year, month, day, by rw [hget]; rfl, ⟨hmonth, hday, length, hlen, of_decide_eq_true hle⟩, ?_, by omega, by omega⟩
  grind [dayNumber]

/-- The part of the tables for one year. -/
theorem ymd_reads {index : Int} {before rest : List (Nat × Nat)}
    (hsplit : inYear = before ++ yearTable (lengths year) ++ rest) (hlow : before.length ≤ index)
    (hhigh : index < before.length + (yearTable (lengths year)).length)
    (hdate : yearStart year + (index - before.length) = date) : Reads date (ymd year index) := by
  have hlen : (yearTable (lengths year)).length = (lengths year).sum := by
    unfold lengths
    split <;> decide +kernel
  refine ⟨year, index.toNat - before.length, by omega, by omega, ?_⟩
  rw [ymd, if_neg (by omega), hsplit, getElem?_append_left (by rw [length_append]; omega),
    getElem?_append_right (by omega)]

/-- The common years of the tables begin at the indices 0, 365 and 1096. -/
theorem common_reads {index first : Int} (hfirst : first = 0 ∨ first = 365 ∨ first = 1096) (hleap : ¬IsLeap year)
    (hlow : first ≤ index) (hhigh : index < first + 365) (hdate : yearStart year + (index - first) = date) :
    Reads date (ymd year index) := by
  obtain ⟨hc, hl⟩ := length_yearTable
  have hlengths : lengths year = monthLengths := if_neg hleap
  rcases hfirst with rfl | rfl | rfl
  · exact @ymd_reads year date index [] _ (by rw [hlengths, inYear, append_assoc, append_assoc]; rfl) hlow
      (by rw [hlengths, hc]; exact hhigh) hdate
  · exact @ymd_reads year date index (yearTable monthLengths) _ (by rw [hlengths, inYear, append_assoc])
      (by rw [hc]; exact hlow)
      (by rw [hlengths, hc]; exact hhigh) (by rw [hc]; exact hdate)
  · have hbefore : (yearTable monthLengths ++ yearTable monthLengths ++ yearTable monthLengthsLeap).length = 1096 := by
      rw [length_append, length_append, hc, hl]
    exact @ymd_reads year date index _ [] (by rw [hlengths, append_nil]; rfl) (by rw [hbefore]; exact hlow)
      (by rw [hlengths, hbefore, hc]; exact hhigh) (by rw [hbefore]; exact hdate)

theorem leap_reads {index : Int} (hleap : IsLeap year) (hlow : 730 ≤ index) (hhigh : index < 1096)
    (hdate : yearStart year + (index - 730) = date) : Reads date (ymd year index) := by
  obtain ⟨hc, hl⟩ := length_yearTable
  have hlengths : lengths year = monthLengthsLeap := if_pos hleap
  have hbefore : (yearTable monthLengths ++ yearTable monthLengths).length = 730 := by rw [length_append, hc]
  exact ymd_reads (by rw [hlengths]; rfl) (by rw [hbefore]; exact hlow)
    (by rw [hlengths, hbefore, hl]; exact hhigh) (by rw [hbefore]; exact hdate)

theorem after1970_reads (h : 0 ≤ date) (h' : date < 32 * kDaysIn4Years) :
    Reads date (dateYMDFromTimeAfter1970 date) := by
  have hdays : kDaysIn4Years = 1461 := rfl
  rw [hdays] at h'
  have hrun : dateYMDFromTimeAfter1970 date = ymd (1970 + (4 * date + 2) / 1461) (date % 1461) := by
    have hdiv := Int.tdiv_eq_ediv_of_nonneg (show 0 ≤ 4 * date + 2 by omega) (b := 1461)
    have hmod := Int.tmod_eq_emod_of_nonneg h (b := 1461)
    simp (disch := omega) only [dateYMDFromTimeAfter1970, hdays, hdiv, hmod, int_eq, bind_eq_bind, bind_some]
  obtain ⟨k, hk⟩ : ∃ k, k = date / 1461 := ⟨_, rfl⟩
  -- only the year 2000 ends a century, and it is a leap year
  have hyears : ∀ c : Int, 0 ≤ c → c ≤ 3 → yearStart (1970 + 4 * k + c) = 1461 * k + 365 * c + (c + 1) / 4 ∧
      (IsLeap (1970 + 4 * k + c) ↔ c = 2) := fun c hc hc' => by
    have hcentury : 1970 + 4 * k + c < 2001 ∨ 2001 ≤ 1970 + 4 * k + c := by omega
    unfold yearStart IsLeap
    rcases hcentury with hlt | hge
    · constructor <;> omega
    · constructor <;> omega
  have hyear : (4 * date + 2) / 1461 = 4 * k + (4 * (date % 1461) + 2) / 1461 := by omega
  rw [hrun, hyear, ← Int.add_assoc]
  obtain ⟨r, hr⟩ : ∃ r, r = date % 1461 := ⟨_, rfl⟩
  rw [← hr]
  rcases lt_or_ge r 365 with h1 | h1
  · obtain ⟨hstart, hleap⟩ := hyears 0 (by decide) (by decide)
    rw [show (4 * r + 2) / 1461 = 0 by omega]
    exact common_reads (.inl rfl) (by rw [hleap]; decide) (by omega) (by omega) (by omega)
  rcases lt_or_ge r 730 with h2 | h2
  · obtain ⟨hstart, hleap⟩ := hyears 1 (by decide) (by decide)
    rw [show (4 * r + 2) / 1461 = 1 by omega]
    exact common_reads (.inr (.inl rfl)) (by rw [hleap]; decide) (by omega) (by omega) (by omega)
  rcases lt_or_ge r 1096 with h3 | h3
  · obtain ⟨hstart, hleap⟩ := hyears 2 (by decide) (by decide)
    rw [show (4 * r + 2) / 1461 = 2 by omega]
    exact leap_reads (hleap.2 rfl) (by omega) (by omega) (by omega)
  · obtain ⟨hstart, hleap⟩ := hyears 3 (by decide) (by decide)
    rw [show (4 * r + 2) / 1461 = 3 by omega]
    exact common_reads (.inr (.inr rfl)) (by rw [hleap]; decide) (by omega) (by omega) (by omega)

/-- Division of a remainder that can be -1. -/
theorem tdiv_tmod {x : Int} (b : Int) (hb : 1 < b) (hx : -1 ≤ x) : b * x.tdiv b + x.tmod b = x ∧ 0 ≤ x.tdiv b ∧
    x.tmod b < b ∧ (0 ≤ x → 0 ≤ x.tmod b) ∧ (x = -1 → x.tdiv b = 0) := by
  have hsum := Int.mul_tdiv_add_tmod x b
  rcases Int.lt_or_le x 0 with hneg | hpos
  · obtain rfl : x = -1 := by omega
    have hdiv : (-1 : Int).tdiv b = 0 := by rw [Int.neg_tdiv, Int.tdiv_eq_zero_of_lt (by decide) hb, Int.neg_zero]
    rw [hdiv] at hsum ⊢
    omega
  · exact ⟨hsum, Int.tdiv_nonneg hpos (by omega), Int.tmod_lt_of_pos x (by omega), fun _ => Int.tmod_nonneg b hpos, by omega⟩

/-- A year of the cycles of 400, 100, 4 and 1 years. -/
theorem cycles (p : Int) {a b c : Int} (ha : 0 ≤ a ∧ a ≤ 3) (hb : 0 ≤ b ∧ b ≤ 24) (hc : 0 ≤ c ∧ c ≤ 3) :
    (IsLeap (400 * p + 100 * a + 4 * b + c) ↔ (a = 0 ∨ b ≠ 0) ∧ c = 0) ∧
      yearStart (400 * p + 100 * a + 4 * b + c) = 146097 * p + 36524 * a + 1461 * b + 365 * c - 719528 +
        (if (a = 0 ∨ b ≠ 0) ∧ c = 0 then 0 else 1) := by
  have h4 : (400 * p + 100 * a + 4 * b + c - 1969) / 4 = 100 * p + 25 * a + b - 493 + (if c = 0 then 0 else 1) := by
    split <;> omega
  have h100 : (400 * p + 100 * a + 4 * b + c - 1901) / 100 = 4 * p + a - 20 + (if b = 0 ∧ c = 0 then 0 else 1) := by
    split <;> omega
  have h400 : (400 * p + 100 * a + 4 * b + c - 1601) / 400 = p - 5 + (if a = 0 ∧ b = 0 ∧ c = 0 then 0 else 1) := by
    split <;> omega
  constructor
  · unfold IsLeap
    omega
  · grind [yearStart]

/-- What is left of a remainder of 400 years. The day of the year is -1 only in a leap year. -/
theorem slow_bounds {r a m b n c v : Int} (hr : 0 ≤ r) (hr' : r < 146097)
    (ha : 36524 * a + m = r - 1 ∧ 0 ≤ a ∧ m < 36524 ∧ (0 ≤ r - 1 → 0 ≤ m) ∧ (r - 1 = -1 → a = 0))
    (hb : 1461 * b + n = m + 1 ∧ 0 ≤ b ∧ n < 1461 ∧ (0 ≤ m + 1 → 0 ≤ n) ∧ (m + 1 = -1 → b = 0))
    (hc : 365 * c + v = n - 1 ∧ 0 ≤ c ∧ v < 365 ∧ (0 ≤ n - 1 → 0 ≤ v) ∧ (n - 1 = -1 → c = 0)) :
    a ≤ 3 ∧ b ≤ 24 ∧ c ≤ 3 ∧ -1 ≤ v ∧ (¬((a = 0 ∨ b ≠ 0) ∧ c = 0) → 0 ≤ v) := by
  obtain ⟨ha, ha0, halt, ha1, ha2⟩ := ha
  have ham : a ≤ 3 ∧ -1 ≤ m := by omega
  obtain ⟨hb, hb0, hblt, hb1, -⟩ := hb
  have hbn : b ≤ 24 ∧ 0 ≤ n := by omega
  obtain ⟨hc, hc0, hclt, hc1, hc2⟩ := hc
  have hcv : c ≤ 3 ∧ -1 ≤ v := by omega
  refine ⟨ham.1, hbn.1, hcv.1, hcv.2, fun hleap => ?_⟩
  by_contra hv
  exact hleap ⟨by omega, by omega⟩

/-- The remainder is one less than the day of the year in a leap year, so that it can be -1. -/
theorem slow_reads (h : -100000031 ≤ date) (h' : date ≤ 100000031) : Reads date (dateYMDFromTimeSlow date) := by
  have h4 : kDaysIn4Years = 1461 := rfl
  have h100 : kDaysIn100Years = 36524 := rfl
  have h400 : kDaysIn400Years = 146097 := rfl
  have hoff : kDaysOffset = 146816528 := rfl
  have hyears : kYearsOffset = 400000 := rfl
  obtain ⟨hq, hq0, hqlt, hq1, -⟩ := tdiv_tmod 146097 (by decide) (show -1 ≤ date + 146816528 by omega)
  have hr := hq1 (by omega)
  have hstart : int (date + kDaysOffset) = some (date + 146816528) := int_eq (by omega) (by omega)
  simp only [dateYMDFromTimeSlow, hstart, bind_eq_bind, bind_some, h4, h100, h400, hyears]
  clear hq1 h4 h100 h400 hoff hyears hstart
  generalize (date + 146816528).tdiv 146097 = q at *
  generalize (date + 146816528).tmod 146097 = r at *
  have ha := tdiv_tmod 36524 (by decide) (show -1 ≤ r - 1 by omega)
  generalize (r - 1).tdiv 36524 = a at *
  generalize (r - 1).tmod 36524 = m at *
  have hb := tdiv_tmod 1461 (by decide) (show -1 ≤ m + 1 by omega)
  generalize (m + 1).tdiv 1461 = b at *
  generalize (m + 1).tmod 1461 = n at *
  have hc := tdiv_tmod 365 (by decide) (show -1 ≤ n - 1 by omega)
  generalize (n - 1).tdiv 365 = c at *
  generalize (n - 1).tmod 365 = v at *
  obtain ⟨ha3, hb24, hc3, hv, hcommon⟩ := slow_bounds hr hqlt ha hb hc
  obtain ⟨ha, ha0, -⟩ := ha
  obtain ⟨hb, hb0, -⟩ := hb
  obtain ⟨hc, hc0, hclt, -⟩ := hc
  obtain ⟨hleap, hyear⟩ := cycles (q - 1000) (a := a) (b := b) (c := c) ⟨ha0, ha3⟩ ⟨hb0, hb24⟩ ⟨hc0, hc3⟩
  rw [int_eq (by omega) (by omega), bind_some, int_eq (by omega) (by omega), bind_some, int_eq (by omega) (by omega),
    bind_some, int_eq (by omega) (by omega), bind_some, int_eq (by omega) (by omega), bind_some,
    show 400 * q - 400000 + 100 * a + 4 * b + c = 400 * (q - 1000) + 100 * a + 4 * b + c by omega]
  by_cases hl : (a = 0 ∨ b ≠ 0) ∧ c = 0
  · rw [if_pos hl] at hyear ⊢
    exact leap_reads (hleap.2 hl) (by omega) (by omega) (by omega)
  · rw [if_neg hl] at hyear ⊢
    exact common_reads (.inl rfl) (mt hleap.1 hl) (hcommon hl) (by omega) (by omega)

theorem dateYMDFromTime_reads (h : -100000031 ≤ date) (h' : date ≤ 100000031) :
    Reads date (dateYMDFromTime date) := by
  grind [dateYMDFromTime, after1970_reads, slow_reads]

theorem makeDay_dateYMDFromTime (h : -100000031 ≤ date) (h' : date ≤ 100000031) :
    ∃ year month day, dateYMDFromTime date = some (year, month, day) ∧ Valid year month day ∧
      makeDay year month day = some date := by
  obtain ⟨year, month, day, hrun, hvalid, hnum, hlow, hhigh⟩ := (dateYMDFromTime_reads h h').valid
  obtain ⟨length, hlength, hle⟩ := hvalid.day_le
  have hlen : length ≤ 31 := by
    have hall : ∀ length ∈ monthLengths ++ monthLengthsLeap, length ≤ 31 := by decide
    refine hall length (mem_append.2 ?_)
    grind [lengths]
  have hmonth := hvalid.month_lt
  have hyear : -280000 ≤ year ∧ year ≤ 280000 := by
    unfold yearStart at hlow hhigh
    omega
  obtain ⟨n, hn, hiff⟩ := @makeDay_spec year day month
    ⟨by omega, by omega, by omega⟩
  grind [Exact, yearDelta]

/-- Within the limits `MakeDay` does not overflow. It gives the day number where truncation does not
matter, and it is the inverse of `DateYMDFromTime`, whose two paths agree. -/
theorem calendar_exact {year month date : Int} (h : Limits year month date) :
    (∃ n, makeDay year month date = some n ∧
      (n = dayNumber year month date ↔ Exact (year + month / 12 + yearDelta))) ∧
    ∀ d, -(10 ^ 8 + 31) ≤ d → d ≤ 10 ^ 8 + 31 →
      (∃ y m day, dateYMDFromTime d = some (y, m, day) ∧ Valid y m day ∧ makeDay y m day = some d) ∧
        (0 ≤ d → d < 32 * kDaysIn4Years → dateYMDFromTimeAfter1970 d = dateYMDFromTimeSlow d) :=
  ⟨makeDay_spec h, fun _ hlow hhigh => ⟨makeDay_dateYMDFromTime hlow hhigh,
    fun hd hd' => (after1970_reads hd hd').unique (slow_reads hlow hhigh)⟩⟩

theorem calendar_exact_leap : makeDay 2007 14 (-50) = some (dayNumber 2007 14 (-50)) := by
  obtain ⟨n, hn, hiff⟩ := (@calendar_exact 2007 14 (-50) ⟨by decide, by decide, by decide⟩).1
  rw [hn, hiff.2 (.inl (by decide))]

/-- The first of January of the year -500000 and 10⁸ days, which is a date in range. -/
theorem makeDay_truncates : makeDay (-500000) 0 100000000 = some (-83340778) ∧ dayNumber (-500000) 0 100000000 = -83340779 := by
  decide

end W16.Calendar
