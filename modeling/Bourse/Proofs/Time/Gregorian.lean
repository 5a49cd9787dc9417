/-
Counting days agrees with turning the pages of a calendar.

A date is named from its day's number by division, in years that begin in March.  That this
is the Gregorian calendar is said without any of that: the day after a date follows from the
lengths of the months alone (`next`), the count begins on 1970-01-01, and every other day is
reached from there one day at a time, forwards or backwards (`IsDay`).  `isDay_iff` says that
the two agree on all days.

The years of an era are not all of one length, and what makes the difference is the leap day
at the end of a March year.  So the facts about division are stated for such years, for which
`Fits` says which days there are.
-/
import Bourse.Time.Date
import Mathlib.Tactic.IntervalCases

namespace Bourse.Date

/-! ### The calendar, page by page -/

/-- There is such a day. -/
structure Valid (d : Date) : Prop where
  month_pos : 1 ≤ d.month
  month_le : d.month ≤ 12
  day_pos : 1 ≤ d.day
  day_le : d.day ≤ daysInMonth d.year d.month

/-- The day after a date. -/
def next (d : Date) : Date :=
  if d.day < daysInMonth d.year d.month then ⟨d.year, d.month, d.day + 1⟩
  else if d.month < 12 then ⟨d.year, d.month + 1, 1⟩
  else ⟨d.year + 1, 1, 1⟩

/-- The date is that of the `n`-th day after 1970-01-01, counted one by one. -/
inductive IsDay : Date → Int → Prop
  | first : IsDay ⟨1970, 1, 1⟩ 0
  | later {d : Date} {n : Int} (h : IsDay d n) : IsDay d.next (n + 1)
  | earlier {d : Date} {n : Int} (hd : d.Valid) (h : IsDay d.next (n + 1)) : IsDay d n

/-! ### Leap days -/

theorem isLeap_iff (year : Int) :
    isLeap year = true ↔ year % 4 = 0 ∧ (year % 100 ≠ 0 ∨ year % 400 = 0) := by
  unfold isLeap
  simp

/-- The length of February. -/
theorem daysInMonth_two (year : Int) :
    daysInMonth year 2 = if isLeap year = true then 29 else 28 := rfl

/-- No other month depends on the year. -/
theorem daysInMonth_of_ne {month : Nat} (h : month ≠ 2) (year : Int) :
    daysInMonth year month =
      if month = 4 ∨ month = 6 ∨ month = 9 ∨ month = 11 then 30 else 31 := by
  unfold daysInMonth
  rw [if_neg h]

/-! ### Years that begin in March -/

/--
There is such a day in the March year, whose months are counted from zero.  Its last month
is the February of the next year.
-/
structure Fits (year month day : Int) : Prop where
  month_nonneg : 0 ≤ month
  month_le : month ≤ 11
  day_pos : 1 ≤ day
  /-- Before February the months begin at fixed places in the year. -/
  day_le : month < 11 → day ≤ (153 * (month + 1) + 2) / 5 - (153 * month + 2) / 5
  february : month = 11 → day ≤ 28 ∨ day = 29 ∧ isLeap (year + 1) = true

theorem Fits.valid {year month day : Int} (h : Fits year month day) :
    (ofMarchYear year month day).Valid := by
  obtain ⟨hnonneg, hle, hpos, hday, hfebruary⟩ := h
  unfold ofMarchYear
  refine ⟨?_, ?_, ?_, ?_⟩
  · dsimp only
    split <;> omega
  · dsimp only
    split <;> omega
  · dsimp only
    omega
  · dsimp only
    by_cases hlast : month = 11
    · subst hlast
      have := hfebruary rfl
      simp only [show ¬ (11 : Int) < 10 by decide, if_false]
      rw [show ((11 : Int) - 9).toNat = 2 from rfl, daysInMonth_two]
      split <;> grind
    · have := hday (by omega)
      have hne : (if month < 10 then (month + 3).toNat else (month - 9).toNat) ≠ 2 := by
        split <;> omega
      rw [daysInMonth_of_ne hne]
      interval_cases month <;> simp_all

/-- Every day of the calendar is in some March year. -/
theorem Valid.exists_fits {d : Date} (h : d.Valid) :
    ∃ year month day, Fits year month day ∧ d = ofMarchYear year month day := by
  obtain ⟨year, month, day⟩ := d
  obtain ⟨hpos, hle, hday, hlast⟩ := h
  dsimp only at hpos hle hday hlast
  by_cases hmonth : month ≤ 2
  · refine ⟨year - 1, month + 9, day, ⟨by omega, by omega, by omega, fun _ => ?_, fun _ => ?_⟩, ?_⟩
    · obtain rfl : month = 1 := by omega
      have hlast : day ≤ 31 := hlast
      omega
    · obtain rfl : month = 2 := by omega
      rw [daysInMonth_two] at hlast
      rw [Int.sub_add_cancel]
      split at hlast <;> grind
    · simp only [ofMarchYear, show ¬ ((month : Int) + 9 < 10) by omega, if_false]
      simp
  · refine ⟨year, month - 3, day, ⟨by omega, by omega, by omega, fun _ => ?_, fun _ => ?_⟩, ?_⟩
    · rw [daysInMonth_of_ne (by omega)] at hlast
      interval_cases month <;> simp_all
    · omega
    · simp only [ofMarchYear, show (month : Int) - 3 < 10 by omega, if_true]
      simp

/-! ### Taking a day's number apart -/

/--
The parts of a day's number: the era, the century in it, the cycle of four years, the year of
the cycle and the day of that year.  A 366th day is the last one of a cycle, and of a cycle
that ends a century only if the century ends the era.
-/
structure Parts (n era century cycle year dayOfYear : Int) : Prop where
  sum : n + 719468 =
    era * 146097 + 36524 * century + 1461 * cycle + 365 * year + dayOfYear
  century_mem : 0 ≤ century ∧ century ≤ 3
  cycle_mem : 0 ≤ cycle ∧ cycle ≤ 24
  year_mem : 0 ≤ year ∧ year ≤ 3
  day_mem : 0 ≤ dayOfYear ∧ dayOfYear ≤ 365
  leap : dayOfYear = 365 → year = 3 ∧ (cycle = 24 → century = 3)

theorem exists_parts (n : Int) : ∃ era century cycle year dayOfYear,
    Parts n era century cycle year dayOfYear := by
  generalize hera : (n + 719468) / 146097 = era
  generalize hc : min ((n + 719468) % 146097 / 36524) 3 = c
  generalize hq : ((n + 719468) % 146097 - 36524 * c) / 1461 = q
  generalize hy : min (((n + 719468) % 146097 - 36524 * c) % 1461 / 365) 3 = y
  refine ⟨era, c, q, y, ((n + 719468) % 146097 - 36524 * c) % 1461 - 365 * y, ?_⟩
  constructor <;> omega

variable {n era century cycle year dayOfYear : Int}

/-- The division in `ofDayNumber` finds the parts. -/
theorem Parts.ofDayNumber_eq (h : Parts n era century cycle year dayOfYear) :
    ofDayNumber n = ofMarchYear (era * 400 + 100 * century + 4 * cycle + year)
      ((5 * dayOfYear + 2) / 153)
      (dayOfYear - (153 * ((5 * dayOfYear + 2) / 153) + 2) / 5 + 1) := by
  obtain ⟨hsum, hc, hq, hy, hd, hleap⟩ := h
  have hera : (n + 719468) / 146097 = era := by omega
  have hrest : (n + 719468) % 146097 =
      36524 * century + 1461 * cycle + 365 * year + dayOfYear := by omega
  have hcentury : min ((n + 719468) % 146097 / 36524) 3 = century := by omega
  have hcycle : ((n + 719468) % 146097 - 36524 * century) / 1461 = cycle := by omega
  have hdays : ((n + 719468) % 146097 - 36524 * century) % 1461 = 365 * year + dayOfYear := by
    omega
  have hyear : min ((365 * year + dayOfYear) / 365) 3 = year := by omega
  have hday : 365 * year + dayOfYear - 365 * year = dayOfYear := by omega
  simp only [ofDayNumber, hera, hcentury, hcycle, hdays, hyear, hday]

theorem Parts.isLeap (h : Parts n era century cycle year dayOfYear) (hday : dayOfYear = 365) :
    isLeap (era * 400 + 100 * century + 4 * cycle + year + 1) = true := by
  obtain ⟨hyear, hlast⟩ := h.leap hday
  have := h.century_mem
  have := h.cycle_mem
  rw [isLeap_iff]
  omega

/-- What a day's number is named is a day of a March year. -/
theorem Parts.fits (h : Parts n era century cycle year dayOfYear) :
    Fits (era * 400 + 100 * century + 4 * cycle + year) ((5 * dayOfYear + 2) / 153)
      (dayOfYear - (153 * ((5 * dayOfYear + 2) / 153) + 2) / 5 + 1) := by
  obtain ⟨hnonneg, hle⟩ := h.day_mem
  refine ⟨by omega, by omega, by omega, fun _ => by omega, fun hlast => ?_⟩
  by_cases hday : dayOfYear = 365
  · exact Or.inr ⟨by omega, h.isLeap hday⟩
  · exact Or.inl (by omega)

/-- **Every day's number is named a day of the calendar.** -/
theorem valid_ofDayNumber (n : Int) : (ofDayNumber n).Valid := by
  obtain ⟨era, century, cycle, year, dayOfYear, h⟩ := exists_parts n
  rw [h.ofDayNumber_eq]
  exact h.fits.valid

/-- The parts of the number of a day of a March year. -/
theorem Fits.parts {year month day : Int} (h : Fits year month day) :
    Parts (ofMarchYear year month day).dayNumber (year / 400) (year % 400 / 100)
      (year % 100 / 4) (year % 4) ((153 * month + 2) / 5 + day - 1) := by
  obtain ⟨hnonneg, hle, hpos, hday, hfebruary⟩ := h
  have hlast : (153 * month + 2) / 5 + day - 1 ≤ 365 ∧
      ((153 * month + 2) / 5 + day - 1 = 365 → isLeap (year + 1) = true) := by
    by_cases hmonth : month = 11
    · rcases hfebruary hmonth with hday | ⟨hday, hleap⟩
      · omega
      · exact ⟨by omega, fun _ => hleap⟩
    · have := hday (by omega)
      omega
  refine ⟨?_, by omega, by omega, by omega, by omega, fun hday => ?_⟩
  · rw [dayNumber_ofMarchYear ⟨hnonneg, hle⟩ (by omega)]
    omega
  · have := (isLeap_iff _).mp (hlast.2 hday)
    omega

/-- **Naming undoes counting.** -/
theorem ofDayNumber_dayNumber {d : Date} (h : d.Valid) : ofDayNumber d.dayNumber = d := by
  obtain ⟨year, month, day, hfits, rfl⟩ := h.exists_fits
  rw [hfits.parts.ofDayNumber_eq]
  obtain ⟨hnonneg, hle, hpos, hday, hfebruary⟩ := hfits
  have hmonth : (5 * ((153 * month + 2) / 5 + day - 1) + 2) / 153 = month := by
    by_cases hlast : month = 11
    · have := hfebruary hlast
      omega
    · have := hday (by omega)
      omega
  rw [hmonth]
  congr 1 <;> omega

/-! ### Counting one by one -/

theorem Valid.next {d : Date} (h : d.Valid) : d.next.Valid := by
  obtain ⟨hpos, hle, hday, hlast⟩ := h
  have hlong (year : Int) (month : Nat) : 1 ≤ daysInMonth year month := by
    unfold daysInMonth
    split
    · split <;> decide
    · split <;> decide
  unfold Date.next
  split
  · exact ⟨hpos, hle, by simp, by assumption⟩
  · split
    · exact ⟨by simp, by assumption, by simp, hlong _ _⟩
    · exact ⟨by simp, by simp, by simp, hlong _ _⟩

/-- The last day of a month is followed by the first of the next one, also in number. -/
theorem dayNumber_month_end {year : Int} {month : Nat} (hpos : 1 ≤ month) (hlt : month < 12) :
    dayNumber ⟨year, month + 1, 1⟩ = dayNumber ⟨year, month, daysInMonth year month⟩ + 1 := by
  by_cases hfebruary : month = 2
  · -- The leap day, if there is one, is the last of the March year.
    subst hfebruary
    rw [daysInMonth_two]
    have hleap := isLeap_iff year
    unfold dayNumber
    by_cases h : isLeap year = true
    · have := hleap.mp h
      simp only [h, if_true]
      norm_num
      omega
    · have := mt hleap.mpr h
      simp only [h]
      norm_num
      omega
  · rw [daysInMonth_of_ne hfebruary]
    unfold dayNumber
    interval_cases month <;> simp_all <;> omega

/-- The next day has the next number. -/
theorem Valid.dayNumber_next {d : Date} (h : d.Valid) : d.next.dayNumber = d.dayNumber + 1 := by
  obtain ⟨year, month, day⟩ := d
  obtain ⟨hpos, hle, hday, hlast⟩ := h
  dsimp only at hpos hle hday hlast
  unfold Date.next
  dsimp only
  by_cases hmore : day < daysInMonth year month
  · rw [if_pos hmore]
    unfold dayNumber
    dsimp only
    omega
  · obtain rfl : day = daysInMonth year month := by omega
    rw [if_neg hmore]
    by_cases hmonth : month < 12
    · rw [if_pos hmonth]
      exact dayNumber_month_end hpos hmonth
    · rw [if_neg hmonth]
      obtain rfl : month = 12 := by omega
      rw [daysInMonth_of_ne (by decide)]
      unfold dayNumber
      norm_num
      omega

theorem IsDay.dayNumber {d : Date} (h : d.IsDay n) : d.Valid ∧ d.dayNumber = n := by
  induction h with
  | first => exact ⟨⟨by decide, by decide, by decide, by decide⟩, by decide⟩
  | later _ ih => exact ⟨ih.1.next, by rw [ih.1.dayNumber_next, ih.2]⟩
  | earlier hd _ ih =>
      have := hd.dayNumber_next
      exact ⟨hd, by omega⟩

/-- The name of the next number is that of the next day. -/
theorem ofDayNumber_succ (n : Int) : ofDayNumber (n + 1) = (ofDayNumber n).next := by
  have hvalid := valid_ofDayNumber n
  rw [← ofDayNumber_dayNumber hvalid.next, hvalid.dayNumber_next, dayNumber_ofDayNumber]

theorem isDay_ofDayNumber (n : Int) : (ofDayNumber n).IsDay n := by
  induction n using Int.induction_on with
  | zero => exact .first
  | succ n ih =>
      rw [ofDayNumber_succ]
      exact ih.later
  | pred n ih =>
      refine .earlier (valid_ofDayNumber _) ?_
      rw [← ofDayNumber_succ, Int.sub_add_cancel]
      exact ih

/-- **The named date is the one that counting day by day comes to**, and it is the only one. -/
theorem isDay_iff {d : Date} : d.IsDay n ↔ ofDayNumber n = d := by
  constructor
  · intro h
    obtain ⟨hvalid, hn⟩ := h.dayNumber
    rw [← hn]
    exact ofDayNumber_dayNumber hvalid
  · rintro rfl
    exact isDay_ofDayNumber n

/-! ### The years that can be told -/

/-- The day's date is in a year that can be told. -/
def Told (n : Int) : Prop := ∃ d : Date, d.IsDay n ∧ minYear ≤ d.year ∧ d.year ≤ maxYear

theorem told_iff_ofDayNumber (n : Int) :
    Told n ↔ minYear ≤ (ofDayNumber n).year ∧ (ofDayNumber n).year ≤ maxYear := by
  unfold Told
  simp [isDay_iff]

/-- The days up to a March year, by its leap days. -/
theorem Parts.sum_years (h : Parts n era century cycle year dayOfYear) {marchYear : Int}
    (hyear : era * 400 + 100 * century + 4 * cycle + year = marchYear) :
    n + 719468 =
      365 * marchYear + marchYear / 4 - marchYear / 100 + marchYear / 400 + dayOfYear := by
  obtain ⟨hsum, hc, hq, hy, -, -⟩ := h
  have hcycles : marchYear / 4 = 100 * era + 25 * century + cycle := by omega
  have hcenturies : marchYear / 100 = 4 * era + century := by omega
  have heras : marchYear / 400 = era := by omega
  rw [hcycles, hcenturies, heras]
  omega

/-- The days that an instant may have are those of the years that can be told. -/
theorem told_iff (n : Int) : Told n ↔ -96465292 ≤ n ∧ n ≤ 95026236 := by
  obtain ⟨era, century, cycle, year, dayOfYear, h⟩ := exists_parts n
  rw [told_iff_ofDayNumber, h.ofDayNumber_eq]
  generalize hyear : era * 400 + 100 * century + 4 * cycle + year = marchYear
  have hsum := h.sum_years hyear
  have hday := h.day_mem
  unfold ofMarchYear minYear maxYear
  dsimp only
  -- The first and the last year that can be told begin in the March year before.
  rcases lt_trichotomy marchYear 262142 with hlt | heq | hgt
  · rcases lt_trichotomy marchYear (-262144) with hlt' | heq | hgt'
    · split <;> omega
    · split <;> omega
    · split <;> omega
  · split <;> omega
  · split <;> omega

/-- A day in a year that can be told has a date. -/
theorem ofParts?_ofDayNumber (h : Told n) :
    ofParts? (ofDayNumber n).year (ofDayNumber n).month (ofDayNumber n).day =
      some (ofDayNumber n) := by
  obtain ⟨hpos, hle, hday, hlast⟩ := valid_ofDayNumber n
  obtain ⟨hfirst, hyear⟩ := (told_iff_ofDayNumber n).mp h
  unfold ofParts?
  rw [if_pos ⟨hfirst, hyear, hpos, hle, hday, hlast⟩]

end Bourse.Date
