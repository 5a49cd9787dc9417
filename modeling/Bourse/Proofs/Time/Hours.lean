/-
Market hours as arithmetic on days.

A calendar looks at an instant through a clock of the exchange's own, in parts: the day, its
name in the Gregorian calendar, its place in the week, the second of the day.  Here the market
hours are put as they are meant (`Trading`), for the number of a day and the nanoseconds since
its midnight, and these two are what is left of the instant when it is divided by the length of
a day.  Nothing else of the instant counts.  So two exchanges whose clocks show the same agree,
and without holidays every week is like the one before.
-/
import Bourse.Calendar
import Bourse.Proofs.Time.Gregorian
import Bourse.Proofs.Time.Session

namespace Bourse

/-! ### Division by the length of a day -/

namespace Instant

/-- The instant is not in a leap second. -/
def Ordinary (t : Instant) : Prop := t.nanos < 1000000000

instance (t : Instant) : Decidable t.Ordinary := inferInstanceAs (Decidable (t.nanos < _))

/-- The nanoseconds since 1970-01-01, of which a leap second has none of its own. -/
def nanoseconds (t : Instant) : Int := (t.day * 86400 + t.second) * 1000000000 + t.nanos

/-- The day on a clock that runs so many minutes ahead of UTC. -/
def dayAt (t : Instant) (minutes : Int) : Int :=
  (t.nanoseconds + minutes * 60 * 1000000000) / (86400 * 1000000000)

/-- The nanoseconds since midnight on such a clock. -/
def timeAt (t : Instant) (minutes : Int) : Int :=
  (t.nanoseconds + minutes * 60 * 1000000000) % (86400 * 1000000000)

variable {t u : Instant}

theorem localTime_day (ht : t.Ordinary) (minutes : Int) :
    (t.localTime (minutes * 60)).1 = t.dayAt minutes := by
  unfold Ordinary at ht
  unfold localTime dayAt nanoseconds
  dsimp only
  omega

theorem localTime_second (ht : t.Ordinary) (minutes : Int) :
    ((t.localTime (minutes * 60)).2 : Int) * 1000000000 + t.nanos = t.timeAt minutes := by
  unfold Ordinary at ht
  unfold localTime timeAt nanoseconds
  dsimp only
  omega

/-- The clock shows the same at a later instant if it is put back by as much. -/
theorem dayAt_shift {shift : Int} (h : u.nanoseconds = t.nanoseconds + shift * 60 * 1000000000)
    (minutes : Int) : u.dayAt (minutes - shift) = t.dayAt minutes ∧
      u.timeAt (minutes - shift) = t.timeAt minutes := by
  unfold dayAt timeAt
  rw [h]
  have hsame : t.nanoseconds + shift * 60 * 1000000000 + (minutes - shift) * 60 * 1000000000 =
      t.nanoseconds + minutes * 60 * 1000000000 := by ring
  rw [hsame]
  exact ⟨rfl, rfl⟩

/-- After seven days the clock shows the same time of day. -/
theorem dayAt_week (h : u.nanoseconds = t.nanoseconds + 7 * 86400 * 1000000000)
    (minutes : Int) :
    u.dayAt minutes = t.dayAt minutes + 7 ∧ u.timeAt minutes = t.timeAt minutes := by
  unfold dayAt timeAt
  rw [h]
  omega

end Instant

/-! ### What market hours mean -/

/-- The weekday's place in the week, which begins on a Monday. -/
def Weekday.number : Weekday → Int
  | monday => 0
  | tuesday => 1
  | wednesday => 2
  | thursday => 3
  | friday => 4
  | saturday => 5
  | sunday => 6

theorem Date.weekdayOfDayNumber_eq_iff {n : Int} {day : Weekday} :
    weekdayOfDayNumber n = day ↔ day.number = (n + 3) % 7 := by
  unfold weekdayOfDayNumber
  have hmod : 0 ≤ (n + 3) % 7 ∧ (n + 3) % 7 < 7 := by omega
  generalize (n + 3) % 7 = place at hmod ⊢
  obtain ⟨hnonneg, hlt⟩ := hmod
  interval_cases place <;> cases day <;> decide

namespace MarketHours

/-- The session takes place on the day `n`, and is under way so many nanoseconds after midnight. -/
structure Trading (hours : MarketHours) (n time : Int) : Prop where
  /-- The weekday is among those listed. -/
  weekday : ∃ name ∈ hours.tradingDays, ∃ day, Weekday.ofText? name = some day ∧
    day.number = (n + 3) % 7
  /-- None of the holidays is the date of the day. -/
  no_holiday : ∀ d ∈ hours.holidays, ¬ d.IsDay n
  opened : ∃ hour minute second, SessionTime.Tells hours.opening.toList hour minute second ∧
    (hour * 3600 + minute * 60 + second) * 1000000000 ≤ time
  not_closed : ∃ hour minute second, SessionTime.Tells hours.closing.toList hour minute second ∧
    time < (hour * 3600 + minute * 60 + second) * 1000000000

/-- With no holidays the session of a day is that of the day a week before. -/
theorem trading_week {hours : MarketHours} (h : hours.holidays = []) (n time : Int) :
    hours.Trading (n + 7) time ↔ hours.Trading n time := by
  have hplace : (n + 7 + 3) % 7 = (n + 3) % 7 := by omega
  constructor
  · rintro ⟨hweekday, -, hopened, hclosed⟩
    rw [hplace] at hweekday
    exact ⟨hweekday, by simp [h], hopened, hclosed⟩
  · rintro ⟨hweekday, -, hopened, hclosed⟩
    rw [← hplace] at hweekday
    exact ⟨hweekday, by simp [h], hopened, hclosed⟩

end MarketHours

/-! ### The calendar of accepted market hours -/

theorem mem_mapM_ok {ε α β : Type} {f : α → Except ε β} {as : List α} {bs : List β}
    (h : as.mapM f = .ok bs) (b : β) : b ∈ bs ↔ ∃ a ∈ as, f a = .ok b := by
  induction as generalizing bs with
  | nil =>
      cases h
      simp
  | cons a as ih =>
      rw [List.mapM_cons] at h
      obtain ⟨b', hb', h⟩ := Except.bind_ok h
      obtain ⟨rest, hrest, h⟩ := Except.bind_ok h
      cases h
      rw [List.mem_cons, ih hrest]
      simp [hb', eq_comm]

theorem SessionTime.ofConfig_ok {field text : String} {t : SessionTime}
    (h : ofConfig field text = .ok t) : parse text = .ok t := by
  unfold ofConfig at h
  split at h
  · rename_i hparse
    cases h
    exact hparse
  · cases h

theorem Weekday.ofConfig_ok_iff {text : String} {day : Weekday} :
    ofConfig text = .ok day ↔ ofText? text = some day := by
  unfold ofConfig
  cases ofText? text with
  | none => simp [badConfig]
  | some day' => simp

namespace Calendar

variable {hours : MarketHours} {c : Calendar} {t : Instant}

/-- The calendar is made of what the market hours say. -/
structure Describes (hours : MarketHours) (c : Calendar) : Prop where
  offset : c.offset = hours.utcOffsetMinutes * 60
  opening : SessionTime.parse hours.opening = .ok c.opening
  closing : SessionTime.parse hours.closing = .ok c.closing
  days : ∀ day, day ∈ c.days ↔ ∃ name ∈ hours.tradingDays, Weekday.ofText? name = some day
  holidays : c.holidays = hours.holidays

theorem describes (h : ofMarketHours hours = .ok c) : Describes hours c := by
  unfold ofMarketHours at h
  dsimp only at h
  split at h
  · cases h
  · obtain ⟨opening, hopening, h⟩ := Except.bind_ok h
    obtain ⟨closing, hclosing, h⟩ := Except.bind_ok h
    split at h
    · cases h
    · split at h
      · cases h
      · obtain ⟨days, hdays, h⟩ := Except.bind_ok h
        cases h
        refine ⟨rfl, SessionTime.ofConfig_ok hopening, SessionTime.ofConfig_ok hclosing, ?_, rfl⟩
        intro day
        simp only [mem_mapM_ok hdays, Weekday.ofConfig_ok_iff]

/-- **The calendar is open when its market hours say so**, outside of leap seconds. -/
theorem Describes.isOpen_iff (h : Describes hours c) (ht : t.Ordinary) :
    c.isOpen t = true ↔
      hours.Trading (t.dayAt hours.utcOffsetMinutes) (t.timeAt hours.utcOffsetMinutes) := by
  have hdays : c.days.contains (Date.weekdayOfDayNumber (t.dayAt hours.utcOffsetMinutes)) = true ↔
      ∃ name ∈ hours.tradingDays, ∃ day, Weekday.ofText? name = some day ∧
        day.number = (t.dayAt hours.utcOffsetMinutes + 3) % 7 := by
    rw [List.contains_iff_mem, h.days]
    simp only [← Date.weekdayOfDayNumber_eq_iff]
    constructor
    · rintro ⟨name, hname, hday⟩
      exact ⟨name, hname, _, hday, rfl⟩
    · rintro ⟨name, hname, day, hday, rfl⟩
      exact ⟨name, hname, hday⟩
  have hholidays : (!c.holidays.contains (Date.ofDayNumber (t.dayAt hours.utcOffsetMinutes))) =
      true ↔ ∀ d ∈ hours.holidays, ¬ d.IsDay (t.dayAt hours.utcOffsetMinutes) := by
    rw [Bool.not_eq_true', ← Bool.not_eq_true, List.contains_iff_mem, h.holidays]
    simp only [Date.isDay_iff]
    constructor
    · intro hnot d hd heq
      exact hnot (heq ▸ hd)
    · intro hall hmem
      exact hall _ hmem rfl
  have hopened := SessionTime.cmp_ne_gt_iff (SessionTime.nanos_of_parse h.opening)
    (t.localTime c.offset).2 ht
  have hclosed := SessionTime.cmp_eq_lt_iff (SessionTime.nanos_of_parse h.closing)
    (t.localTime c.offset).2 ht
  rw [h.offset] at hopened hclosed
  rw [Instant.localTime_second ht, ← SessionTime.exists_tells_iff h.opening
    (P := (· ≤ t.timeAt hours.utcOffsetMinutes))] at hopened
  rw [Instant.localTime_second ht, ← SessionTime.exists_tells_iff h.closing
    (P := (t.timeAt hours.utcOffsetMinutes < ·))] at hclosed
  unfold isOpen
  rw [h.offset]
  dsimp only
  rw [Instant.localTime_day ht, Bool.and_eq_true, Bool.and_eq_true, Bool.and_eq_true, hdays,
    hholidays, hopened, hclosed]
  constructor
  · rintro ⟨⟨⟨hday, hfree⟩, hopen⟩, hclose⟩
    exact ⟨hday, hfree, hopen, hclose⟩
  · rintro ⟨hday, hfree, hopen, hclose⟩
    exact ⟨⟨⟨hday, hfree⟩, hopen⟩, hclose⟩

/-- There is an answer if the day on the exchange's clock is one that can be told. -/
theorem Describes.isOpen?_of_told (h : Describes hours c) (ht : t.Ordinary)
    (htold : Date.Told (t.dayAt hours.utcOffsetMinutes)) : c.isOpen? t = .ok (c.isOpen t) := by
  rw [Date.told_iff] at htold
  have hsecond : (t.localTime c.offset).2 < 86400 := by
    unfold Instant.localTime
    dsimp only
    omega
  unfold isOpen?
  rw [h.offset] at hsecond ⊢
  dsimp only
  rw [Instant.localTime_day ht]
  simp [Instant.ofParts?, htold, hsecond]

theorem Describes.isOpen?_of_not_told (h : Describes hours c) (ht : t.Ordinary)
    (htold : ¬ Date.Told (t.dayAt hours.utcOffsetMinutes)) :
    c.isOpen? t = .error .localTime := by
  rw [Date.told_iff] at htold
  unfold isOpen?
  rw [h.offset]
  dsimp only
  rw [Instant.localTime_day ht]
  simp [Instant.ofParts?, htold]

/--
**Market hours are arithmetic on days.**  Let the exchange's clock show the day `n`, counted
from 1970-01-01, and some time since midnight.  The market is open just if the place of `n` in
the week is a trading day's, the Gregorian date of `n` is no holiday and the time is within the
session, in which second 60 is the start of the next minute.  So nothing changes for a later
instant on a clock that is put back by as much, and with no holidays nothing changes after
seven days.
-/
theorem opens_by_day (h : ofMarketHours hours = .ok c) :
    (∀ t : Instant, t.Ordinary → Date.Told (t.dayAt hours.utcOffsetMinutes) →
      ∃ answer, c.isOpen? t = .ok answer ∧ (answer = true ↔
        hours.Trading (t.dayAt hours.utcOffsetMinutes) (t.timeAt hours.utcOffsetMinutes))) ∧
    (∀ (shift : Int) (c' : Calendar) (t u : Instant),
      ofMarketHours { hours with utcOffsetMinutes := hours.utcOffsetMinutes - shift } = .ok c' →
      t.Ordinary → u.Ordinary → u.nanoseconds = t.nanoseconds + shift * 60 * 1000000000 →
        c'.isOpen? u = c.isOpen? t) ∧
    (hours.holidays = [] → ∀ t u : Instant, t.Ordinary → u.Ordinary →
      Date.Told (t.dayAt hours.utcOffsetMinutes) → Date.Told (u.dayAt hours.utcOffsetMinutes) →
      u.nanoseconds = t.nanoseconds + 7 * 86400 * 1000000000 → c.isOpen? u = c.isOpen? t) := by
  have hc := describes h
  refine ⟨?_, ?_, ?_⟩
  · intro t ht htold
    exact ⟨_, hc.isOpen?_of_told ht htold, hc.isOpen_iff ht⟩
  · intro shift c' t u h' ht hu hshift
    have hc' := describes h'
    obtain ⟨hday, htime⟩ := Instant.dayAt_shift hshift hours.utcOffsetMinutes
    by_cases htold : Date.Told (t.dayAt hours.utcOffsetMinutes)
    · rw [hc.isOpen?_of_told ht htold, hc'.isOpen?_of_told hu (hday ▸ htold)]
      congr 1
      rw [Bool.eq_iff_iff, hc.isOpen_iff ht, hc'.isOpen_iff hu, hday, htime]
      exact ⟨fun h => ⟨h.1, h.2, h.3, h.4⟩, fun h => ⟨h.1, h.2, h.3, h.4⟩⟩
    · rw [hc.isOpen?_of_not_told ht htold, hc'.isOpen?_of_not_told hu (hday ▸ htold)]
  · intro hnone t u ht hu htold htold' hweek
    obtain ⟨hday, htime⟩ := Instant.dayAt_week hweek hours.utcOffsetMinutes
    rw [hc.isOpen?_of_told ht htold, hc.isOpen?_of_told hu htold']
    congr 1
    rw [Bool.eq_iff_iff, hc.isOpen_iff ht, hc.isOpen_iff hu, hday, htime]
    exact MarketHours.trading_week hnone _ _

/-- A session that is open to midnight, on a clock ten hours behind UTC. -/
def lateHours : MarketHours := ⟨-600, "14:00", "23:59:60", ["Thu"], []⟩

theorem opens_by_day_lateHours :
    ∃ c c' : Calendar, ofMarketHours lateHours = .ok c ∧ lateHours.holidays = [] ∧
      ofMarketHours { lateHours with utcOffsetMinutes := -600 - 90 } = .ok c' ∧
      ∃ t u v : Instant, t.Ordinary ∧ u.Ordinary ∧ v.Ordinary ∧
        u.nanoseconds = t.nanoseconds + 90 * 60 * 1000000000 ∧
        v.nanoseconds = t.nanoseconds + 7 * 86400 * 1000000000 ∧
        (⟨1968, 2, 29⟩ : Date).IsDay (t.dayAt (-600)) ∧ Date.Told (t.dayAt (-600)) ∧
        Date.Told (v.dayAt (-600)) ∧ lateHours.Trading (t.dayAt (-600)) (t.timeAt (-600)) ∧
        c.isOpen? t = .ok true ∧ c'.isOpen? u = .ok true ∧ c.isOpen? v = .ok true := by
  have hc : ofMarketHours lateHours =
      .ok ⟨-36000, ⟨50400, 0⟩, ⟨86399, 1000000000⟩, [.thursday], []⟩ := by rfl
  have hc' : ofMarketHours { lateHours with utcOffsetMinutes := -600 - 90 } =
      .ok ⟨-41400, ⟨50400, 0⟩, ⟨86399, 1000000000⟩, [.thursday], []⟩ := by rfl
  -- Half a second before the end of the leap day, when it has long been March in UTC.
  obtain ⟨t, u, v, ht, hu, hv, hday, htold, htold', hshift, hweek, hopen⟩ : ∃ t u v : Instant,
      t.Ordinary ∧ u.Ordinary ∧ v.Ordinary ∧ t.dayAt (-600) = -672 ∧ Date.Told (t.dayAt (-600)) ∧
        Date.Told (v.dayAt (-600)) ∧ u.nanoseconds = t.nanoseconds + 90 * 60 * 1000000000 ∧
        v.nanoseconds = t.nanoseconds + 7 * 86400 * 1000000000 ∧
        isOpen? ⟨-36000, ⟨50400, 0⟩, ⟨86399, 1000000000⟩, [.thursday], []⟩ t = .ok true := by
    refine ⟨⟨-671, 35999, 500000000, by decide, by decide, by decide⟩,
      ⟨-671, 41399, 500000000, by decide, by decide, by decide⟩,
      ⟨-664, 35999, 500000000, by decide, by decide, by decide⟩, ?_⟩
    simp only [Date.told_iff]
    decide
  obtain ⟨hanswer, hlate, hweekly⟩ := opens_by_day hc
  obtain ⟨answer, hanswer, htrading⟩ := hanswer t ht htold
  refine ⟨_, _, hc, rfl, hc', t, u, v, ht, hu, hv, hshift, hweek, ?_, htold, htold', ?_, hopen,
    ?_, ?_⟩
  · rw [hday, Date.isDay_iff]
    decide
  · rw [hopen, Except.ok.injEq] at hanswer
    exact htrading.mp hanswer.symm
  · exact (hlate 90 _ t u hc' ht hu hshift).trans hopen
  · exact (hweekly rfl t v ht hv htold htold' hweek).trans hopen

end Calendar

end Bourse
