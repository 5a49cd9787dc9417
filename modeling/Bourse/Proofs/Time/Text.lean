/-
An instant survives its text.

A date is written with as many digits as its year needs, and a second with as many as its
fraction needs, so what is written has no fixed width.  Each part is read back on its own,
whatever comes after it; only where a part has no fixed width, what comes after it must not
begin with a digit.  Second 60 stands for a leap second, and for nothing else, because no
other second is written so.
-/
import Bourse.Proofs.Time.Gregorian
import Bourse.Proofs.Text.Digits
import Bourse.Time.Instant

namespace Bourse

open Bourse.Text

variable {rest : List Char}

/-! ### Dates -/

namespace Date

theorem readMark_self {mark : Char} (h : isBlank mark = false) (cs : List Char) :
    readMark mark (mark :: cs) = .ok cs := by
  unfold readMark
  rw [dropBlanks_cons h, TimeFault.readMark_self]

theorem readPart_paddedDigits {greatest n : Nat} (hpos : 1 ≤ n) (hlt : n < 100)
    (hle : n ≤ greatest) (rest : List Char) :
    readPart greatest (paddedDigits 2 n ++ rest) = .ok (n, rest) := by
  have hne : n ≠ 0 := by omega
  unfold readPart
  rw [TimeFault.readNumber_two hlt hle]
  simp only [bind, Except.bind, if_neg hne]
  rfl

/-- After a sign the year may have any number of digits. -/
theorem readNumber_signed {n greatest : Nat} (h : n ≤ greatest) (width : Nat)
    (hrest : NoDigit rest) :
    TimeFault.readNumber (paddedDigits width n ++ rest).length greatest
      (paddedDigits width n ++ rest) = .ok (n, rest) := by
  have hvalue := ofDigits_paddedDigits width n
  rw [TimeFault.readNumber_append (run_paddedDigits width n) (by simp) (Or.inr hrest) (by omega),
    hvalue]

/-- A year without a sign has four digits. -/
theorem readNumber_short {n : Nat} (h : n < 10000) (rest : List Char) :
    TimeFault.readNumber 4 maxWrittenYear (paddedDigits 4 n ++ rest) = .ok (n, rest) := by
  have hlength : (paddedDigits 4 n).length = 4 := length_paddedDigits (by decide) h
  have hvalue := ofDigits_paddedDigits 4 n
  have hle : n ≤ maxWrittenYear := h.le.trans (by decide)
  rw [TimeFault.readNumber_append (run_paddedDigits 4 n) hlength.le (Or.inl hlength) (by omega),
    hvalue]

/-- A year is read back from four digits, or from a sign and all its digits. -/
theorem readYear_writeYear {y : Int} (h : y.natAbs ≤ maxWrittenYear) (hrest : NoDigit rest) :
    readYear (writeYear y ++ rest) = .ok (y, rest) := by
  unfold writeYear
  by_cases hshort : 0 ≤ y ∧ y ≤ 9999
  · rw [if_pos hshort]
    have hrun := run_paddedDigits 4 y.toNat
    have hread := readNumber_short (show y.toNat < 10000 by omega) rest
    unfold readYear
    rw [hrun.dropBlanks]
    split
    · rename_i hminus
      exact absurd hminus (hrun.append_ne_cons (by decide) _ _)
    · rename_i hplus
      exact absurd hplus (hrun.append_ne_cons (by decide) _ _)
    · simp only [hread, bind, Except.bind]
      rw [Int.toNat_of_nonneg hshort.1]
      rfl
  · rw [if_neg hshort]
    unfold readYear
    by_cases hnegative : y < 0
    · rw [if_pos hnegative, List.cons_append, dropBlanks_cons (by decide)]
      simp only [readNumber_signed (h.trans (Nat.le_succ _)) 4 hrest, bind, Except.bind]
      rw [Int.ofNat_natAbs_of_nonpos hnegative.le, neg_neg]
      rfl
    · rw [if_neg hnegative, List.cons_append, dropBlanks_cons (by decide)]
      simp only [readNumber_signed h 4 hrest, bind, Except.bind]
      rw [Int.natAbs_of_nonneg (not_lt.mp hnegative)]
      rfl

/-- A date is read back from the front of a text, with no need of what comes after it. -/
theorem read_write {d : Date} (h : d.Valid) (hyear : d.year.natAbs ≤ maxWrittenYear)
    (rest : List Char) : read (d.write ++ rest) = .ok ((d.year, d.month, d.day), rest) := by
  obtain ⟨hmonth, hmonth', hday, hday'⟩ := h
  have hshort : daysInMonth d.year d.month ≤ 31 := by
    unfold daysInMonth
    split
    · split <;> omega
    · split <;> omega
  have hdash (cs : List Char) : NoDigit ('-' :: cs) := noDigit_cons (by decide)
  unfold read write
  simp only [List.append_assoc, List.cons_append, readYear_writeYear hyear (hdash _),
    readMark_self (show isBlank '-' = false by decide),
    readPart_paddedDigits hmonth (show d.month < 100 by omega) hmonth',
    readPart_paddedDigits hday (show d.day < 100 by omega) (show d.day ≤ 31 by omega),
    bind, Except.bind]
  rfl

end Date

/-! ### Instants -/

namespace Instant

theorem readPart_paddedDigits {greatest n : Nat} (hlt : n < 100) (hle : n ≤ greatest)
    (rest : List Char) : readPart greatest (paddedDigits 2 n ++ rest) = some (n, rest) := by
  unfold readPart
  rw [TimeFault.readNumber_two hlt hle]
  rfl

theorem readColon_self (cs : List Char) : readColon (':' :: cs) = some cs := by
  unfold readColon
  rw [Date.readMark_self (by decide)]
  rfl

/-- A fraction of at most nine digits is read as so many parts of a billion. -/
theorem readFraction_digits {ds : List Char} (h : Run ds) (hlength : ds.length ≤ 9)
    (hrest : NoDigit rest) :
    readFraction ('.' :: (ds ++ rest)) = some (ofDigits ds * tenTo (9 - ds.length), rest) := by
  simp only [readFraction]
  rw [takeWhile_digits h.digits hrest, List.take_of_length_le hlength, List.drop_left]
  simp [h.ne_nil]

theorem readFraction_paddedDigits {width n : Nat} (hwidth : 0 < width) (hle : width ≤ 9)
    (hn : n < tenTo width) (hrest : NoDigit rest) :
    readFraction ('.' :: (paddedDigits width n ++ rest)) = some (n * tenTo (9 - width), rest) := by
  have hlength := length_paddedDigits hwidth hn
  have hread := readFraction_digits (run_paddedDigits width n) (hlength.trans_le hle) hrest
  rw [hlength, ofDigits_paddedDigits] at hread
  exact hread

/-- A fraction is read back, whichever number of digits was enough for it. -/
theorem readFraction_writeFraction {nanos : Nat} (h : nanos < 1000000000) :
    readFraction (writeFraction nanos ++ ['Z']) = some (nanos, ['Z']) := by
  have hzone : NoDigit ['Z'] := noDigit_cons (by decide)
  unfold writeFraction
  by_cases hzero : nanos = 0
  · subst hzero
    rfl
  rw [if_neg hzero]
  by_cases hmilli : nanos % 1000000 = 0
  · have hn : nanos / 1000000 < tenTo 3 := by
      show nanos / 1000000 < 1000
      omega
    rw [if_pos hmilli, List.cons_append, readFraction_paddedDigits (by decide) (by decide) hn hzone,
      show tenTo (9 - 3) = 1000000 from rfl, Nat.div_mul_cancel (Nat.dvd_of_mod_eq_zero hmilli)]
  rw [if_neg hmilli]
  by_cases hmicro : nanos % 1000 = 0
  · have hn : nanos / 1000 < tenTo 6 := by
      show nanos / 1000 < 1000000
      omega
    rw [if_pos hmicro, List.cons_append, readFraction_paddedDigits (by decide) (by decide) hn hzone,
      show tenTo (9 - 6) = 1000 from rfl, Nat.div_mul_cancel (Nat.dvd_of_mod_eq_zero hmicro)]
  rw [if_neg hmicro, List.cons_append, readFraction_paddedDigits (by decide) (by decide) h hzone,
    show tenTo (9 - 9) = 1 from rfl, Nat.mul_one]

/-- The time of day on a clock; a second of 60 is an overfull 59. -/
theorem readClock_write {hour minute second nanos : Nat} (hhour : hour ≤ 23)
    (hminute : minute ≤ 59) (hsecond : second ≤ 60) (hnanos : nanos < 1000000000) :
    readClock (paddedDigits 2 hour ++ ':' :: (paddedDigits 2 minute ++
      ':' :: (paddedDigits 2 second ++ (writeFraction nanos ++ ['Z'])))) =
      if second = 60 then some ((hour * 3600 + minute * 60 + 59, nanos + 1000000000), ['Z'])
      else some ((hour * 3600 + minute * 60 + second, nanos), ['Z']) := by
  unfold readClock
  simp only [readPart_paddedDigits (show hour < 100 by omega) hhour,
    readPart_paddedDigits (show minute < 100 by omega) hminute,
    readPart_paddedDigits (show second < 100 by omega) hsecond, readColon_self,
    readFraction_writeFraction hnanos, bind, Option.bind]
  split
  · rfl
  · rfl

variable (t : Instant)

/-- The clock tells the second of the day and the nanoseconds of it. -/
theorem readClock_self :
    readClock (paddedDigits 2 (t.second / 3600) ++ ':' :: (paddedDigits 2 (t.second / 60 % 60) ++
      ':' :: (paddedDigits 2
        (if 1000000000 ≤ t.nanos then t.second % 60 + 1 else t.second % 60) ++
        (writeFraction (if 1000000000 ≤ t.nanos then t.nanos - 1000000000 else t.nanos) ++
          ['Z'])))) = some ((t.second, t.nanos), ['Z']) := by
  have hsecond := t.second_lt
  have hnanos := t.nanos_lt
  by_cases hleap : 1000000000 ≤ t.nanos
  · rw [if_pos hleap, if_pos hleap,
      readClock_write (by omega) (by omega) (by omega) (by omega), if_pos (by omega)]
    congr 3
    · omega
    · omega
  · rw [if_neg hleap, if_neg hleap,
      readClock_write (by omega) (by omega) (by omega) (by omega), if_neg (by omega)]
    congr 3
    omega

/-- The date of an instant is one that can be told. -/
theorem told : Date.Told t.day := (Date.told_iff t.day).mpr t.day_mem

theorem ofParts?_self : ofParts? t.day t.second t.nanos = some t := by
  unfold ofParts?
  rw [dif_pos ⟨t.day_mem, t.second_lt, t.nanos_lt⟩]

/-- The date in front of an instant is read back. -/
theorem read_date (rest : List Char) :
    Date.read ((Date.ofDayNumber t.day).write ++ rest) =
      .ok (((Date.ofDayNumber t.day).year, (Date.ofDayNumber t.day).month,
        (Date.ofDayNumber t.day).day), rest) := by
  refine Date.read_write (Date.valid_ofDayNumber t.day) ?_ rest
  obtain ⟨hfirst, hlast⟩ := (Date.told_iff_ofDayNumber t.day).mp t.told
  have hmax : Date.maxWrittenYear = 2147483647 := rfl
  unfold Date.minYear at hfirst
  unfold Date.maxYear at hlast
  omega

/-- **An instant's text gives back the same instant**, to the nanosecond. -/
theorem ofText?_text : ofText? t.text = some t := by
  have hzone : readZone (dropBlanks ['Z']) = some (0, []) := by decide
  have hsecond := t.second_lt
  have hday : t.day + ((t.second : Int) - 0) / 86400 = t.day := by omega
  have htime : (((t.second : Int) - 0) % 86400).toNat = t.second := by omega
  unfold ofText? text
  rw [String.toList_ofList]
  unfold write
  simp only [List.append_assoc, List.cons_append]
  rw [t.read_date]
  simp only [Except.toOption, bind, Option.bind, Date.ofParts?_ofDayNumber t.told, true_or, if_true]
  rw [t.readClock_self]
  simp only [hzone, Date.dayNumber_ofDayNumber, hday, htime, t.ofParts?_self]
  rfl

end Instant

end Bourse
