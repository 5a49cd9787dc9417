/-
Which texts tell a time of day, and which time it is.

A session time is read part by part, and a fault decides which of two formats is meant.  Here
the same is said without reading: `Tells` gives the texts and what they tell.  `parse_eq_ok`
says that just these are read.  On the way from midnight in nanoseconds it makes no difference
that second 60 is kept as an overfull second 59 (`nanoseconds_ofHands`).
-/
import Bourse.Proofs.Fill
import Bourse.Proofs.Text.Digits
import Bourse.Time.Session

namespace Bourse.SessionTime

open Bourse.Text

/-! ### Parts -/

/-- White space, and then one or two digits for a number that is at most `greatest`. -/
def Part (greatest : Nat) (cs : List Char) (n : Nat) : Prop :=
  ∃ blanks ds, cs = blanks ++ ds ∧ (∀ c ∈ blanks, isBlank c = true) ∧ Run ds ∧ ds.length ≤ 2 ∧
    n = ofDigits ds ∧ n ≤ greatest

variable {greatest n : Nat} {cs rest : List Char}

theorem Part.readPart (h : Part greatest cs n) (hrest : NoDigit rest) :
    readPart greatest (cs ++ rest) = .ok (n, rest) := by
  obtain ⟨blanks, ds, rfl, hblanks, hrun, hlength, rfl, hle⟩ := h
  unfold SessionTime.readPart
  rw [List.append_assoc, dropBlanks_append hblanks, hrun.dropBlanks]
  exact TimeFault.readNumber_append hrun hlength (Or.inr hrest) hle

theorem part_of_readPart (h : SessionTime.readPart greatest cs = .ok (n, rest)) :
    ∃ part, Part greatest part n ∧ cs = part ++ rest := by
  obtain ⟨ds, hrun, hlength, hcs, hn, hle⟩ := TimeFault.readNumber_eq_ok h
  refine ⟨cs.takeWhile isBlank ++ ds, ⟨_, ds, rfl, ?_, hrun, hlength, hn, hle⟩, ?_⟩
  · intro c hc
    exact List.mem_takeWhile_imp hc
  · rw [List.append_assoc, ← hcs]
    exact List.takeWhile_append_dropWhile.symm

/-- There is no colon in a part. -/
theorem Part.count_colon (h : Part greatest cs n) : cs.count ':' = 0 := by
  obtain ⟨blanks, ds, rfl, hblanks, hrun, -⟩ := h
  rw [List.count_append, Nat.add_eq_zero_iff, List.count_eq_zero, List.count_eq_zero]
  constructor
  · intro hc
    exact absurd (hblanks _ hc) (by decide)
  · intro hc
    exact absurd (hrun.digits _ hc) (by decide)

/-! ### Whole texts -/

/-- The time of day on a clock; a second of 60 is kept as an overfull 59. -/
def ofHands (hour minute second : Nat) : SessionTime :=
  if second = 60 then ⟨hour * 3600 + minute * 60 + 59, 1000000000⟩
  else ⟨hour * 3600 + minute * 60 + second, 0⟩

/-- The text tells this hour, minute and second. -/
inductive Tells : List Char → Nat → Nat → Nat → Prop
  | short {hs ms : List Char} {hour minute : Nat} (hhour : Part 23 hs hour)
      (hminute : Part 59 ms minute) : Tells (hs ++ ':' :: ms) hour minute 0
  | long {hs ms ss : List Char} {hour minute second : Nat} (hhour : Part 23 hs hour)
      (hminute : Part 59 ms minute) (hsecond : Part 60 ss second) :
      Tells (hs ++ ':' :: (ms ++ ':' :: ss)) hour minute second

theorem noDigit_colon (cs : List Char) : NoDigit (':' :: cs) := noDigit_cons (by decide)

theorem readMark_eq_ok {mark : Char} (h : TimeFault.readMark mark cs = .ok rest) :
    cs = mark :: rest := by
  cases cs with
  | nil => cases h
  | cons c cs =>
      simp only [TimeFault.readMark] at h
      by_cases hc : c = mark
      · rw [if_pos hc] at h
        cases h
        rw [hc]
      · rw [if_neg hc] at h
        cases h

theorem read_short {hs ms : List Char} {hour minute : Nat} (hhour : Part 23 hs hour)
    (hminute : Part 59 ms minute) : read false (hs ++ ':' :: ms) = .ok (ofHands hour minute 0) := by
  have hend := hminute.readPart noDigit_nil
  rw [List.append_nil] at hend
  unfold read
  rw [hhour.readPart (noDigit_colon ms)]
  simp only [bind, Except.bind, TimeFault.readMark_self, hend, readSeconds]
  rfl

theorem read_long {hs ms ss : List Char} {hour minute second : Nat} (hhour : Part 23 hs hour)
    (hminute : Part 59 ms minute) (hsecond : Part 60 ss second) :
    read true (hs ++ ':' :: (ms ++ ':' :: ss)) = .ok (ofHands hour minute second) := by
  have hend := hsecond.readPart noDigit_nil
  rw [List.append_nil] at hend
  unfold read
  rw [hhour.readPart (noDigit_colon _)]
  simp only [bind, Except.bind, TimeFault.readMark_self, hminute.readPart (noDigit_colon ss),
    readSeconds, if_true, hend]
  rfl

/-- What is read tells the time that it is read as, with or without seconds. -/
theorem read_eq_ok {told : Bool} {t : SessionTime} (h : read told cs = .ok t) :
    ∃ hour minute second, Tells cs hour minute second ∧ t = ofHands hour minute second ∧
      cs.count ':' = if told then 2 else 1 := by
  unfold read at h
  obtain ⟨⟨hour, cs₁⟩, hread, h⟩ := Except.bind_ok h
  obtain ⟨cs₂, hmark, h⟩ := Except.bind_ok h
  obtain ⟨⟨minute, cs₃⟩, hread', h⟩ := Except.bind_ok h
  obtain ⟨⟨second, cs₄⟩, hlast, h⟩ := Except.bind_ok h
  obtain ⟨hs, hhour, rfl⟩ := part_of_readPart hread
  obtain rfl := readMark_eq_ok hmark
  obtain ⟨ms, hminute, rfl⟩ := part_of_readPart hread'
  -- Nothing may follow the last part.
  dsimp only at hlast h
  have hend : cs₄ = [] ∧ t = ofHands hour minute second := by
    cases cs₄ with
    | nil => exact ⟨rfl, (Except.ok.inj h).symm⟩
    | cons c cs => cases h
  obtain ⟨rfl, rfl⟩ := hend
  have hcolons := hhour.count_colon
  have hcolons' := hminute.count_colon
  cases told with
  | false =>
      cases hlast
      rw [List.append_nil]
      refine ⟨hour, minute, 0, .short hhour hminute, rfl, ?_⟩
      simp [hcolons, hcolons']
  | true =>
      obtain ⟨cs₄, hmark', hread''⟩ := Except.bind_ok hlast
      obtain rfl := readMark_eq_ok hmark'
      obtain ⟨ss, hsecond, rfl⟩ := part_of_readPart hread''
      rw [List.append_nil]
      refine ⟨hour, minute, second, .long hhour hminute hsecond, rfl, ?_⟩
      simp [hcolons, hcolons', hsecond.count_colon]

/-- **Just the texts that tell a time of day are read**, and as the time that they tell. -/
theorem parse_eq_ok {text : String} {t : SessionTime} : parse text = .ok t ↔
    ∃ hour minute second, Tells text.toList hour minute second ∧
      t = ofHands hour minute second := by
  unfold parse
  constructor
  · intro h
    split at h
    · rename_i hread
      cases h
      obtain ⟨hour, minute, second, htells, ht, -⟩ := read_eq_ok hread
      exact ⟨hour, minute, second, htells, ht⟩
    · obtain ⟨hour, minute, second, htells, ht, -⟩ := read_eq_ok h
      exact ⟨hour, minute, second, htells, ht⟩
  · rintro ⟨hour, minute, second, htells, rfl⟩
    generalize text.toList = cs at htells
    cases htells with
    | short hhour hminute => rw [read_short hhour hminute]
    | long hhour hminute hsecond =>
        -- With seconds there is a colon too many for the first format.
        cases hread : read false _ with
        | error e => exact read_long hhour hminute hsecond
        | ok t =>
            obtain ⟨-, -, -, -, -, hcount⟩ := read_eq_ok hread
            simp [hhour.count_colon, hminute.count_colon, hsecond.count_colon] at hcount

/-! ### Time since midnight -/

/-- How many nanoseconds after midnight the time of day is. -/
def nanoseconds (t : SessionTime) : Int := t.second * 1000000000 + t.nanos

/-- Second 60 is the start of the next minute. -/
theorem nanoseconds_ofHands (hour minute second : Nat) :
    (ofHands hour minute second).nanoseconds =
      (hour * 3600 + minute * 60 + second) * 1000000000 := by
  unfold ofHands nanoseconds
  split
  · rename_i hleap
    subst hleap
    push_cast
    ring
  · push_cast
    ring

/-- A session time is at the beginning of a second, or at the end of one. -/
theorem nanos_ofHands (hour minute second : Nat) :
    (ofHands hour minute second).nanos = 0 ∨
      (ofHands hour minute second).nanos = 1000000000 := by
  unfold ofHands
  split
  · exact Or.inr rfl
  · exact Or.inl rfl

variable {t : SessionTime} {nanos : Nat}

theorem nanos_of_parse {text : String} (h : parse text = .ok t) :
    t.nanos = 0 ∨ t.nanos = 1000000000 := by
  obtain ⟨hour, minute, second, -, rfl⟩ := parse_eq_ok.mp h
  exact nanos_ofHands hour minute second

/-- What is read of a text may be told from the text itself. -/
theorem exists_tells_iff {text : String} (h : parse text = .ok t) {P : Int → Prop} :
    (∃ hour minute second : Nat, Tells text.toList hour minute second ∧
      P ((hour * 3600 + minute * 60 + second) * 1000000000)) ↔ P t.nanoseconds := by
  constructor
  · rintro ⟨hour, minute, second, htells, hP⟩
    have hparse := parse_eq_ok.mpr ⟨hour, minute, second, htells, rfl⟩
    rw [h] at hparse
    cases hparse
    rw [nanoseconds_ofHands]
    exact hP
  · intro hP
    obtain ⟨hour, minute, second, htells, rfl⟩ := parse_eq_ok.mp h
    rw [nanoseconds_ofHands] at hP
    exact ⟨hour, minute, second, htells, hP⟩

/-- A time of day outside of leap seconds comes before another by its nanoseconds. -/
theorem cmp_eq_lt_iff (ht : t.nanos = 0 ∨ t.nanos = 1000000000) (second : Nat)
    (hnanos : nanos < 1000000000) :
    (cmp ⟨second, nanos⟩ t == .lt) = true ↔
      (second * 1000000000 + nanos : Int) < t.nanoseconds := by
  unfold cmp nanoseconds
  rw [beq_iff_eq, Ordering.then_eq_lt, Nat.compare_eq_lt, Nat.compare_eq_eq, Nat.compare_eq_lt]
  dsimp only
  omega

theorem cmp_ne_gt_iff (ht : t.nanos = 0 ∨ t.nanos = 1000000000) (second : Nat)
    (hnanos : nanos < 1000000000) :
    (t.cmp ⟨second, nanos⟩ != .gt) = true ↔
      t.nanoseconds ≤ (second * 1000000000 + nanos : Int) := by
  unfold cmp nanoseconds
  rw [bne_iff_ne, ne_eq, Ordering.then_eq_gt, Nat.compare_eq_gt, Nat.compare_eq_eq,
    Nat.compare_eq_gt]
  dsimp only
  omega

end Bourse.SessionTime
