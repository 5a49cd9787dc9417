/-
Runs of digits, read back.

What is written with `paddedDigits` is a run of digits, and a reader that takes digits from
the front takes just that run, provided that no digit comes after it or that the run is as
long as the reader will go.  The other way round, whatever a reader takes is such a run
(`readDigits_eq_some`), so it is known what the text was.
-/
import Bourse.Text.Blank
import Bourse.Time.Fault
import Mathlib.Data.List.TakeWhile
import Mathlib.Tactic.IntervalCases
import Mathlib.Tactic.Ring

namespace Bourse

namespace Text

/-! ### Digits and blanks -/

/-- The text does not go on with a digit. -/
def NoDigit (cs : List Char) : Prop := ∀ c ∈ cs.head?, c.isDigit = false

theorem noDigit_nil : NoDigit [] := by simp [NoDigit]

theorem noDigit_cons {c : Char} {cs : List Char} (h : c.isDigit = false) : NoDigit (c :: cs) := by
  intro d hd
  cases hd
  exact h

/-- All characters are digits, and there is one at least. -/
structure Run (ds : List Char) : Prop where
  digits : ∀ c ∈ ds, c.isDigit = true
  ne_nil : ds ≠ []

theorem isDigit_iff {c : Char} : c.isDigit = true ↔ 48 ≤ c.toNat ∧ c.toNat ≤ 57 :=
  Char.isDigit_iff_toNat

theorem not_isBlank_of_isDigit {c : Char} (h : c.isDigit = true) : isBlank c = false := by
  rw [isDigit_iff] at h
  unfold isBlank
  simp
  omega

theorem Run.exists_cons {ds : List Char} (h : Run ds) :
    ∃ d rest, d.isDigit = true ∧ ds = d :: rest := by
  cases ds with
  | nil => exact absurd rfl h.ne_nil
  | cons d rest => exact ⟨d, rest, h.digits d (by simp), rfl⟩

theorem dropBlanks_cons {c : Char} (h : isBlank c = false) (cs : List Char) :
    dropBlanks (c :: cs) = c :: cs := by
  unfold dropBlanks
  rw [List.dropWhile_cons_of_neg]
  rw [h]
  exact Bool.false_ne_true

/-- No white space stands before a run of digits. -/
theorem Run.dropBlanks {ds : List Char} (h : Run ds) (rest : List Char) :
    dropBlanks (ds ++ rest) = ds ++ rest := by
  obtain ⟨d, ds, hd, rfl⟩ := h.exists_cons
  exact dropBlanks_cons (not_isBlank_of_isDigit hd) _

/-- A run of digits does not begin with anything else. -/
theorem Run.append_ne_cons {ds : List Char} (h : Run ds) {c : Char} (hc : c.isDigit = false)
    (rest cs : List Char) : ds ++ rest ≠ c :: cs := by
  obtain ⟨d, ds, hd, rfl⟩ := h.exists_cons
  rw [List.cons_append]
  intro heq
  cases heq
  rw [hc] at hd
  cases hd

theorem dropBlanks_append {blanks : List Char} (h : ∀ c ∈ blanks, isBlank c = true)
    (rest : List Char) : dropBlanks (blanks ++ rest) = dropBlanks rest :=
  List.dropWhile_append_of_pos h

theorem takeWhile_digits {ds rest : List Char} (h : ∀ c ∈ ds, c.isDigit = true)
    (hrest : NoDigit rest) : (ds ++ rest).takeWhile Char.isDigit = ds := by
  rw [List.takeWhile_append_of_pos h]
  cases rest with
  | nil => simp
  | cons c cs => simp [hrest c (by simp)]

theorem dropWhile_digits {ds rest : List Char} (h : ∀ c ∈ ds, c.isDigit = true)
    (hrest : NoDigit rest) : (ds ++ rest).dropWhile Char.isDigit = rest := by
  rw [List.dropWhile_append_of_pos h]
  cases rest with
  | nil => rfl
  | cons c cs => simp [hrest c (by simp)]

/-! ### The number that a run stands for -/

theorem ofDigits_eq (ds : List Char) : ofDigits ds = Nat.ofDigitChars 10 ds 0 := by
  unfold ofDigits
  rw [Nat.ofDigitChars_eq_foldl]
  congr 1
  funext n c
  rw [Nat.mul_comm]
  rfl

theorem foldl_digits (ds : List Char) (n : Nat) :
    ds.foldl (fun n c => n * 10 + digitValue c) n = n * tenTo ds.length + ofDigits ds := by
  induction ds generalizing n with
  | nil => simp [ofDigits]
  | cons d ds ih =>
      unfold ofDigits
      rw [List.foldl_cons, List.foldl_cons, ih, ih (0 * 10 + digitValue d), List.length_cons,
        tenTo_succ]
      ring

theorem ofDigits_append (ds es : List Char) :
    ofDigits (ds ++ es) = ofDigits ds * tenTo es.length + ofDigits es := by
  unfold ofDigits
  rw [List.foldl_append, foldl_digits]
  rfl

theorem ofDigits_cons (d : Char) (ds : List Char) :
    ofDigits (d :: ds) = digitValue d * tenTo ds.length + ofDigits ds := by
  have h := ofDigits_append [d] ds
  simpa [ofDigits] using h

/-! ### Writing a number -/

theorem run_toDigits (n : Nat) : Run (Nat.toDigits 10 n) :=
  ⟨fun _ hc => Nat.isDigit_of_mem_toDigits (by decide) (by decide) hc, Nat.toDigits_ne_nil⟩

theorem ofDigits_toDigits (n : Nat) : ofDigits (Nat.toDigits 10 n) = n := by
  rw [ofDigits_eq]
  exact Nat.ofDigitChars_ten_toDigits

theorem head?_toDigits {n : Nat} (h : n ≠ 0) : (Nat.toDigits 10 n).head? ≠ some '0' := by
  induction n using Nat.strong_induction_on with
  | _ n ih =>
      rw [Nat.toDigits_eq_if (by decide)]
      split
      · interval_cases n <;> simp_all [Nat.digitChar]
      · -- The first digit is that of the number without its last one.
        obtain ⟨d, ds, -, hds⟩ := (run_toDigits (n / 10)).exists_cons
        have hhead := ih (n / 10) (by omega) (by omega)
        rw [hds] at hhead ⊢
        simpa using hhead

theorem run_paddedDigits (width n : Nat) : Run (paddedDigits width n) := by
  obtain ⟨hdigits, hne⟩ := run_toDigits n
  unfold paddedDigits
  refine ⟨fun c hc => ?_, by simp [hne]⟩
  rcases List.mem_append.mp hc with hzero | hc
  · rw [List.eq_of_mem_replicate hzero]
    rfl
  · exact hdigits c hc

theorem ofDigits_paddedDigits (width n : Nat) : ofDigits (paddedDigits width n) = n := by
  have hzeros (k : Nat) : ofDigits (List.replicate k '0') = 0 := by
    induction k with
    | zero => rfl
    | succ k ih => rw [List.replicate_succ, ofDigits_cons, ih]; simp [digitValue]
  unfold paddedDigits
  rw [ofDigits_append, hzeros, ofDigits_toDigits, Nat.zero_mul, Nat.zero_add]

/-- A number that has no more digits than that is padded to the width. -/
theorem length_paddedDigits {width n : Nat} (hwidth : 0 < width) (h : n < tenTo width) :
    (paddedDigits width n).length = width := by
  have hle : (Nat.toDigits 10 n).length ≤ width :=
    (Nat.length_toDigits_le_iff (by decide) hwidth).mpr h
  unfold paddedDigits
  rw [List.length_append, List.length_replicate]
  omega

/-! ### Reading a number -/

theorem readDigits_append {most : Nat} {ds rest : List Char} (h : Run ds)
    (hmost : ds.length ≤ most) (hrest : ds.length = most ∨ NoDigit rest) :
    readDigits most (ds ++ rest) = some (ofDigits ds, rest) := by
  have htaken : ((ds ++ rest).take most).takeWhile Char.isDigit = ds := by
    rw [List.take_append, List.take_of_length_le hmost]
    refine takeWhile_digits h.digits ?_
    rcases hrest with hfull | hrest
    · rw [hfull, Nat.sub_self]
      simpa using noDigit_nil
    · intro c hc
      refine hrest c ?_
      cases hlen : most - ds.length with
      | zero => simp [hlen] at hc
      | succ n => simpa [hlen, List.head?_take] using hc
  unfold readDigits
  rw [htaken]
  simp [h.ne_nil]

/-- What is read off the front of a text is a run of digits. -/
theorem readDigits_eq_some {most n : Nat} {cs rest : List Char}
    (h : readDigits most cs = some (n, rest)) :
    ∃ ds, Run ds ∧ ds.length ≤ most ∧ cs = ds ++ rest ∧ n = ofDigits ds := by
  unfold readDigits at h
  generalize hds : (cs.take most).takeWhile Char.isDigit = ds at h
  dsimp only at h
  split at h
  · cases h
  · rename_i hne
    cases h
    have hprefix : ds <+: cs := by
      rw [← hds]
      exact (List.takeWhile_prefix _).trans (List.take_prefix _ _)
    refine ⟨ds, ⟨?_, ?_⟩, ?_, ?_, rfl⟩
    · intro c hc
      rw [← hds] at hc
      exact List.mem_takeWhile_imp hc
    · simpa using hne
    · rw [← hds]
      exact (List.takeWhile_prefix _).length_le.trans (by simp)
    · exact (List.prefix_iff_eq_append.mp hprefix).symm

end Text

namespace TimeFault

open Bourse.Text

theorem readNumber_append {most greatest : Nat} {ds rest : List Char} (h : Run ds)
    (hmost : ds.length ≤ most) (hrest : ds.length = most ∨ NoDigit rest)
    (hle : ofDigits ds ≤ greatest) :
    readNumber most greatest (ds ++ rest) = .ok (ofDigits ds, rest) := by
  unfold readNumber
  have hne : (ds ++ rest).isEmpty = false := by simp [h.ne_nil]
  rw [hne, readDigits_append h hmost hrest]
  simp [Nat.not_lt.mpr hle]

/-- A number of at most two digits, written with two. -/
theorem readNumber_two {greatest n : Nat} (hlt : n < 100) (hle : n ≤ greatest)
    (rest : List Char) :
    readNumber 2 greatest (dropBlanks (paddedDigits 2 n ++ rest)) = .ok (n, rest) := by
  have hrun := run_paddedDigits 2 n
  have hlength : (paddedDigits 2 n).length = 2 := length_paddedDigits (by decide) hlt
  have hvalue := ofDigits_paddedDigits 2 n
  rw [hrun.dropBlanks, readNumber_append hrun hlength.le (Or.inl hlength) (by omega), hvalue]

theorem readNumber_eq_ok {most greatest n : Nat} {cs rest : List Char}
    (h : readNumber most greatest cs = .ok (n, rest)) :
    ∃ ds, Run ds ∧ ds.length ≤ most ∧ cs = ds ++ rest ∧ n = ofDigits ds ∧ n ≤ greatest := by
  unfold readNumber at h
  split at h
  · cases h
  · split at h
    · cases h
    · rename_i hread
      split at h
      · cases h
      · rename_i hle
        cases h
        obtain ⟨ds, hrun, hmost, hcs, hn⟩ := readDigits_eq_some hread
        exact ⟨ds, hrun, hmost, hcs, hn, Nat.not_lt.mp hle⟩

theorem readMark_self (mark : Char) (cs : List Char) : readMark mark (mark :: cs) = .ok cs := by
  simp [readMark]

end TimeFault

end Bourse
