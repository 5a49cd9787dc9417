/-
A decimal survives its text.

The reader rounds what it cannot hold, and on the way it has three places where it may stop
early: the point, the twenty-eighth place and the largest mantissa.  What is written runs into
none of them before its end.  Before the point and after it the induction is on the digits
that are left, and in both cases the invariant is that the mantissa so far, with those digits
appended, is still within the limit.
-/
import Bourse.Decimal.Text
import Bourse.Proofs.Text.Digits

namespace Bourse.Decimal

open Bourse.Text

variable {m s : Nat} {c : Char} {ds rest : List Char}

/-! ### Digit by digit -/

/-- A digit leaves the mantissa in range if the ones after it do. -/
theorem digit_lt_limit (h : m * tenTo (c :: ds).length + ofDigits (c :: ds) < limit) :
    m * 10 + digitValue c < limit ∧
      (m * 10 + digitValue c) * tenTo ds.length + ofDigits ds < limit := by
  rw [List.length_cons, tenTo_succ, ofDigits_cons] at h
  have hsplit : m * (tenTo ds.length * 10) + (digitValue c * tenTo ds.length + ofDigits ds) =
      (m * 10 + digitValue c) * tenTo ds.length + ofDigits ds := by ring
  rw [hsplit] at h
  have hle : m * 10 + digitValue c ≤ (m * 10 + digitValue c) * tenTo ds.length :=
    Nat.le_mul_of_pos_right _ (tenTo_pos _)
  omega

/-- Appending one digit and then the others is appending them all. -/
theorem append_digits (m : Nat) (c : Char) (ds : List Char) :
    (m * 10 + digitValue c) * tenTo ds.length + ofDigits ds =
      m * tenTo (c :: ds).length + ofDigits (c :: ds) := by
  rw [List.length_cons, tenTo_succ, ofDigits_cons]
  ring

/-- What a digit does that fits. -/
theorem readDigits_digit (hc : c.isDigit = true) (hlt : m * 10 + digitValue c < limit)
    (point seen : Bool) : readDigits m s point seen (c :: rest) =
      if point = false then readDigits (m * 10 + digitValue c) s point true rest
      else if s + 1 = maxScale then
        settle (m * 10 + digitValue c) (s + 1) (m < shortLimit) rest
      else readDigits (m * 10 + digitValue c) (s + 1) point true rest := by
  have hpoint : c ≠ '.' := by
    rintro rfl
    exact absurd hc (by decide)
  have hscore : c ≠ '_' := by
    rintro rfl
    exact absurd hc (by decide)
  rw [readDigits, if_neg hpoint, if_neg hscore, if_pos hc]
  simp only [Nat.not_le.mpr hlt, if_false]
  cases point
  · simp
  · simp

/-- All digits before the point are read. -/
theorem readDigits_whole (hdigits : ∀ c ∈ ds, c.isDigit = true)
    (hlt : m * tenTo ds.length + ofDigits ds < limit) (seen : Bool)
    (hseen : seen = true ∨ ds ≠ []) : readDigits m s false seen (ds ++ rest) =
      readDigits (m * tenTo ds.length + ofDigits ds) s false true rest := by
  induction ds generalizing m seen with
  | nil =>
      obtain rfl : seen = true := by simpa using hseen
      simp [ofDigits]
  | cons c ds ih =>
      obtain ⟨hfits, hlt'⟩ := digit_lt_limit hlt
      rw [List.cons_append, readDigits_digit (hdigits c (by simp)) hfits, if_pos rfl,
        ih (fun d hd => hdigits d (by simp [hd])) hlt' true (Or.inl rfl), append_digits]

/-- All digits after the point are read, up to the last place that there is. -/
theorem readDigits_places (hdigits : ∀ c ∈ ds, c.isDigit = true)
    (hlt : m * tenTo ds.length + ofDigits ds < limit) (hscale : s + ds.length ≤ maxScale) :
    readDigits m s true true ds = some (m * tenTo ds.length + ofDigits ds, s + ds.length) := by
  induction ds generalizing m s with
  | nil => simp [readDigits, ofDigits]
  | cons c ds ih =>
      obtain ⟨hfits, hlt'⟩ := digit_lt_limit hlt
      rw [List.length_cons] at hscale
      rw [readDigits_digit (hdigits c (by simp)) hfits, if_neg (by simp), ← append_digits,
        List.length_cons, ← Nat.add_assoc, Nat.add_right_comm]
      by_cases hlast : s + 1 = maxScale
      · -- There is room for this digit and none after it.
        have hend : ds = [] := List.eq_nil_of_length_eq_zero (by omega)
        subst hend
        rw [if_pos hlast]
        simp [settle, ofDigits]
      · rw [if_neg hlast, ih (fun d hd => hdigits d (by simp [hd])) hlt' (by omega)]

/-! ### Magnitudes -/

/-- The digits before the point, of which there is one at least, and those after it. -/
theorem exists_writeMagnitude (m scale : Nat) : ∃ whole places,
    Run whole ∧ (∀ c ∈ places, c.isDigit = true) ∧ places.length = scale ∧
      ofDigits (whole ++ places) = m ∧
      writeMagnitude m scale = if scale = 0 then whole else whole ++ '.' :: places := by
  have hrun := run_paddedDigits (scale + 1) m
  have hvalue := ofDigits_paddedDigits (scale + 1) m
  have hlength : scale + 1 ≤ (paddedDigits (scale + 1) m).length := by
    unfold paddedDigits
    rw [List.length_append, List.length_replicate]
    omega
  generalize hds : paddedDigits (scale + 1) m = ds at hrun hvalue hlength
  refine ⟨ds.take (ds.length - scale), ds.drop (ds.length - scale), ⟨?_, ?_⟩, ?_, ?_, ?_, ?_⟩
  · intro c hc
    exact hrun.digits c (List.mem_of_mem_take hc)
  · rw [ne_eq, List.take_eq_nil_iff, not_or]
    exact ⟨by omega, hrun.ne_nil⟩
  · intro c hc
    exact hrun.digits c (List.mem_of_mem_drop hc)
  · rw [List.length_drop]
    omega
  · rw [List.take_append_drop]
    exact hvalue
  · unfold writeMagnitude
    rw [hds]

/-- A magnitude that can be held is read back with its scale. -/
theorem readDigits_writeMagnitude {scale : Nat} (hm : m < limit) (hscale : scale ≤ 28) :
    readDigits 0 0 false false (writeMagnitude m scale) = some (m, scale) := by
  obtain ⟨whole, places, hwhole, hplaces, rfl, rfl, hwrite⟩ := exists_writeMagnitude m scale
  have hvalue := ofDigits_append whole places
  rw [hvalue] at hm
  have hlt : 0 * tenTo whole.length + ofDigits whole < limit := by
    have := Nat.le_mul_of_pos_right (ofDigits whole) (tenTo_pos places.length)
    omega
  have hread (rest : List Char) : readDigits 0 0 false false (whole ++ rest) =
      readDigits (ofDigits whole) 0 false true rest := by
    rw [readDigits_whole hwhole.digits hlt false (Or.inr hwhole.ne_nil), Nat.zero_mul, Nat.zero_add]
  rw [hwrite]
  split
  · rename_i hnone
    have hend : places = [] := List.eq_nil_of_length_eq_zero hnone
    subst hend
    have h := hread []
    rw [List.append_nil] at h ⊢
    rw [h]
    simp [readDigits]
  · have hplaces' := readDigits_places hplaces hm ((Nat.zero_add _).trans_le hscale)
    rw [hread, readDigits, if_pos rfl, if_neg Bool.false_ne_true, hplaces', hvalue, Nat.zero_add]

/-! ### Decimals -/

/-- A decimal is made of its sign, its magnitude and its scale. -/
theorem ofParts?_self (a : Decimal) : ofParts? a.negative a.magnitude a.scale = some a := by
  obtain ⟨mantissa, scale, hlt, hle⟩ := a
  unfold ofParts? negative magnitude
  rw [dif_pos ⟨hlt, hle⟩]
  simp only [decide_eq_true_eq, Option.some.injEq, mk.injEq, and_true]
  split
  · omega
  · omega

/-- A magnitude begins with a digit. -/
theorem writeMagnitude_ne_cons {c : Char} (hc : c.isDigit = false) (m scale : Nat)
    (cs : List Char) : writeMagnitude m scale ≠ c :: cs := by
  obtain ⟨whole, places, hwhole, -, -, -, hwrite⟩ := exists_writeMagnitude m scale
  rw [hwrite]
  split
  · have h := hwhole.append_ne_cons hc [] cs
    rwa [List.append_nil] at h
  · exact hwhole.append_ne_cons hc _ cs

/-- Without a sign the reader goes straight to the digits. -/
theorem readPlain_writeMagnitude (m scale : Nat) : readPlain (writeMagnitude m scale) =
    (readDigits 0 0 false false (writeMagnitude m scale)).bind fun (m, s) =>
      ofParts? false m s := by
  unfold readPlain
  split
  rename_i hsign
  split at hsign
  · rename_i hminus
    exact absurd hminus (writeMagnitude_ne_cons (by decide) m scale _)
  · rename_i hplus
    exact absurd hplus (writeMagnitude_ne_cons (by decide) m scale _)
  · cases hsign
    rfl

/-- What is written is read without an exponent. -/
theorem readPlain_text (a : Decimal) : readPlain a.text.toList = some a := by
  have hmagnitude : readDigits 0 0 false false (writeMagnitude a.magnitude a.scale) =
      some (a.magnitude, a.scale) := readDigits_writeMagnitude a.mantissa_lt a.scale_le
  have hself := ofParts?_self a
  unfold text
  rw [String.toList_ofList]
  by_cases hnegative : a.negative = true
  · rw [if_pos hnegative]
    rw [hnegative] at hself
    simp only [readPlain, hmagnitude, Option.bind_some]
    exact hself
  · rw [if_neg hnegative, readPlain_writeMagnitude, hmagnitude]
    rw [Bool.not_eq_true] at hnegative
    rw [hnegative] at hself
    exact hself

/-- **A decimal's text gives back the same decimal**, its scale included. -/
theorem ofText?_text (a : Decimal) : ofText? a.text = some a := by
  unfold ofText?
  rw [readPlain_text]
  rfl

end Bourse.Decimal
