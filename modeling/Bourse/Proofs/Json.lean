/-
The reader gives back what the printer was given.

A value is read from the front of a text, with nothing said about how far it goes, so the
statement for a value is about its text with anything after it that can stand after a value:
a comma, a closing bracket or nothing (`Closed`).  The induction is on the value.  Fuel is
counted in characters: each step that goes on leaves one of them behind.

Not every value can come back.  A number that is not whole keeps whatever spelling it has,
and a garbled text has none; `Plain` leaves these two out.
-/
import Bourse.Json.Printer
import Bourse.Json.Reader
import Bourse.Proofs.Text.Digits

namespace Bourse.Json

open Bourse.Text

variable {codes : List Nat} {cs rest : List Char}

/-! ### Characters and texts -/

/-- A letter after a backslash stands for its code. -/
theorem readCodes_escape {e : Char} {n : Nat} (he : escapeCode? e = some n) (hu : e ≠ 'u')
    (h : readCodes cs = some (codes, rest)) :
    readCodes ('\\' :: e :: cs) = some (n :: codes, rest) := by
  rw [readCodes]
  · simp [he, h]
  · intro _ _ _ _ _ heq
    exact absurd heq hu

/-- Every control character has a number of two digits to base sixteen. -/
theorem natOfHex?_control : ∀ n, n < 32 →
    natOfHex? ['0', '0', hexDigit (n / 16), hexDigit (n % 16)] = some n := by decide

/-- A character is read back from whatever it is written as. -/
theorem readCodes_writeChar (c : Char) (h : readCodes cs = some (codes, rest)) :
    readCodes (writeChar c ++ cs) = some (c.toNat :: codes, rest) := by
  unfold writeChar
  split_ifs with hquote hslash hplain hb ht hn hf hr
  · rw [hquote]
    exact readCodes_escape rfl (by decide) h
  · rw [hslash]
    exact readCodes_escape rfl (by decide) h
  · rw [List.singleton_append, readCodes]
    · have hcode : ¬ (c.toNat < 0x20 ∨ c = '\\') := by
        rintro (hlt | heq)
        · omega
        · exact hslash heq
      rw [if_neg hcode, h]
      rfl
    · exact hquote
    · intro _ _ _ _ _ heq
      exact absurd heq hslash
    · intro _ _ heq
      exact absurd heq hslash
  · rw [hb]
    exact readCodes_escape rfl (by decide) h
  · rw [ht]
    exact readCodes_escape rfl (by decide) h
  · rw [hn]
    exact readCodes_escape rfl (by decide) h
  · rw [hf]
    exact readCodes_escape rfl (by decide) h
  · rw [hr]
    exact readCodes_escape rfl (by decide) h
  · simp [readCodes, natOfHex?_control c.toNat (by omega), h]

/-- The codes of a text are read back up to its closing quote. -/
theorem readCodes_flatMap (s rest : List Char) :
    readCodes (s.flatMap writeChar ++ '"' :: rest) = some (s.map Char.toNat, rest) := by
  induction s with
  | nil => simp [readCodes]
  | cons c s ih =>
      rw [List.flatMap_cons, List.append_assoc, List.map_cons]
      exact readCodes_writeChar c ih

/-- No character is half of a surrogate pair. -/
theorem joinCodes_map (s : List Char) : joinCodes (s.map Char.toNat) = some s := by
  induction s with
  | nil => rfl
  | cons c s ih =>
      have hvalid : c.toNat < 0xD800 ∨ 0xDFFF < c.toNat ∧ c.toNat < 0x110000 := c.valid
      rw [List.map_cons]
      unfold joinCodes
      rw [if_neg (by omega), if_neg (by omega), ih, Char.ofNat_toNat]
      rfl

/-- A text is read back from the characters after its opening quote. -/
theorem readText_flatMap (s : String) (rest : List Char) :
    readText (s.toList.flatMap writeChar ++ '"' :: rest) = some (.text s, rest) := by
  unfold readText
  simp only [readCodes_flatMap, bind, Option.bind, joinCodes_map, String.ofList_toList]
  rfl

/-! ### What may stand after a value -/

/-- The text is at its end, or goes on with a comma or a closing bracket. -/
def Closed (cs : List Char) : Prop := ∀ c ∈ cs.head?, c = ',' ∨ c = ']' ∨ c = '}'

theorem closed_nil : Closed [] := by simp [Closed]

theorem closed_cons {c : Char} (h : c = ',' ∨ c = ']' ∨ c = '}') (cs : List Char) :
    Closed (c :: cs) := by
  intro d hd
  cases hd
  exact h

theorem Closed.noDigit (h : Closed rest) : NoDigit rest := by
  intro c hc
  rcases h c hc with rfl | rfl | rfl
  · rfl
  · rfl
  · rfl

theorem Closed.readPlaces (h : Closed rest) : readPlaces rest = some ([], rest) := by
  cases rest with
  | nil => rfl
  | cons c cs =>
      rcases h c rfl with rfl | rfl | rfl
      · rfl
      · rfl
      · rfl

theorem Closed.readPower (h : Closed rest) : readPower rest = some ([], rest) := by
  cases rest with
  | nil => rfl
  | cons c cs =>
      rcases h c rfl with rfl | rfl | rfl
      · rfl
      · rfl
      · rfl

/-! ### Whole numbers -/

/-- Only zero begins with a zero. -/
theorem no_leading_zero (n : Nat) : ¬ ((Nat.toDigits 10 n).isEmpty ∨
    (Nat.toDigits 10 n).head? = some '0' ∧ 1 < (Nat.toDigits 10 n).length) := by
  rintro (hempty | ⟨hzero, hlength⟩)
  · exact (run_toDigits n).ne_nil (List.isEmpty_iff.mp hempty)
  · by_cases hn : n = 0
    · subst hn
      exact absurd hlength (by decide)
    · exact head?_toDigits hn hzero

theorem takeDigits_toDigits (n : Nat) (h : NoDigit rest) :
    takeDigits (Nat.toDigits 10 n ++ rest) = (Nat.toDigits 10 n, rest) := by
  have hrun := run_toDigits n
  unfold takeDigits
  rw [takeWhile_digits hrun.digits h, dropWhile_digits hrun.digits h]

/-- A whole number is read back, provided that what comes after it is no part of a number. -/
theorem readNumber_writeInt (n : Int) (h : Closed rest) :
    readNumber (writeInt n ++ rest) = some (.int n, rest) := by
  have htaken := takeDigits_toDigits n.natAbs h.noDigit
  unfold writeInt
  by_cases hnegative : n < 0
  · rw [if_pos hnegative, List.cons_append]
    have hn : -(n.natAbs : Int) = n := by omega
    unfold readNumber
    simp only [htaken, no_leading_zero, h.readPlaces, h.readPower, if_false, bind, Option.bind,
      ofDigits_toDigits]
    rw [if_pos ⟨rfl, rfl, by omega⟩, if_pos trivial, hn]
    rfl
  · rw [if_neg hnegative]
    have hn : (n.natAbs : Int) = n := by omega
    unfold readNumber
    split
    rename_i hsign
    split at hsign
    · rename_i hminus
      exact absurd hminus ((run_toDigits n.natAbs).append_ne_cons (by decide) _ _)
    · cases hsign
      simp only [htaken, no_leading_zero, h.readPlaces, h.readPower, if_false, bind, Option.bind,
        ofDigits_toDigits]
      rw [if_pos ⟨rfl, rfl, by simp⟩, if_neg Bool.false_ne_true, hn]
      rfl

/-! ### Values -/

/-- The value has nothing in it that its text does not tell. -/
inductive Plain : Json → Prop
  | null : Plain .null
  | bool (b : Bool) : Plain (.bool b)
  | int (n : Int) : Plain (.int n)
  | text (s : String) : Plain (.text s)
  | list {items : List Json} (h : ∀ v ∈ items, Plain v) : Plain (.list items)
  | record {fields : List (String × Json)} (h : ∀ f ∈ fields, Plain f.2) : Plain (.record fields)

theorem dropSpace_cons {c : Char} (h : isSpace c = false) (cs : List Char) :
    dropSpace (c :: cs) = c :: cs := by
  unfold dropSpace
  rw [List.dropWhile_cons_of_neg]
  rw [h]
  exact Bool.false_ne_true

/-- With fuel for each of its characters, the value is read back from its text. -/
def ReadBack (v : Json) : Prop :=
  ∀ fuel rest, v.write.length ≤ fuel → Closed rest →
    readValue (fuel + 1) (v.write ++ rest) = some (v, rest)

variable {items : List Json} {fields : List (String × Json)}

theorem writeItems_cons_cons (v w : Json) (items : List Json) :
    writeItems (v :: w :: items) = v.write ++ ',' :: writeItems (w :: items) := by
  rw [writeItems]
  simp

theorem writeFields_cons_cons (name : String) (v : Json) (f : String × Json)
    (fields : List (String × Json)) : writeFields ((name, v) :: f :: fields) =
      writeText name.toList ++ ':' :: v.write ++ ',' :: writeFields (f :: fields) := by
  rw [writeFields]
  simp

/-- The members of a list are read back if each of them is. -/
theorem readItems_writeItems (h : ∀ v ∈ items, ReadBack v) (hne : items ≠ []) {fuel : Nat}
    (hfuel : (writeItems items).length ≤ fuel) (rest : List Char) :
    readItems (fuel + 2) (writeItems items ++ ']' :: rest) = some (items, rest) := by
  have hcomma := dropSpace_cons (show isSpace ',' = false by decide)
  have hbracket := dropSpace_cons (show isSpace ']' = false by decide)
  induction items generalizing fuel with
  | nil => exact absurd rfl hne
  | cons v items ih =>
      have hv : ReadBack v := h v (by simp)
      cases items with
      | nil =>
          simp only [writeItems] at hfuel ⊢
          rw [readItems, hv fuel _ hfuel (closed_cons (by simp) _)]
          simp [hbracket]
      | cons w items =>
          rw [writeItems_cons_cons] at hfuel ⊢
          simp only [List.length_append, List.length_cons] at hfuel
          obtain ⟨fuel, rfl⟩ : ∃ n, fuel = n + 1 := ⟨fuel - 1, by omega⟩
          have hothers := ih (fun w hw => h w (by simp [hw])) (by simp)
            (show (writeItems (w :: items)).length ≤ fuel by omega)
          rw [List.append_assoc, List.cons_append, readItems,
            hv (fuel + 1) _ (by omega) (closed_cons (by simp) _)]
          simp [hcomma, hothers]

/-- The fields of a record are read back, with their names, if the value of each of them is. -/
theorem readFields_writeFields (h : ∀ f ∈ fields, ReadBack f.2) (hne : fields ≠ []) {fuel : Nat}
    (hfuel : (writeFields fields).length ≤ fuel) (rest : List Char) :
    readFields (fuel + 2) (writeFields fields ++ '}' :: rest) =
      some (fields.map fun f => (some f.1, f.2), rest) := by
  have hquote := dropSpace_cons (show isSpace '"' = false by decide)
  have hcolon := dropSpace_cons (show isSpace ':' = false by decide)
  have hcomma := dropSpace_cons (show isSpace ',' = false by decide)
  have hbrace := dropSpace_cons (show isSpace '}' = false by decide)
  induction fields generalizing fuel with
  | nil => exact absurd rfl hne
  | cons f fields ih =>
      obtain ⟨name, v⟩ := f
      have hv : ReadBack v := h (name, v) (by simp)
      cases fields with
      | nil =>
          simp only [writeFields, List.length_append, List.length_cons] at hfuel
          have hvalue := hv fuel ('}' :: rest) (by omega) (closed_cons (by simp) _)
          simp only [writeFields, writeText, List.cons_append, List.append_assoc, List.nil_append,
            readFields, hquote, hcolon, hbrace, readText_flatMap, hvalue, bind, Option.bind]
          rfl
      | cons g fields =>
          rw [writeFields_cons_cons] at hfuel ⊢
          simp only [List.length_append, List.length_cons] at hfuel
          obtain ⟨fuel, rfl⟩ : ∃ n, fuel = n + 1 := ⟨fuel - 1, by omega⟩
          have hvalue := hv (fuel + 1) (',' :: (writeFields (g :: fields) ++ '}' :: rest))
            (by omega) (closed_cons (by simp) _)
          have hothers := ih (fun f hf => h f (by simp [hf])) (by simp)
            (show (writeFields (g :: fields)).length ≤ fuel by omega)
          rw [readFields]
          simp only [writeText, List.cons_append, List.append_assoc, List.nil_append, hquote,
            hcolon, hcomma, readText_flatMap, hvalue, hothers, bind, Option.bind]
          rfl

/-- Names that are read are the names of the record. -/
theorem recordOf_map (fields : List (String × Json)) :
    recordOf (fields.map fun f => (some f.1, f.2)) = .record fields := by
  unfold recordOf
  have hnames : (fields.map fun f => (some f.1, f.2)).mapM
      (fun f : Option String × Json => f.1.map (·, f.2)) = some fields := by
    induction fields with
    | nil => rfl
    | cons f fields ih =>
        rw [List.map_cons, List.mapM_cons, ih]
        rfl
  rw [hnames]

/-! ### How a value begins -/

/-- The character is one that a whole number may begin with. -/
def StartsNumber (c : Char) : Prop := c = '-' ∨ c.isDigit = true

variable {c : Char}

theorem exists_cons_writeInt (n : Int) : ∃ c cs, writeInt n = c :: cs ∧ StartsNumber c := by
  unfold writeInt
  split
  · exact ⟨_, _, rfl, Or.inl rfl⟩
  · obtain ⟨d, ds, hd, hds⟩ := (run_toDigits n.natAbs).exists_cons
    exact ⟨d, ds, hds, Or.inr hd⟩

theorem StartsNumber.ne (hc : StartsNumber c) {d : Char} (hd : d ≠ '-')
    (hdigit : d.isDigit = false) : d ≠ c := by
  rintro rfl
  rcases hc with heq | hdigit'
  · exact hd heq
  · rw [hdigit] at hdigit'
    cases hdigit'

theorem StartsNumber.isSpace (hc : StartsNumber c) : isSpace c = false := by
  rw [← Bool.not_eq_true]
  intro hspace
  simp only [Json.isSpace, Bool.or_eq_true, beq_iff_eq] at hspace
  rcases hspace with ((rfl | rfl) | rfl) | rfl
  all_goals exact hc.ne (by decide) (by decide) rfl

/-- Where no other value begins, a number is read. -/
theorem readValue_number (hc : StartsNumber c) (fuel : Nat) (cs : List Char) :
    readValue (fuel + 1) (c :: cs) = readNumber (c :: cs) := by
  have hword : readWord (c :: cs) = none := by
    simp [readWord, hc.ne (show 'n' ≠ '-' by decide) (by decide),
      hc.ne (show 't' ≠ '-' by decide) (by decide), hc.ne (show 'f' ≠ '-' by decide) (by decide)]
  rw [readValue, dropSpace_cons hc.isSpace]
  split
  case h_4 =>
    rw [hword]
    rfl
  -- The other three begin with a mark that no number begins with.
  all_goals
    rename_i heq
    cases heq
    exact absurd rfl (hc.ne (by decide) (by decide))

/-- A value begins neither with white space nor with the end of a list. -/
theorem Plain.exists_cons {v : Json} (h : Plain v) :
    ∃ c cs, v.write = c :: cs ∧ Json.isSpace c = false ∧ c ≠ ']' := by
  cases h with
  | null => exact ⟨'n', _, rfl, by decide, by decide⟩
  | bool b =>
      cases b with
      | true => exact ⟨'t', _, rfl, by decide, by decide⟩
      | false => exact ⟨'f', _, rfl, by decide, by decide⟩
  | int n =>
      obtain ⟨c, cs, hcs, hc⟩ := exists_cons_writeInt n
      exact ⟨c, cs, hcs, hc.isSpace, (hc.ne (by decide) (by decide)).symm⟩
  | text s => exact ⟨'"', _, rfl, by decide, by decide⟩
  | list h => exact ⟨'[', _, rfl, by decide, by decide⟩
  | record h => exact ⟨'{', _, rfl, by decide, by decide⟩

/-- A list with something in it goes on with its members. -/
theorem readValue_list (hspace : Json.isSpace c = false) (hc : c ≠ ']') (fuel : Nat)
    (cs : List Char) : readValue (fuel + 1) ('[' :: c :: cs) =
      (readItems fuel (c :: cs)).map fun (items, cs) => (.list items, cs) := by
  rw [readValue, dropSpace_cons (by decide)]
  simp only [dropSpace_cons hspace]
  split
  · rename_i heq
    cases heq
    exact absurd rfl hc
  · rfl

/-- A record with something in it goes on with its fields. -/
theorem readValue_record (fuel : Nat) (cs : List Char) :
    readValue (fuel + 1) ('{' :: '"' :: cs) =
      (readFields fuel ('"' :: cs)).map fun (fields, cs) => (recordOf fields, cs) := by
  rw [readValue, dropSpace_cons (by decide)]
  simp only [dropSpace_cons (show Json.isSpace '"' = false by decide)]
  rfl

theorem exists_cons_writeFields (f : String × Json) (fields : List (String × Json)) :
    ∃ cs, writeFields (f :: fields) = '"' :: cs := by
  cases fields with
  | nil => exact ⟨_, rfl⟩
  | cons g fields => exact ⟨_, rfl⟩

theorem Plain.exists_cons_writeItems {v : Json} (h : Plain v) (items : List Json) :
    ∃ c cs, writeItems (v :: items) = c :: cs ∧ Json.isSpace c = false ∧ c ≠ ']' := by
  obtain ⟨c, cs, hcs, hspace, hc⟩ := h.exists_cons
  cases items with
  | nil => exact ⟨c, cs, hcs, hspace, hc⟩
  | cons w items =>
      rw [writeItems_cons_cons, hcs]
      exact ⟨c, _, rfl, hspace, hc⟩

/-! ### Whole values -/

theorem readBack_list (hplain : ∀ v ∈ items, Plain v) (h : ∀ v ∈ items, ReadBack v) :
    ReadBack (.list items) := by
  intro fuel rest hfuel _
  simp only [write, List.length_append, List.length_cons, List.length_nil] at hfuel
  cases items with
  | nil => rfl
  | cons v items =>
      obtain ⟨fuel, rfl⟩ : ∃ n, fuel = n + 2 := ⟨fuel - 2, by omega⟩
      obtain ⟨c, cs, hcs, hspace, hc⟩ := (hplain v (by simp)).exists_cons_writeItems items
      have hitems := readItems_writeItems h (by simp)
        (show (writeItems (v :: items)).length ≤ fuel by omega) rest
      simp only [write, List.cons_append, List.append_assoc, List.nil_append]
      rw [hcs, List.cons_append] at hitems ⊢
      rw [readValue_list hspace hc, hitems]
      rfl

theorem readBack_record (h : ∀ f ∈ fields, ReadBack f.2) : ReadBack (.record fields) := by
  intro fuel rest hfuel _
  simp only [write, List.length_append, List.length_cons, List.length_nil] at hfuel
  cases fields with
  | nil => rfl
  | cons f fields =>
      obtain ⟨fuel, rfl⟩ : ∃ n, fuel = n + 2 := ⟨fuel - 2, by omega⟩
      obtain ⟨cs, hcs⟩ := exists_cons_writeFields f fields
      have hfields := readFields_writeFields h (by simp)
        (show (writeFields (f :: fields)).length ≤ fuel by omega) rest
      simp only [write, List.cons_append, List.append_assoc, List.nil_append]
      rw [hcs, List.cons_append] at hfields ⊢
      rw [readValue_record, hfields, Option.map_some]
      simp only [recordOf_map]

/-- **Every plain value is read back from its text.** -/
theorem Plain.readBack {v : Json} (h : Plain v) : ReadBack v := by
  induction h with
  | null =>
      intro fuel rest _ _
      rfl
  | bool b =>
      intro fuel rest _ _
      cases b with
      | true => rfl
      | false => rfl
  | int n =>
      intro fuel rest _ hrest
      obtain ⟨c, cs, hcs, hc⟩ := exists_cons_writeInt n
      have hread := readNumber_writeInt n hrest
      rw [write]
      rw [hcs, List.cons_append] at hread ⊢
      rw [readValue_number hc, hread]
  | text s =>
      intro fuel rest _ _
      simp only [write, writeText, List.cons_append, List.append_assoc, List.nil_append, readValue,
        dropSpace_cons (show Json.isSpace '"' = false by decide), readText_flatMap]
  | list h ih => exact readBack_list h ih
  | record h ih => exact readBack_record ih

/-- **The text of a plain value stands for that value.** -/
theorem ofText?_print {v : Json} (h : Plain v) : ofText? v.print = some v := by
  have hread := h.readBack v.write.length [] le_rfl closed_nil
  rw [List.append_nil] at hread
  unfold ofText? print
  rw [String.toList_ofList]
  simp only [hread]
  rfl

end Bourse.Json
