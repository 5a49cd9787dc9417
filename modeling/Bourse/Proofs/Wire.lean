/-
Nothing is lost on the wire.

Orders, requests, executions and fill events are sent as the texts of records.  Reading such
a text undoes writing it in three layers, each with a module of its own below this one: the
text of a record gives back the record, a decimal's text the decimal and an instant's text the
instant.  What is left here is that a row has each field under the name that it is looked up
by, once, and that words stand for what they were chosen for.

The only values that cannot be sent are those whose identifiers do not fit into 64 bits, and
none of those is ever read (`need_id`).  That is why a text that was written by someone
else, in another order or with other spellings, is no exception: what it was read as comes
back from the text that it is sent on as.
-/
import Bourse.Proofs.Decimal.Text
import Bourse.Proofs.Json
import Bourse.Proofs.Time.Text
import Bourse.Wire.Order

namespace Bourse

/-! ### Rows -/

namespace Json

variable {α : Type} {name : String} {value : Json} {r : Row} {read : Json → Option α}

/-- A record with just the fields that a reader knows is taken as it is. -/
theorem row?_self {fields : List (String × Json)} {names : List String}
    (hnames : fields.map (·.1) = names) (hnodup : names.Nodup) :
    (record fields).row? names = some fields := by
  subst hnames
  have hknown : fields.filter (fun f => (fields.map (·.1)).contains f.1) = fields := by
    rw [List.filter_eq_self]
    intro f hf
    simpa using ⟨f.2, hf⟩
  have honce (name : String) : (fields.filter (·.1 == name)).length ≤ 1 := by
    have hcount := List.nodup_iff_count.mp hnodup name
    rw [List.count, List.countP_map] at hcount
    rw [← List.countP_eq_length_filter]
    exact hcount
  unfold row?
  simp only [hknown]
  rw [if_neg]
  simpa using fun a b _ => honce a

/-- A word stands for what it was chosen for, if no other choice has the same word. -/
theorem choice?_word {word : α → String} (h : Function.Injective word) {options : List α} {a : α}
    (ha : a ∈ options) : choice? (options.map fun a => (word a, a)) (.text (word a)) = some a := by
  show (options.map fun a => (word a, a)).lookup (word a) = some a
  induction options with
  | nil => cases ha
  | cons b options ih =>
      rw [List.map_cons, List.lookup_cons]
      by_cases hword : word a = word b
      · rw [h hword]
        simp
      · have hne : a ≠ b := fun heq => hword (by rw [heq])
        have hmem : a ∈ options := by simpa [hne] using ha
        simp only [beq_eq_false_iff_ne.mpr hword]
        exact ih hmem

@[simp] theorem Row.need_self : Row.need ((name, value) :: r) name read = read value := by
  simp [Row.need]

@[simp] theorem Row.need_of_ne {other : String} (h : other ≠ name) :
    Row.need ((other, value) :: r) name read = Row.need r name read := by
  simp [Row.need, h]

@[simp] theorem Row.optional_self (h : value ≠ .null) :
    Row.optional ((name, value) :: r) name read = (read value).map some := by
  unfold Row.optional
  rw [List.find?_cons_of_pos (by simp)]
  split
  · rename_i heq
    cases heq
    exact absurd rfl h
  · rename_i heq
    cases heq
    rfl
  · rename_i heq
    cases heq

@[simp] theorem Row.optional_null : Row.optional ((name, .null) :: r) name read = some none := by
  simp [Row.optional]

@[simp] theorem Row.optional_of_ne {other : String} (h : other ≠ name) :
    Row.optional ((other, value) :: r) name read = Row.optional r name read := by
  simp [Row.optional, h]

end Json

namespace Wire

/-! ### Fields -/

@[simp] theorem id?_int {n : Int} (h : inSignedWord 64 n = true) : id? (.int n) = some n := by
  simp [id?, Json.int?, Option.filter, h]

@[simp] theorem decimal?_text (a : Decimal) : decimal? (.text a.text) = some a := by
  simp only [decimal?, Json.text?, Option.bind_some, a.ofText?_text]

@[simp] theorem instant?_text (t : Instant) : instant? (.text t.text) = some t := by
  simp only [instant?, Json.text?, Option.bind_some, t.ofText?_text]

/-- Words that can be parsed are distinct. -/
theorem word_injective {α : Type} {word : α → String} {parse : String → Except Error α}
    (h : ∀ a, parse (word a) = .ok a) : Function.Injective word := by
  intro a b hword
  have hparse := congrArg parse hword
  rw [h, h] at hparse
  exact Except.ok.inj hparse

@[simp] theorem side?_word (s : Side) : side? (.text s.word) = some s := by
  unfold side?
  refine Json.choice?_word (word_injective Side.parse_word) ?_
  cases s <;> simp

@[simp] theorem status?_word (s : OrderStatus) : status? (.text s.word) = some s := by
  unfold status?
  refine Json.choice?_word (word_injective OrderStatus.parse_word) ?_
  cases s <;> simp [OrderStatus.all]

/-- An identifier that is found has 64 bits. -/
theorem need_id {r : Json.Row} {name : String} {n : Int} (h : r.need name id? = some n) :
    inSignedWord 64 n = true := by
  unfold Json.Row.need at h
  split at h
  · unfold id? at h
    exact (Option.filter_eq_some_iff.mp h).2
  · cases h

end Wire

open Wire

/-! ### Records -/

theorem OrderRequest.ofJson?_toJson (r : OrderRequest) : ofJson? r.toJson = some r := by
  have hrow : r.toJson.row? fieldNames = some _ := Json.row?_self rfl (by decide)
  unfold ofJson?
  rw [hrow, Option.bind_eq_bind, Option.bind_some]
  simp [Json.text?]

theorem OrderRequest.plain_toJson (r : OrderRequest) : r.toJson.Plain := by
  refine .record ?_
  simp [Json.Plain.text]

namespace Order

/-- The identifier of the order has 64 bits. -/
def Sendable (o : Order) : Prop := inSignedWord 64 o.id = true

variable {o : Order}

theorem plain_toJson (o : Order) : o.toJson.Plain := by
  refine .record ?_
  unfold toRecord
  cases o.averagePrice with
  | none => simp [Json.Plain.text, Json.Plain.int, Json.Plain.null]
  | some a => simp [Json.Plain.text, Json.Plain.int]

theorem Sendable.ofJson?_toJson (h : o.Sendable) : ofJson? o.toJson = some o := by
  have hrow : o.toJson.row? fieldNames = some _ := Json.row?_self rfl (by decide)
  unfold Sendable at h
  unfold ofJson?
  rw [hrow, Option.bind_eq_bind, Option.bind_some]
  unfold toRecord
  -- Without an average price the field is there all the same, and is null.
  cases haverage : o.averagePrice with
  | none =>
      simp [Json.text?, h]
      rw [← haverage]
  | some a =>
      simp [Json.text?, h]
      rw [← haverage]

/-- No other order is ever read. -/
theorem sendable_of_ofJson? {j : Json} (h : ofJson? j = some o) : o.Sendable := by
  obtain ⟨r, -, h⟩ := Option.bind_eq_some_iff.mp h
  obtain ⟨id, hid, h⟩ := Option.bind_eq_some_iff.mp h
  -- What is read after the identifier can only fail.
  iterate 11 obtain ⟨_, -, h⟩ := Option.bind_eq_some_iff.mp h
  cases h
  exact need_id hid

end Order

namespace Execution

/-- The three identifiers of the execution have 64 bits. -/
structure Sendable (e : Execution) : Prop where
  id : inSignedWord 64 e.id = true
  order : inSignedWord 64 e.order = true
  counterOrder : inSignedWord 64 e.counterOrder = true

variable {e : Execution}

theorem plain_toJson (e : Execution) : e.toJson.Plain := by
  refine .record ?_
  simp [toRecord, Json.Plain.text, Json.Plain.int]

theorem Sendable.ofJson?_toJson (h : e.Sendable) : ofJson? e.toJson = some e := by
  have hrow : e.toJson.row? fieldNames = some _ := Json.row?_self rfl (by decide)
  unfold ofJson?
  rw [hrow, Option.bind_eq_bind, Option.bind_some]
  simp [toRecord, h.id, h.order, h.counterOrder]

/-- No other execution is ever read. -/
theorem sendable_of_ofJson? {j : Json} (h : ofJson? j = some e) : e.Sendable := by
  obtain ⟨r, -, h⟩ := Option.bind_eq_some_iff.mp h
  obtain ⟨id, hid, h⟩ := Option.bind_eq_some_iff.mp h
  obtain ⟨order, horder, h⟩ := Option.bind_eq_some_iff.mp h
  obtain ⟨counterOrder, hcounter, h⟩ := Option.bind_eq_some_iff.mp h
  iterate 3 obtain ⟨_, -, h⟩ := Option.bind_eq_some_iff.mp h
  cases h
  exact ⟨need_id hid, need_id horder, need_id hcounter⟩

end Execution

namespace FillEvent

/-- The four identifiers of the event have 64 bits. -/
structure Sendable (e : FillEvent) : Prop where
  buyOrder : inSignedWord 64 e.buyOrder = true
  sellOrder : inSignedWord 64 e.sellOrder = true
  incomingOrder : inSignedWord 64 e.incomingOrder = true
  restingOrder : inSignedWord 64 e.restingOrder = true

variable {e : FillEvent}

theorem plain_toJson (e : FillEvent) : e.toJson.Plain := by
  refine .record ?_
  simp [toRecord, Json.Plain.text, Json.Plain.int]

theorem Sendable.ofJson?_toJson (h : e.Sendable) : ofJson? e.toJson = some e := by
  have hrow : e.toJson.row? fieldNames = some _ := Json.row?_self rfl (by decide)
  unfold ofJson?
  rw [hrow, Option.bind_eq_bind, Option.bind_some]
  simp [toRecord, Json.text?, h.buyOrder, h.sellOrder, h.incomingOrder, h.restingOrder]

/-- No other event is ever read. -/
theorem sendable_of_ofJson? {j : Json} (h : ofJson? j = some e) : e.Sendable := by
  obtain ⟨r, -, h⟩ := Option.bind_eq_some_iff.mp h
  obtain ⟨ticker, -, h⟩ := Option.bind_eq_some_iff.mp h
  obtain ⟨buyOrder, hbuy, h⟩ := Option.bind_eq_some_iff.mp h
  obtain ⟨sellOrder, hsell, h⟩ := Option.bind_eq_some_iff.mp h
  obtain ⟨incomingOrder, hincoming, h⟩ := Option.bind_eq_some_iff.mp h
  obtain ⟨restingOrder, hresting, h⟩ := Option.bind_eq_some_iff.mp h
  iterate 5 obtain ⟨_, -, h⟩ := Option.bind_eq_some_iff.mp h
  cases h
  exact ⟨need_id hbuy, need_id hsell, need_id hincoming, need_id hresting⟩

end FillEvent

/-! ### There and back -/

namespace Wire

/-- What a text is read as. -/
def receive {α : Type} (ofJson? : Json → Option α) (text : String) : Option α :=
  (Json.ofText? text).bind ofJson?

/--
Nothing is lost by sending: each value that can be sent comes back from its text, and so does
each one that was received from any text.
-/
structure Lossless {α : Type} (toJson : α → Json) (ofJson? : Json → Option α)
    (sendable : α → Prop) : Prop where
  sent (v : α) : sendable v → receive ofJson? (toJson v).print = some v
  resent (text : String) (v : α) :
    receive ofJson? text = some v → receive ofJson? (toJson v).print = some v

/-- It is enough that values are read back from records, and that no others are read. -/
theorem Lossless.of {α : Type} {toJson : α → Json} {ofJson? : Json → Option α}
    {sendable : α → Prop} (hplain : ∀ v, (toJson v).Plain)
    (hread : ∀ v, sendable v → ofJson? (toJson v) = some v)
    (hsendable : ∀ j v, ofJson? j = some v → sendable v) : Lossless toJson ofJson? sendable := by
  have hsent (v : α) (h : sendable v) : receive ofJson? (toJson v).print = some v := by
    unfold receive
    rw [Json.ofText?_print (hplain v), Option.bind_some]
    exact hread v h
  refine ⟨hsent, ?_⟩
  intro text v h
  obtain ⟨j, -, hj⟩ := Option.bind_eq_some_iff.mp h
  exact hsent v (hsendable j v hj)

/--
**The wire format loses nothing.**  Orders, requests, executions and fill events come back from
their texts unchanged, to the last place of each decimal and the last nanosecond of each
instant.  Only identifiers have to be of 64 bits, and those that are received are.
-/
theorem records_lossless :
    Lossless Order.toJson Order.ofJson? Order.Sendable ∧
      Lossless OrderRequest.toJson OrderRequest.ofJson? (fun _ => True) ∧
      Lossless Execution.toJson Execution.ofJson? Execution.Sendable ∧
      Lossless FillEvent.toJson FillEvent.ofJson? FillEvent.Sendable := by
  refine ⟨.of Order.plain_toJson ?_ ?_, .of OrderRequest.plain_toJson ?_ ?_,
    .of Execution.plain_toJson ?_ ?_, .of FillEvent.plain_toJson ?_ ?_⟩
  · intro o h
    exact h.ofJson?_toJson
  · intro j o h
    exact Order.sendable_of_ofJson? h
  · intro r _
    exact r.ofJson?_toJson
  · intro _ _ _
    trivial
  · intro e h
    exact h.ofJson?_toJson
  · intro j e h
    exact Execution.sendable_of_ofJson? h
  · intro e h
    exact h.ofJson?_toJson
  · intro j e h
    exact FillEvent.sendable_of_ofJson? h

/-- An order with every kind of character in its ticker and with numbers of every size. -/
def farOrder : Order where
  id := -9223372036854775808
  ticker := "\u007f/\"\\\n\x01\x7b é 😀"
  side := .sell
  price := (Decimal.ofParts? true 79228162514264337593543950335 28).getD .zero
  amount := .greatest
  executedAmount := (Decimal.ofParts? false 0 28).getD .zero
  remainingAmount := (Decimal.ofParts? true 1 28).getD .zero
  executedValue := (Decimal.ofParts? false 150 2).getD .zero
  averagePrice := Decimal.ofParts? false 0 1
  status := .partlyFilled
  createdAt := (Instant.ofParts? (-96465292) 86399 1999999999).getD .epoch
  updatedAt := (Instant.ofParts? 95026236 0 120000).getD .epoch

/-- An execution within a leap second. -/
def leapExecution : Execution where
  id := 1
  order := -2
  counterOrder := 3
  price := (Decimal.ofParts? false 5 1).getD .zero
  amount := (Decimal.ofParts? false 100 0).getD .zero
  executedAt := (Instant.ofParts? 17166 86399 1250000000).getD .epoch

/-- The execution as someone else may write it: as a list, and on a clock an hour ahead. -/
def leapText : String := "[1, -2, 3, \"+.5\", \"1_0e1\", \"2017-01-01t00:59:60.25+01:00\"]"

/-- The ends of all ranges, and a text that is not the one it is sent on as. -/
theorem records_lossless_far :
    (farOrder.Sendable ∧ receive Order.ofJson? farOrder.toJson.print = some farOrder) ∧
      receive Execution.ofJson? leapText = some leapExecution ∧
      receive Execution.ofJson? leapExecution.toJson.print = some leapExecution := by
  have hsendable : farOrder.Sendable := by
    unfold Order.Sendable
    decide
  have hread : receive Execution.ofJson? leapText = some leapExecution := by decide +kernel
  exact ⟨⟨hsendable, records_lossless.1.sent _ hsendable⟩, hread,
    records_lossless.2.2.1.resent _ _ hread⟩

end Wire

end Bourse
