/-
What no call on a store undoes, whoever makes it.

Nothing is asked of the calls here: a fill may name any two orders, or one order twice,
and put whatever it likes in their place.  Only the check that a commit makes is left to
rely on.  It lets a fill replace orders that can be matched, so none that is terminal, and
the two entries that it appends name the orders that it replaces.  That is `Lasts`, and a
run of calls has it because it is transitive.

The identifiers need nothing but the two counters.  `Issues.run` says of either of them
that what any calls issue, one after the other, is a stretch of numbers, and that it is
just these numbers that orders and executions are on record with.
-/
import Bourse.Proofs.Store
import Bourse.Power

namespace Bourse

namespace StoreCall

/-- The identifiers of the orders that a call places, as its answer tells. -/
def placed : (c : StoreCall) → c.Answer → List OrderId
  | insert .., o => [o.id]
  | _, _ => []

/-- The identifiers of the executions that a call records, as its answer tells. -/
def recorded : (c : StoreCall) → c.Answer → List ExecutionId
  | commit _, .committed receipt => [receipt.incoming.id, receipt.counter.id]
  | _, _ => []

end StoreCall

namespace Store

/-- The store after some calls. -/
def performAll (s : Store) (calls : List StoreCall) : Store :=
  calls.foldl (fun s c => (s.perform c).2) s

/-- A call places an order, fills two, cancels one, or leaves the store as it was. -/
theorem perform_cases (s : Store) (c : StoreCall) :
    (∃ request time, c = .insert request time) ∨
    (∃ fill o p, c = .commit fill ∧ s.Takes fill o p) ∨
    (∃ o time, c = .cancel o.id time ∧ s.find? o.id = some o ∧ o.status.terminal = false ∧
      s.cancel o.id time = (some (cancelled o time), s.replace (cancelled o time))) ∨
    ((s.perform c).2 = s ∧ c.placed (s.perform c).1 = [] ∧ c.recorded (s.perform c).1 = []) := by
  cases c with
  | insert request time => exact Or.inl ⟨request, time, rfl⟩
  | commit fill =>
      rcases s.commit_cases fill with ⟨o, p, t⟩ | ⟨hsame, hturned⟩
      · exact Or.inr (Or.inl ⟨fill, o, p, rfl, t⟩)
      · refine Or.inr (Or.inr (Or.inr ⟨hsame, rfl, ?_⟩))
        show StoreCall.recorded (.commit fill) (s.commit fill).1 = []
        cases houtcome : (s.commit fill).1 with
        | committed receipt => exact absurd houtcome (hturned receipt)
        | incomingUnavailable | counterUnavailable => rfl
  | cancel id time =>
      rcases s.cancel_cases id time with ⟨o, hfind, hlive, hcancel⟩ | hcancel
      · obtain ⟨-, rfl⟩ := mem_of_find? hfind
        exact Or.inr (Or.inr (Or.inl ⟨o, time, rfl, hfind, hlive, hcancel⟩))
      · exact Or.inr (Or.inr (Or.inr ⟨congrArg Prod.snd hcancel, rfl, rfl⟩))
  | load | loadMany | executions | live => exact Or.inr (Or.inr (Or.inr ⟨rfl, rfl, rfl⟩))

/-! ### What is terminal, and what is on the ledger -/

/-- What a store keeps of an earlier one: its terminal orders and its ledger. -/
structure Lasts (s s' : Store) : Prop where
  frozen : ∀ o ∈ s.orders, o.status.terminal = true → s'.find? o.id = some o
  /-- The ledger only grows at its end, and not by an entry of a terminal order. -/
  ledger : ∃ entries, s'.executions = s.executions ++ entries ∧
    ∀ o ∈ s.orders, o.status.terminal = true → ∀ e ∈ entries, e.order ≠ o.id

namespace Lasts

variable {s s' s'' : Store}

/-- Nothing is appended, and what is terminal is found as before. -/
theorem of_find? (hfind : ∀ o ∈ s.orders, o.status.terminal = true →
    s'.find? o.id = s.find? o.id) (hexecutions : s'.executions = s.executions) :
    s.Lasts s' where
  frozen o ho hterminal := (hfind o ho hterminal).trans (mem_orders_iff.mp ho)
  ledger := ⟨[], by rw [hexecutions, List.append_nil], fun _ _ _ => List.forall_mem_nil _⟩

theorem refl (s : Store) : s.Lasts s := of_find? (fun _ _ _ => rfl) rfl

theorem trans (h : s.Lasts s') (h' : s'.Lasts s'') : s.Lasts s'' := by
  obtain ⟨entries, happend, hspared⟩ := h.ledger
  obtain ⟨entries', happend', hspared'⟩ := h'.ledger
  -- What was terminal is on record unchanged, so the later entries spare it as well.
  have hstill : ∀ o ∈ s.orders, o.status.terminal = true → o ∈ s'.orders :=
    fun o ho hterminal => mem_orders_iff.mpr (h.frozen o ho hterminal)
  refine ⟨fun o ho hterminal => h'.frozen o (hstill o ho hterminal) hterminal,
    entries ++ entries', ?_, fun o ho hterminal e he => ?_⟩
  · rw [happend', happend, List.append_assoc]
  · rcases List.mem_append.mp he with he | he
    · exact hspared o ho hterminal e he
    · exact hspared' o (hstill o ho hterminal) hterminal e he

theorem cancelled {o : Order} (hfind : s.find? o.id = some o) (hlive : o.status.terminal = false)
    (time : Instant) : s.Lasts (s.replace (Store.cancelled o time)) := by
  refine of_find? (fun p hp hterminal => ?_) rfl
  have hne : p.id ≠ o.id := by
    intro hid
    rw [eq_of_id_eq hp (mem_orders_iff.mpr hfind) hid, hlive] at hterminal
    cases hterminal
  rw [find?_cancelled hfind, if_neg hne]

/-- **A fill replaces no order that is terminal**, whatever it would put in its place. -/
theorem commit {fill : FillCommit} {o p : Order} (t : s.Takes fill o p) :
    s.Lasts (s.commit fill).2 := by
  obtain ⟨-, hexecutions, -, -, -⟩ := t.committed
  refine ⟨fun q hq hterminal => ?_, _, hexecutions, fun q hq hterminal e he => ?_⟩
  · obtain ⟨hincoming, hcounter⟩ := t.ids_ne_of_terminal hq hterminal
    rw [t.find?_commit, if_neg hcounter, if_neg hincoming]
    exact mem_orders_iff.mp hq
  · obtain ⟨hincoming, hcounter⟩ := t.ids_ne_of_terminal hq hterminal
    rcases List.mem_cons.mp he with rfl | he
    · exact hincoming.symm
    · exact List.mem_singleton.mp he ▸ hcounter.symm

theorem perform (s : Store) (c : StoreCall) : s.Lasts (s.perform c).2 := by
  rcases s.perform_cases c with ⟨request, time, rfl⟩ | ⟨fill, o, p, rfl, t⟩ |
    ⟨o, time, rfl, hfind, hlive, hcancel⟩ | ⟨hsame, -, -⟩
  · refine of_find? (fun o ho _ => ?_) rfl
    exact (find?_insert ..).trans (if_neg (Int.ne_of_lt (s.fresh o ho)))
  · exact commit t
  · show s.Lasts (s.cancel o.id time).2
    rw [hcancel]
    exact cancelled hfind hlive time
  · rw [hsame]
    exact refl s

theorem performAll (s : Store) (calls : List StoreCall) : s.Lasts (s.performAll calls) := by
  induction calls generalizing s with
  | nil => exact refl s
  | cons c calls ih => exact (perform s c).trans (ih _)

end Lasts

/-! ### What is issued -/

/-- So many numbers from this one on. -/
def countFrom (start : Int) (n : Nat) : List Int := (List.range n).map fun i : Nat => start + i

theorem countFrom_append (start : Int) (m n : Nat) :
    countFrom start m ++ countFrom (start + m) n = countFrom start (m + n) := by
  unfold countFrom
  rw [List.range_add, List.map_append, List.map_map]
  congr 1
  refine List.map_congr_left fun i _ => ?_
  show start + (m : Int) + i = start + ((m + i : Nat) : Int)
  omega

theorem pairwise_countFrom (start : Int) (n : Nat) : (countFrom start n).Pairwise (· < ·) := by
  refine List.pairwise_map.mpr (List.pairwise_lt_range.imp fun {i j} hij => ?_)
  omega

theorem mem_countFrom {start id : Int} {n : Nat} (h : id ∈ countFrom start n) :
    start ≤ id ∧ id < start + n := by
  obtain ⟨i, hi, rfl⟩ := List.mem_map.mp h
  rw [List.mem_range] at hi
  omega

section

variable {issued : (c : StoreCall) → c.Answer → List Int} {kept : Store → List Int}
  {next : Store → Int}

/-- What some calls issue, one after the other. -/
def issuedBy (issued : (c : StoreCall) → c.Answer → List Int) : Store → List StoreCall → List Int
  | _, [] => []
  | s, c :: calls => issued c (s.perform c).1 ++ (s.perform c).2.issuedBy issued calls

/-- Every call issues the next numbers of a counter, and the store keeps them in order. -/
def Issues (issued : (c : StoreCall) → c.Answer → List Int) (kept : Store → List Int)
    (next : Store → Int) : Prop :=
  ∀ s c, kept (s.perform c).2 = kept s ++ issued c (s.perform c).1 ∧
    ∃ n : Nat, issued c (s.perform c).1 = countFrom (next s) n ∧ next (s.perform c).2 = next s + n

theorem Issues.run (h : Issues issued kept next) (s : Store) (calls : List StoreCall) :
    kept (s.performAll calls) = kept s ++ s.issuedBy issued calls ∧
      ∃ n : Nat, s.issuedBy issued calls = countFrom (next s) n ∧
        next (s.performAll calls) = next s + n := by
  induction calls generalizing s with
  | nil => exact ⟨(List.append_nil _).symm, 0, rfl, (Int.add_zero _).symm⟩
  | cons c calls ih =>
      obtain ⟨hkept, m, hissued, hnext⟩ := h s c
      obtain ⟨hkept', n, hissued', hnext'⟩ := ih (s.perform c).2
      refine ⟨?_, m + n, ?_, ?_⟩
      · show kept ((s.perform c).2.performAll calls) = _
        rw [hkept', hkept, List.append_assoc]
        rfl
      · rw [← countFrom_append, ← hnext, ← hissued, ← hissued']
        rfl
      · show next ((s.perform c).2.performAll calls) = _
        rw [hnext', hnext]
        omega

/-- Numbers that have been issued, those that are in use, and the one that is next. -/
structure Numbering (issued kept : List Int) (next : Int) : Prop where
  increasing : issued.Pairwise (· < ·)
  kept : kept = issued
  below : ∀ id ∈ issued, id < next
  /-- No word of 64 bits overflows as long as it has room for as many numbers as these. -/
  word : issued.length < twoTo 63 - 1 → ∀ id ∈ next :: issued, inSignedWord 64 id = true

/-- **No number is issued twice**, whatever the calls are. -/
theorem Issues.numbering (h : Issues issued kept next) (hnext : next empty = 1)
    (hkept : kept empty = []) (calls : List StoreCall) :
    Numbering (empty.issuedBy issued calls) (kept (empty.performAll calls))
      (next (empty.performAll calls)) := by
  obtain ⟨hkept', n, hissued, hnext'⟩ := h.run empty calls
  rw [hnext] at hissued hnext'
  rw [hkept, List.nil_append] at hkept'
  refine ⟨hissued ▸ pairwise_countFrom 1 n, hkept', fun id hid => ?_, fun hlength id hid => ?_⟩
  · rw [hnext']
    exact (mem_countFrom (hissued ▸ hid)).2
  · rw [hissued, countFrom, List.length_map, List.length_range] at hlength
    have hid : 1 ≤ id ∧ id ≤ 1 + n := by
      rcases List.mem_cons.mp hid with rfl | hid
      · omega
      · have := mem_countFrom (hissued ▸ hid)
        omega
    have hword : twoTo (64 - 1) = twoTo 63 := rfl
    have hpos : 1 ≤ twoTo 63 := by decide
    rw [inSignedWord, decide_eq_true_eq, hword]
    omega

end

theorem issues_placed : Issues StoreCall.placed (fun s => s.orders.map (·.id)) nextOrderId := by
  intro s c
  have hreplace (t : Store) (o : Order) : (t.replace o).orders.map (·.id) = t.orders.map (·.id) :=
    map_id_replace t.orders o
  rcases s.perform_cases c with ⟨request, time, rfl⟩ | ⟨fill, o, p, rfl, t⟩ |
    ⟨o, time, rfl, -, -, hcancel⟩ | ⟨hsame, hnone, -⟩
  · exact ⟨List.map_append, 1, by simp [countFrom, StoreCall.placed, perform, insert,
      Order.ofRequest], rfl⟩
  · obtain ⟨-, -, horders, hnext, -⟩ := t.committed
    refine ⟨?_, 0, rfl, hnext.trans (Int.add_zero _).symm⟩
    show (s.commit fill).2.orders.map (·.id) = s.orders.map (·.id) ++ []
    rw [horders, hreplace, hreplace, List.append_nil]
  · show (s.cancel o.id time).2.orders.map (·.id) = s.orders.map (·.id) ++ [] ∧
      ∃ n : Nat, [] = countFrom s.nextOrderId n ∧ (s.cancel o.id time).2.nextOrderId = _
    rw [hcancel]
    exact ⟨by rw [hreplace, List.append_nil], 0, rfl, (Int.add_zero _).symm⟩
  · rw [hsame, hnone]
    exact ⟨(List.append_nil _).symm, 0, rfl, (Int.add_zero _).symm⟩

theorem issues_recorded :
    Issues StoreCall.recorded (fun s => s.executions.map (·.id)) nextExecutionId := by
  intro s c
  rcases s.perform_cases c with ⟨request, time, rfl⟩ | ⟨fill, o, p, rfl, t⟩ |
    ⟨o, time, rfl, -, -, hcancel⟩ | ⟨hsame, -, hnone⟩
  · exact ⟨(List.append_nil _).symm, 0, rfl, (Int.add_zero _).symm⟩
  · obtain ⟨hcommitted, hexecutions, -, -, hnext⟩ := t.committed
    have hrecorded : StoreCall.recorded (.commit fill) (s.perform (.commit fill)).1 =
        [s.nextExecutionId, s.nextExecutionId + 1] := by
      show StoreCall.recorded (.commit fill) (s.commit fill).1 = _
      rw [hcommitted]
      rfl
    rw [hrecorded]
    refine ⟨?_, 2, by simp [countFrom, List.range_succ], hnext⟩
    show (s.commit fill).2.executions.map (·.id) = _
    rw [hexecutions, List.map_append]
    rfl
  · show (s.cancel o.id time).2.executions.map (·.id) = s.executions.map (·.id) ++ [] ∧
      ∃ n : Nat, [] = countFrom s.nextExecutionId n ∧ (s.cancel o.id time).2.nextExecutionId = _
    rw [hcancel]
    exact ⟨(List.append_nil _).symm, 0, rfl, (Int.add_zero _).symm⟩
  · rw [hsame, hnone]
    exact ⟨(List.append_nil _).symm, 0, rfl, (Int.add_zero _).symm⟩

/-! ### Any calls at all -/

/--
**What is terminal never changes, and the ledger only grows.**  Whatever the calls are that
made a store, and whatever the calls are that come after: the ledger is continued, and
orders that are filled or cancelled stay as they are and get no further entry.  Orders and
executions are numbered increasing, an order is found by its own number alone, and what is
turned down leaves no trace.
-/
theorem lasting (calls later : List StoreCall) :
    let s := empty.performAll calls
    (∃ entries, (s.performAll later).executions = s.executions ++ entries ∧
      ∀ o, s.find? o.id = some o → o.status = .filled ∨ o.status = .cancelled →
        (s.performAll later).find? o.id = some o ∧ ∀ e ∈ entries, e.order ≠ o.id) ∧
    Numbering (empty.issuedBy StoreCall.placed calls) (s.orders.map (·.id)) s.nextOrderId ∧
    Numbering (empty.issuedBy StoreCall.recorded calls) (s.executions.map (·.id))
      s.nextExecutionId ∧
    (∀ id o, s.find? id = some o → o.id = id) ∧
    (∀ fill, (∀ receipt, (s.commit fill).1 ≠ .committed receipt) → (s.commit fill).2 = s) ∧
    ∀ id time, (s.cancel id time).1 = none → (s.cancel id time).2 = s := by
  intro s
  have hlasts := Lasts.performAll s later
  obtain ⟨entries, happend, hspared⟩ := hlasts.ledger
  refine ⟨⟨entries, happend, fun o hfind hstatus => ?_⟩,
    issues_placed.numbering rfl rfl calls, issues_recorded.numbering rfl rfl calls,
    fun id o hfind => (mem_of_find? hfind).2, fun fill hturned => ?_, fun id time hnone => ?_⟩
  · have ho := mem_orders_iff.mpr hfind
    have hterminal : o.status.terminal = true := by
      rcases hstatus with h | h <;> rw [h] <;> rfl
    exact ⟨hlasts.frozen o ho hterminal, hspared o ho hterminal⟩
  · rcases s.commit_cases fill with ⟨o, p, t⟩ | ⟨hsame, -⟩
    · exact absurd t.committed.1 (hturned _)
    · exact hsame
  · rcases s.cancel_cases id time with ⟨o, -, -, hcancel⟩ | hcancel
    · rw [hcancel] at hnone
      cases hnone
    · rw [hcancel]

/-- A request to trade one of `X` at 1. -/
def single (side : Side) : OrderRequest :=
  let one := (Decimal.ofParts? false 1 0).getD .zero
  ⟨"X", side, one, one⟩

/-- A fill that was worked out by nobody, for two orders of which 1 remains. -/
def madeUp (incoming counter : OrderId) : FillCommit where
  incoming := .ofRequest incoming (single .buy) .epoch
  counter := { Order.ofRequest counter (single .sell) .epoch with status := .filled }
  incomingExpected := (single .buy).amount
  counterExpected := (single .sell).amount
  price := .zero
  amount := .greatest
  executedAt := .epoch

/-- Three orders; a fill that names the first one twice, and the second one cancelled. -/
def firstTwice : List StoreCall :=
  [.insert (single .buy) .epoch, .insert (single .sell) .epoch, .insert (single .sell) .epoch,
    .commit (madeUp 1 1), .cancel 2 .epoch]

/-- One more order fills the third one, and the first two are tried again. -/
def triedAgain : List StoreCall :=
  [.commit (madeUp 1 1), .insert (single .buy) .epoch, .commit (madeUp 4 1),
    .commit (madeUp 4 3), .cancel 1 .epoch, .commit (madeUp 2 3)]

/-- The order that a fill named twice is closed for good, with two entries to its name. -/
theorem lasting_firstTwice :
    let s := empty.performAll firstTwice
    (∃ o p, s.find? 1 = some o ∧ o.status = .filled ∧ s.find? 2 = some p ∧
      p.status = .cancelled ∧ (s.performAll triedAgain).find? 1 = some o ∧
      (s.performAll triedAgain).find? 2 = some p) ∧
    (s.executions.map (·.order) = [1, 1] ∧
      (s.performAll triedAgain).executions.map (·.order) = [1, 1, 4, 3]) ∧
    (s.orders.map (·.id) = [1, 2, 3] ∧ inSignedWord 64 s.nextOrderId = true) ∧
    (s.commit (madeUp 1 1)).2 = s ∧ (s.cancel 2 .epoch).2 = s := by
  intro s
  obtain ⟨⟨entries, -, hfrozen⟩, hplaced, -, -, hturned, hnone⟩ := lasting firstTwice triedAgain
  obtain ⟨⟨o, ho, hfilled⟩, p, hp, hcancelled⟩ : (∃ o, s.find? 1 = some o ∧ o.status = .filled) ∧
      ∃ p, s.find? 2 = some p ∧ p.status = .cancelled := by
    have hstatus : (s.find? 1).map (·.status) = some .filled ∧
        (s.find? 2).map (·.status) = some .cancelled := by decide +kernel
    exact ⟨Option.map_eq_some_iff.mp hstatus.1, Option.map_eq_some_iff.mp hstatus.2⟩
  have hid := (mem_of_find? ho).2
  have hid' := (mem_of_find? hp).2
  have hlength : (empty.issuedBy StoreCall.placed firstTwice).length < twoTo 63 - 1 := by
    decide +kernel
  refine ⟨⟨o, p, ho, hfilled, hp, hcancelled, ?_, ?_⟩, by decide +kernel,
    ⟨by decide +kernel, hplaced.word hlength _ (List.mem_cons_self ..)⟩,
    hturned _ ?_, hnone 2 .epoch (by decide +kernel)⟩
  · exact hid ▸ (hfrozen o (hid.symm ▸ ho) (Or.inl hfilled)).1
  · exact hid' ▸ (hfrozen p (hid'.symm ▸ hp) (Or.inr hcancelled)).1
  · have : (s.commit (madeUp 1 1)).1 = .incomingUnavailable := by decide +kernel
    rw [this]
    exact fun _ h => nomatch h

end Store

end Bourse
