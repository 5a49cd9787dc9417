/-
Work that is done by calls.

Matching, reconciliation and the rest touch the store, the index and everything else
only through calls, each of which happens whole.  An `Action` is such work laid open: it
is done, it has failed, or it makes one call and goes on with the answer.  So the same
work can be run at once, run while calls fail, stopped before any call, or interleaved
with other work call by call.
-/
import Bourse.Store.Basic
import Bourse.Index.Basic
import Bourse.Metrics

namespace Bourse

/-- One call, the unit in which concurrent work interleaves. -/
inductive Call
  | store (c : StoreCall)
  | index (c : IndexCall)
  /-- Hands an event to whoever is to be told of fills. -/
  | notify (e : FillEvent)
  /-- Reads the clock. -/
  | now
  /-- Asks whether the market is open at an instant. -/
  | marketOpen (time : Instant)
  /-- Claims the right to run a tick, if no tick is running. -/
  | beginTick
  /-- Gives that right back. -/
  | endTick
  | count (c : Counter)
  | recordFill (amount : Decimal) (completed : UInt64)

/-- What a call is answered with; a call on the store or the index may fail. -/
abbrev Call.Answer : Call → Type
  | store c => Except Error c.Answer
  | index c => Except Error c.Answer
  | notify _ => Bool
  | now => Instant
  | marketOpen _ => Bool
  | beginTick => Bool
  | endTick => Unit
  | count _ => Unit
  | recordFill .. => Unit

/-- Work that ends in a value or a failure, call by call. -/
inductive Action (α : Type) : Type
  | done (a : α)
  | fail (f : Failure)
  | call (c : Call) (rest : c.Answer → Action α)

namespace Action

variable {α β : Type}

/-- Goes on with `next` once the work is done. -/
def bind : Action α → (α → Action β) → Action β
  | done a, next => next a
  | fail f, _ => fail f
  | call c rest, next => call c fun a => (rest a).bind next

instance : Monad Action where
  pure := done
  bind := bind

@[simp] theorem pure_eq (a : α) : (pure a : Action α) = done a := rfl

@[simp] theorem done_bind (a : α) (next : α → Action β) : (done a >>= next) = next a := rfl

@[simp] theorem fail_bind (f : Failure) (next : α → Action β) : (fail f >>= next) = fail f := rfl

@[simp] theorem call_bind (c : Call) (rest : c.Answer → Action α) (next : α → Action β) :
    (call c rest >>= next) = call c fun a => rest a >>= next := rfl

theorem bind_done (x : Action α) : x >>= done = x := by
  induction x with
  | done a => rfl
  | fail f => rfl
  | call c rest ih => exact congrArg (call c) (funext ih)

theorem bind_assoc {γ : Type} (x : Action α) (f : α → Action β) (g : β → Action γ) :
    x >>= f >>= g = x >>= fun a => f a >>= g := by
  induction x with
  | done a => rfl
  | fail e => rfl
  | call c rest ih => exact congrArg (call c) (funext ih)

instance : LawfulMonad Action :=
  LawfulMonad.mk' Action (fun x => bind_done x) (fun _ _ => rfl) (fun x f g => bind_assoc x f g)

/-! ### Single calls -/

/-- A call on the store, whose failure is the work's. -/
def store (c : StoreCall) : Action c.Answer :=
  call (.store c) fun
    | .ok a => done a
    | .error e => fail (.error e)

/-- A call on the index, whose failure is the work's. -/
def index (c : IndexCall) : Action c.Answer :=
  call (.index c) fun
    | .ok a => done a
    | .error e => fail (.error e)

/-- Reads the clock. -/
def now : Action Instant := call .now done

/-- Counts one of a kind. -/
def count (c : Counter) : Action Unit := call (.count c) done

/-- Fails with an error. -/
def refuse (e : Error) : Action α := fail (.error e)

/-- Goes on with a result, or fails with its error. -/
def ofExcept : Except Error α → Action α
  | .ok a => done a
  | .error e => refuse e

/-- Goes on with a total, or fails because there is no room for it. -/
def total (o : Overflow) : Option α → Action α
  | some a => done a
  | none => fail (.overflow o)

/-! ### Failures held -/

/-- The work's outcome, whatever it is. -/
def attempt : Action α → Action (Except Failure α)
  | done a => done (.ok a)
  | fail f => done (.error f)
  | call c rest => call c fun a => (rest a).attempt

/-- The work's outcome, if it does not end in an overflow. -/
def attemptError : Action α → Action (Except Error α)
  | done a => done (.ok a)
  | fail (.error e) => done (.error e)
  | fail f => fail f
  | call c rest => call c fun a => (rest a).attemptError

/-! ### Running -/

variable {σ : Type}

/-- Runs the work to its end, with `answer` to carry out the calls. -/
def run (answer : (c : Call) → σ → c.Answer × σ) : Action α → σ → Except Failure α × σ
  | done a, s => (.ok a, s)
  | fail f, s => (.error f, s)
  | call c rest, s =>
    let (a, s) := answer c s
    (rest a).run answer s

/-- Work that has ended, or waits for the answer to a call. -/
inductive Progress (α : Type) : Type
  | ended (result : Except Failure α)
  | waiting (c : Call) (rest : c.Answer → Action α)

/-- Runs the work until it ends or a call gets no answer yet. -/
def advance (answer : (c : Call) → σ → Option c.Answer × σ) : Action α → σ → Progress α × σ
  | done a, s => (.ended (.ok a), s)
  | fail f, s => (.ended (.error f), s)
  | call c rest, s =>
    match answer c s with
    | (some a, s) => (rest a).advance answer s
    | (none, s) => (.waiting c rest, s)

end Action

end Bourse
