/-
Powers of two and of ten.

Powers of ten move a decimal's point, and powers of two bound the words that integers
travel in.
-/

namespace Bourse

/-- Ten to the power `n`. -/
def tenTo (n : Nat) : Nat := Nat.pow 10 n

/-- Two to the power `n`. -/
def twoTo (n : Nat) : Nat := Nat.pow 2 n

@[simp] theorem tenTo_zero : tenTo 0 = 1 := rfl

theorem tenTo_succ (n : Nat) : tenTo (n + 1) = tenTo n * 10 := rfl

theorem tenTo_pos (n : Nat) : 0 < tenTo n := Nat.pow_pos (by decide)

theorem tenTo_add (m n : Nat) : tenTo (m + n) = tenTo m * tenTo n := Nat.pow_add 10 m n

/-- Is the integer one of those that a word of `bits` bits without a sign can hold? -/
def inWord (bits : Nat) (n : Int) : Bool := decide (0 ≤ n ∧ n < twoTo bits)

/-- Is the integer one of those that a word of `bits` bits with a sign can hold? -/
def inSignedWord (bits : Nat) (n : Int) : Bool :=
  decide (-(twoTo (bits - 1) : Int) ≤ n ∧ n < twoTo (bits - 1))

end Bourse
