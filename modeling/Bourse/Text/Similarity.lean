/-
How similar two texts are.

Each character of the first text is matched with the first equal one of the second that is
not far away and is still free.  The similarity is the mean of three shares: of the first
text's characters that are matched, of the second's, and of the matched ones that are in
order.
-/

namespace Bourse.Text

/-- How far apart the places of matched characters may be, in texts of these lengths. -/
def matchRange (m n : Nat) : Nat := max m n / 2 - 1

/-- The place in `b` that is matched with a character at place `i`, out of those not `used`. -/
def partner? (range : Nat) (b : List Char) (used : List Nat) (i : Nat) (c : Char) : Option Nat :=
  (b.zipIdx.find? fun (d, j) =>
    d == c && i ≤ j + range && j ≤ i + range && !used.contains j).map (·.2)

/-- The characters of `a` that are matched, and the places in `b` that they are matched with. -/
def matched (a b : List Char) : List Char × List Nat :=
  a.zipIdx.foldl (fun (cs, used) (c, i) =>
    match partner? (matchRange a.length b.length) b used i c with
    | some j => (cs ++ [c], used ++ [j])
    | none => (cs, used)) ([], [])

/-- Three times the similarity of two texts, as a fraction. -/
def similarity (a b : List Char) : Nat × Nat :=
  let (cs, used) := matched a b
  let ds := (b.zipIdx.filter fun (_, j) => used.contains j).map (·.1)
  let n := cs.length
  let swapped := ((cs.zip ds).filter fun (c, d) => c != d).length / 2
  if n = 0 then (0, 1)
  else
    (n * n * (a.length + b.length) + (n - swapped) * a.length * b.length, n * a.length * b.length)

/-- Is the first fraction at most the second? -/
def atMost (x y : Nat × Nat) : Bool := x.1 * y.2 ≤ y.1 * x.2

/--
The one of some texts that is most similar to `s`, the last of equally similar ones, if it is
similar by seven parts in ten.
-/
def mostSimilar? (s : String) (texts : List String) : Option String :=
  let score := fun (t : String) => similarity s.toList t.toList
  (texts.filter fun t => atMost (21, 10) (score t)).foldl (fun best t => match best with
    | some u => if atMost (score u) (score t) then some t else some u
    | none => some t) none

end Bourse.Text
