/-!
# Sets of code points

A set of code points is given by the sorted list of codes at which membership changes: it starts at
the first code of the list, stops before the second, starts again at the third, and so on.
-/

namespace Resumable.Category

/-- Is `n` in the set whose membership changes at `flips`? -/
def within : List Nat → Nat → Bool
  | [], _ => false
  | flip :: rest, n => if n < flip then false else !within rest n

end Resumable.Category
