/-!
# Quicksort

Pattern-defeating quicksort: a quicksort that notices rows which are nearly in order, rows with many
equal elements, and pivots that separate badly. It does not keep the order of equal elements, and
where they end up can be seen in listings and reports, so every choice it makes is laid down here.

A row is sorted on its own. All that is known of its surroundings is the element right before it,
which is not greater than any of the row.
-/

namespace Resumable

namespace Quicksort

variable {α : Type} (less : α → α → Bool)

/-! ### Short rows -/

/-- Puts `x` into a row that has its greatest element first, behind all that are greater. -/
def insertDown (x : α) : List α → List α
  | [] => [x]
  | y :: rest => if less x y then y :: insertDown x rest else x :: y :: rest

/-- Sorts by insertion, which keeps the order of equal elements. -/
def insertion (xs : List α) : List α :=
  (xs.foldl (fun done x => insertDown less x done) []).reverse

/-- Rows of at most this length are sorted by insertion. -/
def shortRow : Nat := 12

/-! ### Rows with bad pivots -/

/-- Is the element at `i` less than the one at `j`? -/
def lessAt (a : Array α) (i j : Nat) : Bool :=
  match a[i]?, a[j]? with
  | some x, some y => less x y
  | _, _ => false

/-- Lets the element at `root` sink, in a heap of the first `size` elements, below all children that
are greater. It sinks at most `most` times. -/
def sink (size : Nat) : (most : Nat) → (root : Nat) → Array α → Array α
  | 0, _, a => a
  | most + 1, root, a =>
    let left := 2 * root + 1
    if size ≤ left then a
    else
      let child := if left + 1 < size && lessAt less a left (left + 1) then left + 1 else left
      if lessAt less a root child then sink size most child (a.swapIfInBounds root child) else a

/-- The elements as a heap with the greatest at its root. -/
def heapOf (a : Array α) : Array α :=
  (List.range ((a.size - 1) / 2 + 1)).reverse.foldl (fun a i => sink less a.size a.size i a) a

/-- Sorts by taking the greatest element out of a heap, again and again. -/
def heapsort (xs : List α) : List α :=
  ((List.range xs.length).reverse.foldl
    (fun a i => sink less i i 0 (a.swapIfInBounds 0 i)) (heapOf less xs.toArray)).toList

/-- The next number of an xorshift sequence. -/
def scramble (r : UInt64) : UInt64 :=
  let r := r ^^^ (r <<< 13)
  let r := r ^^^ (r >>> 7)
  r ^^^ (r <<< 17)

/-- A place in a row of `size` elements that a random number stands for. -/
def placeOf (size : Nat) (r : UInt64) : Nat :=
  let k := r.toNat % Nat.pow 2 (Nat.log2 size + 1)
  if size ≤ k then k - size else k

/-- Exchanges three elements in the middle with others, to break a pattern that leads to bad
pivots. -/
def scatter (a : Array α) : Array α :=
  let middle := a.size / 4 * 2 - 1
  let r₁ := scramble (UInt64.ofNat a.size)
  let r₂ := scramble r₁
  let r₃ := scramble r₂
  ((a.swapIfInBounds middle (placeOf a.size r₁)).swapIfInBounds
    (middle + 1) (placeOf a.size r₂)).swapIfInBounds (middle + 2) (placeOf a.size r₃)

/-! ### Pivots -/

/-- Two places, the one with the lesser element first. Counts if they change sides. -/
def ordered (a : Array α) (i j : Nat) : StateM Nat (Nat × Nat) := do
  if lessAt less a j i then
    modify (· + 1)
    return (j, i)
  else return (i, j)

/-- The one of three places that holds their median. -/
def median (a : Array α) (i j k : Nat) : StateM Nat Nat := do
  let (i, j) ← ordered less a i j
  let (j, _) ← ordered less a j k
  let (_, j) ← ordered less a i j
  return j

/-- The place of the median of an element and its neighbours. -/
def medianAround (a : Array α) (i : Nat) : StateM Nat Nat := median less a (i - 1) i (i + 1)

/-- Rows of at least this length are long: their pivot is a median of medians, and elements out of
place are worth moving one by one. -/
def longRow : Nat := 50

/-- The place of a pivot. -/
def pivot (a : Array α) : StateM Nat Nat := do
  let quarter := a.size / 4
  if a.size < longRow then median less a quarter (quarter * 2) (quarter * 3)
  else
    let i ← medianAround less a quarter
    let j ← medianAround less a (quarter * 2)
    let k ← medianAround less a (quarter * 3)
    median less a i j k

/-- How often places change sides in the search for a pivot when the row is in descending order. -/
def allExchanged : Nat := 12

/-! ### Rows that are nearly in order -/

/-- Goes on to the next pair of neighbours in the wrong order. What lies behind has its last element
first. -/
def advance : (behind ahead : List α) → List α × List α
  | behind, [] => (behind, [])
  | [], y :: ahead => advance [y] ahead
  | x :: behind, y :: ahead =>
    if less y x then (x :: behind, y :: ahead) else advance (y :: x :: behind) ahead

/-- Moves both of a pair in the wrong order to where they belong, for up to `most` pairs, and tells
whether the row is known to be in order then. In a row that is not `long` nothing is moved. -/
def mend (long : Bool) : (most : Nat) → (behind ahead : List α) → Bool × List α
  | 0, behind, ahead => (false, behind.reverse ++ ahead)
  | most + 1, behind, ahead =>
    match advance less behind ahead with
    | (x :: behind, y :: ahead) =>
      if long then
        mend long most (insertDown less y behind)
          (ahead.takeWhile (less · x) ++ x :: ahead.dropWhile (less · x))
      else (false, (x :: behind).reverse ++ y :: ahead)
    | (behind, ahead) => (ahead.isEmpty, behind.reverse ++ ahead)

/-- The number of pairs that are moved at most. -/
def fewPairs : Nat := 5

/-! ### Separation -/

/-- What is left of a row without the elements at its front that are to stay there and those at its
back that are to stay there. -/
def misplaced (front : α → Bool) (xs : List α) : List α :=
  ((xs.dropWhile front).reverse.dropWhile fun x => !front x).reverse

/-- Separates a row into the elements that belong to the front and those that belong to the back, by
exchanging the outermost two on the wrong sides until there are none. -/
def separate (front : α → Bool) : (most : Nat) → List α → List α × List α
  | 0, xs => (xs, [])
  | most + 1, xs =>
    let before := xs.takeWhile front
    let after := ((xs.dropWhile front).reverse.takeWhile fun x => !front x).reverse
    match misplaced front xs with
    | [] => (before, after)
    | x :: rest =>
      match rest.getLast? with
      | none => (before, x :: after)
      | some y =>
        let (fs, bs) := separate front most rest.dropLast
        (before ++ y :: fs, bs ++ x :: after)

/-- The last element in front of all others. -/
def lastFirst (xs : List α) : List α := xs.getLast?.toList ++ xs.dropLast

/-- What a row has to do with the rows that it was a part of. -/
structure Course where
  /-- How many more bad pivots there may be. -/
  badPivots : Nat
  /-- Did the last pivot separate well? -/
  balanced : Bool := true
  /-- Was the row around it separated to begin with? -/
  separated : Bool := true
deriving DecidableEq, Repr

/-- The courses of the two sides of a pivot. The longer side carries on; the shorter one starts
anew. The pivot is counted with what is right of it. -/
def Course.sides (c : Course) (separated : Bool) (left right : Nat) : Course × Course :=
  let fresh : Course := { badPivots := c.badPivots }
  let goesOn (shorter : Nat) : Course :=
    { badPivots := c.badPivots, balanced := (left + right + 1) / 8 ≤ shorter, separated }
  if left ≤ right then (fresh, goesOn left) else (goesOn (right + 1), fresh)

/-- Prepares a row for its pivot: breaks a pattern after a bad pivot, turns a row around that seems
to be in descending order, and looks whether one that seems to be in order is. The answer has the
row, whether it is in order, and the place of the pivot. -/
def prepared (c : Course) (xs : List α) : List α × Bool × Nat :=
  let a := if c.balanced then xs.toArray else scatter xs.toArray
  let (place, exchanges) := (pivot less a).run 0
  let (xs, place) :=
    if exchanges = allExchanged then (a.toList.reverse, a.size - 1 - place) else (a.toList, place)
  if c.balanced && c.separated && (exchanges = 0 || exchanges = allExchanged) then
    let (done, xs) := mend less (decide (longRow ≤ xs.length)) fewPairs [] xs
    (xs, done, place)
  else (xs, false, place)

/-- Sorts a row. The element before it is not greater than any of the row, so if it is not less than
the pivot either, all that are equal to the pivot come first. Every round leaves shorter rows, so
`most` need not be greater than the length. -/
def sortRow : (most : Nat) → (before : Option α) → Course → List α → List α
  | 0, _, _, xs => xs
  | most + 1, before, c, xs =>
    if xs.length ≤ shortRow then insertion less xs
    else if c.badPivots = 0 then heapsort less xs
    else
      let (xs, done, place) := prepared less c xs
      let c := if c.balanced then c else { c with badPivots := c.badPivots - 1 }
      if done then xs
      else
        match (xs.toArray.swapIfInBounds 0 place).toList with
        | [] => []
        | p :: rest =>
          if before.any fun x => !less x p then
            let (same, greater) := separate (fun x => !less p x) rest.length rest
            p :: same ++ sortRow most (p :: same).getLast? c greater
          else
            let (left, right) := separate (less · p) rest.length rest
            let (cl, cr) :=
              c.sides (misplaced (less · p) rest).isEmpty left.length right.length
            sortRow most before cl (lastFirst left) ++ p :: sortRow most (some p) cr right

/-- Sorts a list by an order in which equal elements may change places. -/
def sort (xs : List α) : List α :=
  sortRow less (xs.length + 1) none { badPivots := Nat.log2 xs.length + 1 } xs

end Quicksort

end Resumable
