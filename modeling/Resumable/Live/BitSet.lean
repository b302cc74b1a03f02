/-!
# Sets of small numbers

A set is a row of 64-bit words: the number `v` is a member if bit `v % 64` of word `v / 64` is set.
Words past the end of the row count as zero, so a row can be extended without a change to the set.
-/

namespace Resumable

/-- A set of 32-bit numbers. -/
structure BitSet where
  words : List UInt64
deriving DecidableEq, Repr, Inhabited

namespace BitSet

/-- The word that holds a number. -/
def wordOf (v : UInt32) : Nat := v.toNat / 64

/-- The word in which only the bit of a number is set. -/
def bitOf (v : UInt32) : UInt64 := 1 <<< UInt64.ofNat (v.toNat % 64)

/-- The empty set, with room for the numbers up to `largest`. -/
def ofLargest (largest : Nat) : BitSet := ⟨List.replicate ((largest + 64) / 64) 0⟩

/-- The empty set with room for the numbers up to `largest`. There is none if the row would have
less than no words, or more than a memory has. -/
def withRoom? (largest : Int) : Option BitSet :=
  if largest ≤ -128 || Int.pow 2 51 ≤ largest then none else some (ofLargest largest.toNat)

/-- The empty set. -/
def empty : BitSet := ⟨[]⟩

instance : EmptyCollection BitSet := ⟨empty⟩

/-- The same set in a row of at least `n` words. -/
def extend (s : BitSet) (n : Nat) : BitSet :=
  ⟨s.words ++ List.replicate (n - s.words.length) 0⟩

/-- Is `v` a member? -/
def contains (s : BitSet) (v : UInt32) : Bool :=
  match s.words[wordOf v]? with
  | some w => w &&& bitOf v != 0
  | none => false

/-- The set with `v`. -/
def insert (s : BitSet) (v : UInt32) : BitSet :=
  ⟨(s.extend (wordOf v + 1)).words.modify (wordOf v) (· ||| bitOf v)⟩

/-- The set without `v`. -/
def erase (s : BitSet) (v : UInt32) : BitSet :=
  ⟨s.words.modify (wordOf v) (· &&& ~~~bitOf v)⟩

/-- The members that are less than `v`. -/
def below (s : BitSet) (v : UInt32) : BitSet :=
  ⟨s.words.mapIdx fun i w =>
    if i < wordOf v then w else if i = wordOf v then w &&& (bitOf v - 1) else 0⟩

/-- The members of either set. -/
def union (s t : BitSet) : BitSet :=
  ⟨(s.extend t.words.length).words.zipWith (· ||| ·) (t.extend s.words.length).words⟩

instance : Union BitSet := ⟨union⟩

/-- Is every member of `s` one of `t`? -/
def subset (s t : BitSet) : Bool :=
  s.words.zipIdx.all fun (w, i) => w &&& ~~~(t.words.getD i 0) == 0

/-- The numbers whose bits are set in word `i`, in order. -/
def membersOfWord (w : UInt64) (i : Nat) : List UInt32 :=
  if w = 0 then []
  else ((List.range 64).map fun k => UInt32.ofNat (64 * i + k)).filter fun v => w &&& bitOf v != 0

/-- The members in order. -/
def toList (s : BitSet) : List UInt32 :=
  s.words.zipIdx.flatMap fun (w, i) => membersOfWord w i

end BitSet

end Resumable
