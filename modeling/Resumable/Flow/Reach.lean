import Resumable.Flow.Graph

/-!
# Reachable blocks

Which blocks can be reached from others. A cut keeps a search from leaving some blocks by a normal
edge; it still follows their handlers.
-/

namespace Resumable

/-- A search in progress. -/
structure Search where
  seen : List Nat
  /-- Blocks that are seen and not left yet, the newest first. -/
  pending : List Nat
deriving DecidableEq, Repr

namespace Search

/-- Sees a block, which is pending if it was not seen before. -/
def see (s : Search) (b : Nat) : Search :=
  if b ∈ s.seen then s else ⟨b :: s.seen, b :: s.pending⟩

/-- The blocks that a block leads to, unless it is cut. -/
def next (g : Graph) (cut : Nat → Bool) (b : Nat) : Attempt (List Nat) := do
  let block ← Attempt.ofOption g.blocks[b]?
  return if cut b then block.excSuccs else block.succs ++ block.excSuccs

/-- Leaves pending blocks until none is left. Every block is pending once at most, besides the
roots, so a round for each is enough. -/
def settle (g : Graph) (cut : Nat → Bool) : (rounds : Nat) → Search → Attempt Search
  | 0, s => .ok s
  | rounds + 1, s =>
    match s.pending with
    | [] => .ok s
    | b :: pending => do
      let next ← next g cut b
      settle g cut rounds (next.foldl see { s with pending })

end Search

/-- The blocks that can be reached from `roots`, in order. -/
def Graph.reachable (g : Graph) (roots : List Nat) (cut : Nat → Bool) : Attempt (List Nat) := do
  if roots.any (g.blocks.length ≤ ·) then throw .outOfRange
  let s ← Search.settle g cut (roots.length + g.blocks.length) ⟨roots, roots.reverse⟩
  return (List.range g.blocks.length).filter (· ∈ s.seen)

end Resumable
