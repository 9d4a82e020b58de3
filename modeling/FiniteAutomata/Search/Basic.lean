import FiniteAutomata.OrderedSet.Lemmas

/-!
# Breadth-first search

A search keeps one ordered set, the nodes found so far, and counts how many of them it has expanded.
The nodes that wait are the rest of the set, so the set is its own queue: expanding a node appends
the successors that are new, and nodes are expanded in the order in which they were found.

The bound on the number of expansions only makes the definition structural. A caller gives one that
its graph cannot exceed.
-/

namespace FiniteAutomata

universe u

/-- A search in progress. -/
structure Search (α : Type u) [BEq α] where
  found : OrderedSet α
  /-- How many of them have been expanded, counted from the first. -/
  expanded : Nat

namespace Search

variable {α : Type u} [BEq α]

/-- The nodes found but not yet expanded, the next one first. -/
def waiting (s : Search α) : List α := s.found.toList.drop s.expanded

/-- Expands one node: its successors join the nodes found. -/
def expand (next : α → List α) (s : Search α) (a : α) : Search α where
  found := s.found.insertAll (next a)
  expanded := s.expanded + 1

/-- Expands waiting nodes until none is left, but at most `bound` of them. -/
def run (next : α → List α) : Nat → Search α → Search α
  | 0, s => s
  | bound + 1, s =>
    match s.waiting with
    | [] => s
    | a :: _ => run next bound (s.expand next a)

/-- The search from the nodes of `start`. -/
def explore (next : α → List α) (bound : Nat) (start : OrderedSet α) : Search α :=
  run next bound { found := start, expanded := 0 }

end Search

end FiniteAutomata
