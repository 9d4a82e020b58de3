import FiniteAutomata.Automaton.Basic

/-!
# Placing a copy of one automaton inside another

Automata are combined by placing copies of the operands side by side in one host. A copy gets fresh
ids: the states of the operand, in the order of its state list, become the next ids of the host. The
operand may therefore be placed several times, or be the host's own ancestor, without its states
being shared.

The host's initial and final states stay as they are. What the ends of the copy are for is up to the
operation that placed it.
-/

namespace FiniteAutomata

universe u

/-- The initial and the final states of a copy, by their ids in the host. -/
structure Ends where
  initials : StateSet
  finals : StateSet

namespace Automaton

variable {L : Type u} [BEq L]

/-- The new id of a state when the states of `order` are numbered upwards from `first`. -/
def renumber (order : StateSet) (first s : StateId) : StateId := first + order.toList.idxOf s

/-- Places a copy of `A` in `host`. -/
def place (A host : Automaton L) : Automaton L × Ends :=
  let order := A.states
  let rename := renumber order host.nextId
  ({ host with
      transitions := host.transitions.insertAll (A.transitions.toList.map (·.mapStates rename))
      nextId := host.nextId + order.size },
    { initials := A.initials.map rename, finals := A.finals.map rename })

/-- Places a copy of each operand in turn. -/
def placeAll : List (Automaton L) → Automaton L → Automaton L × List Ends
  | [], host => (host, [])
  | A :: operands, host =>
    let (host, ends) := A.place host
    let (host, parts) := placeAll operands host
    (host, ends :: parts)

/-- The automaton with its states renumbered from zero and no match in progress. -/
def copy (A : Automaton L) : Automaton L :=
  let (host, ends) := A.place ∅
  { host with initials := ends.initials, finals := ends.finals }

end Automaton

end FiniteAutomata
