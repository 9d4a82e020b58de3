import FiniteAutomata.OrderedSet.Lemmas
import FiniteAutomata.Automaton.Transition

/-!
# Finite automata with silent steps

An automaton has initial states, transitions and final states. It may be nondeterministic, and it
may have no initial state, in which case it accepts nothing. There is no list of states beside these
three sets: a state belongs to the automaton when one of them mentions it.

While a match is in progress the automaton also holds its frontier, the states in which the match
may currently be. `nextId` is the first id that the automaton has not allocated.
-/

namespace FiniteAutomata

universe u

/-- A set of states, in order of arrival. -/
abbrev StateSet := OrderedSet StateId

/-- A finite automaton over labels of type `L`. -/
@[ext] structure Automaton (L : Type u) [BEq L] where
  initials : StateSet
  transitions : OrderedSet (Transition L)
  finals : StateSet
  /-- The states in which the match in progress may be, or `none` if none has begun. -/
  frontier : Option StateSet
  /-- The next id to allocate. -/
  nextId : StateId

namespace Automaton

variable {L : Type u} [BEq L]

instance : EmptyCollection (Automaton L) :=
  ⟨{ initials := ∅, transitions := ∅, finals := ∅, frontier := none, nextId := 0 }⟩

/-- The states of the automaton: the initial states, then the ends of each transition, source before
destination, then the final states. -/
def states (A : Automaton L) : StateSet :=
  (A.initials.insertAll (A.transitions.toList.flatMap fun t => [t.source, t.destination])).insertAll
    A.finals.toList

/-- The number of states. -/
def numStates (A : Automaton L) : Nat := A.states.size

/-- The labels that occur, each in the spelling in which it is first met. -/
def symbols (A : Automaton L) : OrderedSet L :=
  OrderedSet.ofList (A.transitions.toList.filterMap (·.label))

/-- The transitions that leave a state of `sources`. -/
def transitionsFrom (A : Automaton L) (sources : StateSet) : List (Transition L) :=
  A.transitions.toList.filter fun t => sources.contains t.source

/-- The transitions that enter a state of `destinations`. -/
def transitionsTo (A : Automaton L) (destinations : StateSet) : List (Transition L) :=
  A.transitions.toList.filter fun t => destinations.contains t.destination

/-- The states entered from `sources` by one step on `label`, where `none` asks for silent steps. -/
def destinations (A : Automaton L) (sources : StateSet) (label : Option L) : StateSet :=
  OrderedSet.ofList
    ((A.transitions.toList.filter fun t => sources.contains t.source && t.hasLabel label).map
      (·.destination))

/-- Adds a silent step from every state of `sources` to every state of `destinations`. A match in
progress is dropped, because its frontier need not be closed under the new steps. -/
def fuse (A : Automaton L) (sources destinations : StateSet) : Automaton L :=
  { A with
    transitions := A.transitions.insertAll
      (sources.toList.flatMap fun s => destinations.toList.map fun d => Transition.silent s d)
    frontier := none }

end Automaton

end FiniteAutomata
