import FiniteAutomata.Automaton.Basic
import FiniteAutomata.Search.Basic

/-!
# Reachability

Three questions are answered by breadth-first search: which states silent steps reach, which states
any steps reach from the initial ones, and which reachable states can silently come to a given set.
Each search finds a state at most once, and beyond its start finds only destinations of transitions,
so the number of states at the start plus the number of transitions bounds its expansions.
-/

namespace FiniteAutomata.Automaton

universe u v

variable {L : Type u} [BEq L]

/-- Where the steps from `s` that satisfy `p` lead, in the order of the transitions. -/
def successors (A : Automaton L) (p : Transition L → Bool) (s : StateId) : List StateId :=
  (A.transitions.toList.filter fun t => t.source == s && p t).map (·.destination)

/-- The search from `start` along the steps that satisfy `p`. -/
def search (A : Automaton L) (p : Transition L → Bool) (start : StateSet) : Search StateId :=
  Search.explore (A.successors p) (start.size + A.transitions.size) start

/-- The states that silent steps reach from `core`, those of `core` first. -/
def silentClosure (A : Automaton L) (core : StateSet) : StateSet :=
  (A.search Transition.isSilent core).found

/-- The states that any steps reach from the initial states, nearest first. -/
def reachable (A : Automaton L) : StateSet :=
  (A.search (fun _ => true) A.initials).found

/-- The silent closures of those reachable states whose silent closure meets `core`, put together. -/
def reverseClosure (A : Automaton L) (core : StateSet) : StateSet :=
  OrderedSet.ofList
    (((A.reachable.toList.map fun s => A.silentClosure (OrderedSet.ofList [s])).filter
      (·.meets core)).flatMap (·.toList))

/-- Visits every reachable state once, nearest first, and carries a result along. -/
def traverse {σ : Type v} (A : Automaton L) (visit : σ → StateId → Automaton L → σ) (start : σ) : σ :=
  A.reachable.toList.foldl (fun result s => visit result s A) start

/-- Whether the automaton accepts no word at all: no final state can be reached. -/
def isEmpty (A : Automaton L) : Bool := !A.reachable.meets A.finals

end FiniteAutomata.Automaton
