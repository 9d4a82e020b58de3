import FiniteAutomata.Automaton.Deterministic

/-!
# Built automata

The automata that an operation has returned, whatever automata it was applied to: operands may have
foreign ids, a match in progress, no initial states or no final ones.
-/

namespace FiniteAutomata.Automaton

universe u

variable {L : Type u} [BEq L]

/-- The result of a building operation. -/
inductive Built : Automaton L → Prop where
  | empty : Built ∅
  | ofLabel (label : Option L) : Built (ofLabel label)
  | union (operands : List (Automaton L)) : Built (union operands)
  | concat {operands : List (Automaton L)} {A : Automaton L} (h : concat operands = .ok A) : Built A
  | seq (A B : Automaton L) : Built (A.seq B)
  | alt (A B : Automaton L) : Built (A.alt B)
  | star (A : Automaton L) : Built A.star
  | reverse (A : Automaton L) : Built A.reverse
  | copy (A : Automaton L) : Built A.copy
  | determinize (A : Automaton L) : Built A.determinize
  | minimize (A : Automaton L) : Built A.minimize

end FiniteAutomata.Automaton
