import FiniteAutomata.Automaton.Matching

/-!
# Histories of a match

The operations that change an automaton in place, as data, so that a history of them is a list. What
a history says about the match in progress is told without any frontier: the word read since the
match began, if one is in progress.
-/

namespace FiniteAutomata

universe u

/-- An operation that changes an automaton in place. -/
inductive Action (L : Type u) where
  | reset
  | consume (symbol : L)
  | isAccepting
  /-- Begin a new match, read a word and ask whether it is accepted. -/
  | accepts (word : List L)
  | fuse (sources destinations : StateSet)
  | clone

namespace Action

variable {L : Type u}

/-- The word read since the match began, after an action. Joining states ends the match. -/
def spelled (word : Option (List L)) : Action L → Option (List L)
  | reset => some []
  | consume symbol => some (word.getD [] ++ [symbol])
  | isAccepting => some (word.getD [])
  | accepts word => some word
  | fuse .. => none
  | clone => word

variable [BEq L]

/-- The automaton after an action. -/
def apply (A : Automaton L) : Action L → Automaton L
  | reset => A.reset
  | consume symbol => A.consume symbol
  | isAccepting => A.started
  | accepts word => A.reset.feed word
  | fuse sources destinations => A.fuse sources destinations
  | clone => A

/-- What an action answers, if it asks. -/
def answer? (A : Automaton L) : Action L → Option Bool
  | isAccepting => some A.isAccepting
  | accepts word => some (A.accepts word)
  | _ => none

end Action

end FiniteAutomata
