import FiniteAutomata.Text.Plain

/-!
# Records

What an operation says about its own progress. Single steps are traced; the sizes before and after a
whole construction are there for debugging. Times are not kept: where a text has room for one, it
says `_`.
-/

namespace FiniteAutomata

/-- How much detail a record gives. -/
inductive Level where
  | trace
  | debug
deriving DecidableEq, Repr

/-- One thing that an operation reports. -/
inductive Record where
  /-- A symbol led from one frontier to another. -/
  | consumed (before after : StateSet)
  /-- The reachable states that come silently to `core`, with their closures. -/
  | reverseClosure (core result : StateSet)
  /-- A new state of a deterministic automaton, and the states it stands for in ascending order. -/
  | addedState (state : StateId) (members : List StateId)
  /-- Determinization is done: the number of states before, and of states and transitions after. -/
  | determinized (before states transitions : Nat)
  /-- Minimization is done: the number of states before and after. -/
  | minimized (before states : Nat)
deriving DecidableEq

namespace Record

/-- The level of detail at which the record is given. -/
def level : Record → Level
  | consumed .. | reverseClosure .. | addedState .. => .trace
  | determinized .. | minimized .. => .debug

/-- The record as a sentence. -/
def text : Record → String
  | consumed before after =>
    "Consumed symbol: frontier " ++ StateSet.structureText before ++ " -> " ++
      StateSet.structureText after
  | reverseClosure core result =>
    "Reverse epsilon closure of " ++ StateSet.structureText core ++ ": " ++
      StateSet.structureText result
  | addedState state members =>
    "Add state: " ++ state.text ++ ": " ++ structureTextOfIds members
  | determinized before states transitions =>
    "Determinized " ++ toString before ++ " states into " ++ toString states ++ " states with " ++
      toString transitions ++ " transitions in _ microseconds."
  | minimized before states =>
    "Minimized " ++ toString before ++ " states into " ++ toString states ++
      " states in _ microseconds."

end Record

end FiniteAutomata
