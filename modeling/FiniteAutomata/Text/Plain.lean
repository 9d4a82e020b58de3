import FiniteAutomata.Text.Structure

/-!
# Plain texts

The texts of states, transitions and automata as people read them. A silent step is marked by the
letter ε, which a label may spell too.
-/

namespace FiniteAutomata

universe u

/-- The mark of a silent step. -/
def silentMark : String := "ε"

/-- The number of a state. -/
def StateId.text (s : StateId) : String := toString s.val

/-- A transition as an arrow with its label. -/
def Transition.text {L : Type u} [Label L] (t : Transition L) : String :=
  t.source.text ++ " -" ++ (t.label.map Label.text).getD silentMark ++ "-> " ++ t.destination.text

/-- The lines that describe an automaton, its transitions one to a line. -/
def Automaton.lines {L : Type u} [BEq L] [Label L] (A : Automaton L) : List String :=
  ["Automaton",
   "Initial states: " ++ StateSet.structureText A.initials,
   "Final states: " ++ StateSet.structureText A.finals,
   "Transitions:"] ++ A.transitions.toList.map Transition.text

/-- Lines put together, each with its line end. -/
def unlines (lines : List String) : String := String.join (lines.map (· ++ "\n"))

/-- The text of an automaton. -/
def Automaton.text {L : Type u} [BEq L] [Label L] (A : Automaton L) : String := unlines A.lines

end FiniteAutomata
