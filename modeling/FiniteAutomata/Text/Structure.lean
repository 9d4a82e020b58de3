import FiniteAutomata.Error
import FiniteAutomata.Label
import FiniteAutomata.Automaton.Basic

/-!
# Structure texts

The text of a value that shows how it is built: the name of its type, then its parts. Sets are
written between braces, in their order.
-/

namespace FiniteAutomata

universe u

/-- Items between braces. -/
def braced (items : List String) : String := "\x7b" ++ ", ".intercalate items ++ "\x7d"

/-- Named parts between braces, after the name of the whole. -/
def recordText (name : String) (parts : List (String × String)) : String :=
  name ++ " \x7b " ++ ", ".intercalate (parts.map fun (part, value) => part ++ ": " ++ value) ++ " \x7d"

/-- An optional value, given the text of what it may hold. -/
def optional : Option String → String
  | none => "None"
  | some text => "Some(" ++ text ++ ")"

/-- A state id with the name of its type. -/
def StateId.structureText (s : StateId) : String := "StateID(" ++ toString s.val ++ ")"

/-- State ids between braces. -/
def structureTextOfIds (ids : List StateId) : String := braced (ids.map StateId.structureText)

/-- The states of a set between braces. -/
def StateSet.structureText (s : StateSet) : String := structureTextOfIds s.toList

/-- A transition with all its parts. -/
def Transition.structureText {L : Type u} [Label L] (t : Transition L) : String :=
  recordText "Transition"
    [("source", t.source.structureText),
     ("label", optional (t.label.map Label.literal)),
     ("destination", t.destination.structureText)]

/-- An automaton with all its parts. -/
def Automaton.structureText {L : Type u} [BEq L] [Label L] (A : Automaton L) : String :=
  recordText "Automaton"
    [("initials", StateSet.structureText A.initials),
     ("transitions", braced (A.transitions.toList.map Transition.structureText)),
     ("finals", StateSet.structureText A.finals),
     ("head", optional (A.frontier.map StateSet.structureText)),
     ("next_state", A.nextId.structureText)]

/-- The cause of an error, with its reason as a literal. -/
def Error.causeText : Error → String
  | .invalidArgument reason => "InvalidArgument(" ++ Label.literal reason ++ ")"

/-- An error with its cause. -/
def Error.structureText (e : Error) : String := recordText "FsaError" [("source", e.causeText)]

end FiniteAutomata
