import FiniteAutomata.Graphviz.Printer

/-!
# Graphviz

An automaton as a Graphviz digraph, told to the printer: the title and the direction, a node for
every state, an edge for every transition. Initial states are blue circles and final states red
ones; of a state that is both, the red attributes come last. The text of a label is escaped, so that
no label can end its quotes or its line. The title is told as it is.

What is said, in which words and in which order, is decided here. How it looks on its lines is not:
that is `Printer.lines`.
-/

namespace FiniteAutomata.Automaton

universe u

variable {L : Type u} [BEq L] [Label L]

/-- The name of the node of a state. -/
def nodeName (s : StateId) : String := "node_" ++ s.text

/-- The attributes of a circle with a thick line. -/
def circle (color : Printer.Color) : List Printer.Attribute := [.circle, .color color, .penWidth 3]

/-- The statement for a state. -/
def nodeStatement (A : Automaton L) (s : StateId) : Printer.Statement :=
  .node (nodeName s)
    ([.label s.text] ++
      (if A.initials.contains s then circle .blue else []) ++
      (if A.finals.contains s then circle .red else []))

/-- What an edge says of its transition: the mark of a silent step, or the label escaped. -/
def edgeText : Option L → String
  | none => silentMark
  | some label => String.ofList (Escape.ascii (Label.text label).toList)

/-- The statement for a transition. -/
def edgeStatement (t : Transition L) : Printer.Statement :=
  .edge (nodeName t.source) (nodeName t.destination) [.label (edgeText t.label)]

/-- All that the printer is told, first to last. -/
def drawing (A : Automaton L) (title : String) : List Printer.Statement :=
  [.digraph (.label title), .digraph .leftToRight] ++ A.states.toList.map A.nodeStatement ++
    A.transitions.toList.map edgeStatement

/-- The line for a state. -/
def nodeLine (A : Automaton L) (s : StateId) : String := Printer.line (A.nodeStatement s)

/-- The line for a transition. -/
def edgeLine (t : Transition L) : String := Printer.line (edgeStatement t)

/-- The lines of the digraph. -/
def graphvizLines (A : Automaton L) (title : String) : List String :=
  Printer.lines (A.drawing title)

/-- The digraph as one text. -/
def graphviz (A : Automaton L) (title : String) : String := Printer.text (A.drawing title)

end FiniteAutomata.Automaton
