import FiniteAutomata.Text.Plain

/-!
# The printer of digraphs

A digraph is told to a printer statement by statement. What is told of an automaton is the drawing's
affair; how the printer writes it down is assumed, and all of the assumption stands in this module:
the spelling of each attribute, two blanks before a statement and a semicolon behind it, one
statement to a line between the opening and the closing line. A name and a label are copied as they
are. The printer escapes nothing, so whoever tells it a label with a quote mark has to escape it
first.

Only the attributes that a drawing uses are listed.
-/

namespace FiniteAutomata.Printer

inductive Color where
  | blue
  | red
deriving DecidableEq, Repr

inductive Attribute where
  | label (text : String)
  | leftToRight
  | circle
  | color (c : Color)
  | penWidth (width : Nat)
deriving DecidableEq, Repr

/-- An attribute of the digraph itself, a node, or an edge between two nodes. -/
inductive Statement where
  | digraph (a : Attribute)
  | node (name : String) (attributes : List Attribute)
  | edge (source destination : String) (attributes : List Attribute)
deriving DecidableEq, Repr

/-! ### The layout -/

def Color.spelling : Color → String
  | .blue => "blue"
  | .red => "red"

/-- A value between double quotes, written as it is. -/
def quoted (value : String) : String := "\"" ++ value ++ "\""

def Attribute.spelling : Attribute → String
  | .label text => "label=" ++ quoted text
  | .leftToRight => "rankdir=LR"
  | .circle => "shape=circle"
  | .color c => "color=" ++ c.spelling
  | .penWidth width => "penwidth=" ++ toString width

/-- The attributes of a node or an edge, of which there is at least one. -/
def bracketed (attributes : List Attribute) : String :=
  " [" ++ ", ".intercalate (attributes.map Attribute.spelling) ++ "]"

def Statement.spelling : Statement → String
  | .digraph a => a.spelling
  | .node name attributes => name ++ bracketed attributes
  | .edge source destination attributes => source ++ " -> " ++ destination ++ bracketed attributes

def line (s : Statement) : String := "  " ++ s.spelling ++ ";"

/-- The lines of a digraph with these statements. -/
def lines (statements : List Statement) : List String :=
  ["digraph \x7b"] ++ statements.map line ++ ["\x7d"]

/-- The digraph as one text. -/
def text (statements : List Statement) : String := unlines (lines statements)

end FiniteAutomata.Printer
