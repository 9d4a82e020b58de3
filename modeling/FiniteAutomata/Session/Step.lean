import FiniteAutomata.Expr.Basic

/-!
# Steps of a session

A session keeps automata in named registers and works on them step by step. A step builds an
automaton, acts on one, or asks about one. What it answers is a value, not a text.
-/

namespace FiniteAutomata.Session

/-- A set of states, listed or taken from a register. -/
inductive SetRef where
  /-- These states, which need not belong to any automaton. -/
  | ids (states : List StateId)
  | initials (register : String)
  | finals (register : String)
  | states (register : String)
  /-- The frontier of a register, empty when no match is in progress. -/
  | frontier (register : String)
deriving DecidableEq, Repr

/-- A question that changes nothing. -/
inductive Query (L : Type) where
  | value
  | states
  | numStates
  | symbols
  | transitionsFrom (sources : SetRef)
  | transitionsTo (destinations : SetRef)
  /-- Where a label, or a silent step, leads from a set. -/
  | destinations (sources : SetRef) (label : Option L)
  | silentClosure (core : SetRef)
  | reverseClosure (core : SetRef)
  /-- The reachable states with what is to be seen at each. -/
  | traverse
  | isEmpty
  | isDeterministic
  | text
  | structureText
  | graphviz (title : String)

/-- One step of a session. -/
inductive Step (L : Type) where
  | build (target : String) (expr : Expr String L)
  | fuse (register : String) (sources destinations : SetRef)
  | reset (register : String)
  | consume (register : String) (symbol : L)
  | isAccepting (register : String)
  /-- Asks whether a word is accepted, in a match of its own. -/
  | accepts (register : String) (word : List L)
  /-- Reads a word in the match in progress and asks after every symbol. -/
  | read (register : String) (word : List L)
  /-- Asks about all words over an alphabet, up to a length. -/
  | survey (register : String) (alphabet : List L) (maxLength : Nat)
  | ask (register : String) (query : Query L)

/-- Whether the symbols read are accepted, and where the match stands. -/
structure Verdict where
  accepting : Bool
  frontier : StateSet
deriving DecidableEq

/-- What is seen on a visit to a state. -/
structure Visit where
  state : StateId
  /-- How many transitions leave it. -/
  leaving : Nat
  final : Bool
deriving DecidableEq, Repr

/-- What a step answers. -/
inductive Answer (L : Type) [BEq L] where
  | automaton (A : Automaton L)
  | states (states : StateSet)
  | verdict (verdict : Verdict)
  | verdicts (verdicts : List Verdict)
  /-- For every length, which of the words of that length are accepted. -/
  | survey (rows : List (List Bool))
  | count (n : Nat)
  | labels (labels : List L)
  | transitions (transitions : List (Transition L))
  /-- How many states were visited, and what was seen there. -/
  | tour (count : Nat) (visits : List Visit)
  | truth (value : Bool)
  | text (text : String)

end FiniteAutomata.Session
