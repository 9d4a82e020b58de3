import FiniteAutomata.Error
import FiniteAutomata.Automaton.Placement

/-!
# The regular operations

Automata for one label, and for the union, the concatenation, the repetition and the reversal of
given automata. Every operation works on copies, so an operand may occur several times.

Repetition joins initial and final states by silent steps both ways. It is the Kleene star when no
step enters an initial state and none leaves a final state; otherwise it may accept more.
-/

namespace FiniteAutomata.Automaton

universe u

variable {L : Type u} [BEq L]

/-- Two states joined by one step, which is silent when there is no label. -/
def ofLabel (label : Option L) : Automaton L where
  initials := OrderedSet.ofList [0]
  transitions := OrderedSet.ofList [⟨0, label, 1⟩]
  finals := OrderedSet.ofList [1]
  frontier := none
  nextId := 2

/-- The automaton that accepts the one word made of `label`. -/
def atom (label : L) : Automaton L := ofLabel (some label)

/-- The automaton that accepts the empty word only. -/
def epsilon : Automaton L := ofLabel none

/-- Places a copy of `A` in `host` and lets matches begin and end there too. -/
def join (host A : Automaton L) : Automaton L :=
  let (host, ends) := A.place host
  { host with
    initials := host.initials.insertAll ends.initials.toList
    finals := host.finals.insertAll ends.finals.toList }

/-- Accepts what some operand accepts. No step is added, and no operand means no word. -/
def union (operands : List (Automaton L)) : Automaton L := operands.foldl join ∅

/-- Joins the final states of each part to the initial states of the next one. -/
def chain : List Ends → Automaton L → Automaton L
  | part :: next :: parts, host => chain (next :: parts) (host.fuse part.finals next.initials)
  | _, host => host

/-- Accepts the words that split, in order, into one word of each operand. -/
def concat (operands : List (Automaton L)) : Except Error (Automaton L) :=
  match placeAll operands ∅ with
  | (_, []) => .error .emptyConcatenation
  | (host, first :: parts) =>
    .ok (chain (first :: parts)
      { host with initials := first.initials, finals := (parts.getLastD first).finals })

/-- The concatenation of two automata. -/
def seq (A B : Automaton L) : Automaton L :=
  let (host, first) := A.place ∅
  let (host, second) := B.place host
  { host.fuse first.finals second.initials with
    initials := first.initials, finals := second.finals }

/-- The union of two automata. -/
def alt (A B : Automaton L) : Automaton L := union [A, B]

/-- Zero or more repetitions. -/
def star (A : Automaton L) : Automaton L :=
  let host := A.copy
  (host.fuse host.initials host.finals).fuse host.finals host.initials

/-- Accepts the reversed words: every step leads the other way. -/
def reverse (A : Automaton L) : Automaton L :=
  let host := A.copy
  { initials := host.finals
    transitions := host.transitions.map (·.reverse)
    finals := host.initials
    frontier := none
    nextId := host.nextId }

end FiniteAutomata.Automaton
