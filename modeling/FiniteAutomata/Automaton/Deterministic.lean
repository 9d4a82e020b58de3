import FiniteAutomata.Automaton.Matching
import FiniteAutomata.Automaton.Regular

/-!
# Deterministic automata

Determinization makes one state of every frontier that a match can come to, the empty one apart. A
frontier is kept as a block: its states in the order of the automaton's own state list, so that equal
sets are equal blocks. The blocks are found by breadth-first search from the initial frontier, with
the labels tried in the order of `symbols`, and the n-th block found becomes the state n.

Determinizing the reversal, reversing and determinizing again gives the smallest deterministic
automaton for the language.
-/

namespace FiniteAutomata.Automaton

universe u

variable {L : Type u} [BEq L]

/-- The states of `frontier`, in the order of the automaton's state list. -/
def block (A : Automaton L) (frontier : StateSet) : StateSet :=
  A.states.filter frontier.contains

/-- The block that `symbol` leads to, unless no state is left. -/
def target? (A : Automaton L) (sources : StateSet) (symbol : L) : Option StateSet :=
  let frontier := A.move sources symbol
  if frontier.isEmpty then none else some (A.block frontier)

/-- The blocks that one symbol leads to, in the order of the symbols. -/
def targets (A : Automaton L) (sources : StateSet) : List StateSet :=
  A.symbols.toList.filterMap (A.target? sources)

/-- The block of the frontier at which every match begins, unless it has no state. -/
def firstBlock (A : Automaton L) : OrderedSet StateSet :=
  (OrderedSet.ofList [A.block A.start]).filter (!·.isEmpty)

/-- The search for all blocks. There are at most as many as there are sets of states. -/
def blockSearch (A : Automaton L) : Search StateSet :=
  Search.explore A.targets (Nat.pow 2 A.numStates) A.firstBlock

/-- The blocks in the order in which they are found. -/
def blocks (A : Automaton L) : List StateSet := A.blockSearch.found.toList

/-- The state that stands for a block: its place among `blocks`. -/
def blockId (blocks : List StateSet) (block : StateSet) : StateId := ⟨blocks.idxOf block⟩

/-- The deterministic automaton whose states stand for the given blocks of `A`. -/
def ofBlocks (A : Automaton L) (blocks : List StateSet) : Automaton L where
  initials := OrderedSet.ofList ((blocks.take 1).map (blockId blocks))
  transitions := OrderedSet.ofList (blocks.flatMap fun sources =>
    A.symbols.toList.filterMap fun symbol =>
      (A.target? sources symbol).map fun target =>
        ⟨blockId blocks sources, some symbol, blockId blocks target⟩)
  finals := OrderedSet.ofList ((blocks.filter (·.meets A.finals)).map (blockId blocks))
  frontier := none
  nextId := ⟨blocks.length⟩

/-- A deterministic automaton that accepts the same words. -/
def determinize (A : Automaton L) : Automaton L := A.ofBlocks A.blocks

/-- The smallest deterministic automaton that accepts the same words. -/
def minimize (A : Automaton L) : Automaton L := A.reverse.determinize.reverse.determinize

/-- Whether the steps of a list are labelled and no two of them, nor one of them and one of `seen`,
leave the same state on equal labels. -/
def unambiguous (seen : List (Transition L)) : List (Transition L) → Bool
  | [] => true
  | t :: rest =>
    !t.isSilent && !(seen.any fun u => u.source == t.source && u.label == t.label) &&
      unambiguous (t :: seen) rest

/-- Whether a match can never be in two states: at most one initial state, no silent step, and at
most one step per state and label. -/
def isDeterministic (A : Automaton L) : Bool :=
  decide (A.initials.size ≤ 1) && unambiguous [] A.transitions.toList

end FiniteAutomata.Automaton
