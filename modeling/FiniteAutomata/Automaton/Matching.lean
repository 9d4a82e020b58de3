import FiniteAutomata.Automaton.Reach

/-!
# Matching a word, symbol by symbol

A match holds the set of states in which the automaton may be after the symbols read so far, closed
under silent steps. It begins at the silent closure of the initial states, and each symbol moves it
along the steps with that label. No deterministic automaton is built.
-/

namespace FiniteAutomata.Automaton

universe u

variable {L : Type u} [BEq L]

/-- The frontier at which every match begins. -/
def start (A : Automaton L) : StateSet := A.silentClosure A.initials

/-- The frontier that `symbol` leads to from `sources`. -/
def move (A : Automaton L) (sources : StateSet) (symbol : L) : StateSet :=
  A.silentClosure (A.destinations sources (some symbol))

/-- The frontier of the match in progress, or the one at which a match would begin. -/
def current (A : Automaton L) : StateSet := A.frontier.getD A.start

/-- Begins a new match, whatever match was in progress. -/
def reset (A : Automaton L) : Automaton L := { A with frontier := some A.start }

/-- Begins a match unless one is in progress. -/
def started (A : Automaton L) : Automaton L := { A with frontier := some A.current }

/-- Reads one symbol, beginning a match if none is in progress. -/
def consume (A : Automaton L) (symbol : L) : Automaton L :=
  { A with frontier := some (A.move A.current symbol) }

/-- Reads a word in the match in progress. -/
def feed (A : Automaton L) (word : List L) : Automaton L := word.foldl consume A

/-- Whether the symbols read so far form an accepted word. -/
def isAccepting (A : Automaton L) : Bool := (A.silentClosure A.current).meets A.finals

/-- Whether the automaton accepts `word`, in a match of its own. -/
def accepts (A : Automaton L) (word : List L) : Bool := (A.reset.feed word).isAccepting

end FiniteAutomata.Automaton
