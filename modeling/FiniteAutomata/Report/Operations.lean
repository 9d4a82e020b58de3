import FiniteAutomata.Automaton.Deterministic
import FiniteAutomata.Report.Reported

/-!
# What the operations report

Each operation here has the same result as the one it is named for, and says what it does on the
way. A match reports every symbol it reads; a determinization reports every state it adds to the
initial one; the longer constructions report their sizes at the end.
-/

namespace FiniteAutomata.Automaton

variable {L : Type} [BEq L] {ε : Type}

/-- The frontiers that the symbols of a word lead through. -/
def feedRecords (A : Automaton L) : List L → List Record
  | [] => []
  | symbol :: word =>
    let next := A.consume symbol
    .consumed A.current next.current :: next.feedRecords word

/-- Reading a word with its report. -/
def feedReported (A : Automaton L) (word : List L) : Reported ε (Automaton L) :=
  ⟨.ok (A.feed word), A.feedRecords word⟩

/-- The reverse closure with its report. -/
def reverseClosureReported (A : Automaton L) (core : StateSet) : Reported ε StateSet :=
  let result := A.reverseClosure core
  ⟨.ok result, [.reverseClosure core result]⟩

/-- Determinization with its report. -/
def determinizeReported (A : Automaton L) : Reported ε (Automaton L) :=
  let blocks := A.blocks
  let D := A.ofBlocks blocks
  ⟨.ok D,
    (blocks.drop 1).map (fun block => .addedState (blockId blocks block) (StateId.sort block.toList)) ++
      [.determinized A.numStates blocks.length D.transitions.size]⟩

/-- Minimization with its report, which includes those of its two determinizations. -/
def minimizeReported (A : Automaton L) : Reported ε (Automaton L) := do
  let R ← A.reverse.determinizeReported
  let M ← R.reverse.determinizeReported
  .note (.minimized A.numStates M.numStates)
  pure M

@[simp] theorem result_determinizeReported (A : Automaton L) :
    (A.determinizeReported : Reported ε (Automaton L)).result = .ok A.determinize := rfl

@[simp] theorem result_minimizeReported (A : Automaton L) :
    (A.minimizeReported : Reported ε (Automaton L)).result = .ok A.minimize := rfl

end FiniteAutomata.Automaton
