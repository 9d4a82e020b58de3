import FiniteAutomata.Expr.Build
import FiniteAutomata.Graphviz
import FiniteAutomata.Session.Step
import Std.Data.HashMap

/-!
# Running a session

A step reads registers, answers, and may change one register. A step that fails changes none, and
what it reported before it failed stays reported.
-/

namespace FiniteAutomata.Session

variable {L : Type} [BEq L]

/-- The automata of a session by name. -/
abbrev Registers (L : Type) [BEq L] := Std.HashMap String (Automaton L)

/-- A computation within a session: it fails where a register is not set or an operation refuses. -/
abbrev SessionM (α : Type) := Reported (Fault String) α

/-- The automaton in a register. -/
def fetch (registers : Registers L) (register : String) : SessionM (Automaton L) :=
  match registers[register]? with
  | some A => pure A
  | none => .fail (.unbound register)

/-- The states a reference stands for, in order and without repetition. -/
def SetRef.resolve (registers : Registers L) : SetRef → SessionM StateSet
  | .ids l => pure (OrderedSet.ofList l)
  | .initials register => (·.initials) <$> fetch registers register
  | .finals register => (·.finals) <$> fetch registers register
  | .states register => (·.states) <$> fetch registers register
  | .frontier register => (fun A => A.frontier.getD ∅) <$> fetch registers register

/-- All words of one length, in the order of the alphabet, the first symbol most significant. -/
def words (alphabet : List L) : Nat → List (List L)
  | 0 => [[]]
  | length + 1 =>
    let shorter := words alphabet length
    alphabet.flatMap fun symbol => shorter.map (symbol :: ·)

/-- Whether the symbols read are accepted, and where the match stands. -/
def verdict (A : Automaton L) : Verdict := ⟨A.isAccepting, A.current⟩

/-- Asks about each word in turn. The match of the last word stays in progress. -/
def surveyWords (A : Automaton L) : List (List L) → SessionM (Automaton L × List Bool)
  | [] => pure (A, [])
  | word :: rest => do
    let A ← A.reset.feedReported word
    let (B, answers) ← surveyWords A rest
    pure (B, A.isAccepting :: answers)

/-- Asks about the words of every length in turn. -/
def surveyLengths (alphabet : List L) (A : Automaton L) :
    List Nat → SessionM (Automaton L × List (List Bool))
  | [] => pure (A, [])
  | length :: rest => do
    let (A, row) ← surveyWords A (words alphabet length)
    let (A, rows) ← surveyLengths alphabet A rest
    pure (A, row :: rows)

/-- Reads a word in the match in progress and asks after every symbol. -/
def readWord (A : Automaton L) : List L → SessionM (Automaton L × List Verdict)
  | [] => pure (A, [])
  | symbol :: word => do
    let A ← A.feedReported [symbol]
    let (B, verdicts) ← readWord A word
    pure (B, verdict A :: verdicts)

/-- The answer to a question about `A`. -/
def Query.answer [Label L] (registers : Registers L) (A : Automaton L) :
    Query L → SessionM (Answer L)
  | .value => pure (.automaton A)
  | .states => pure (.states A.states)
  | .numStates => pure (.count A.numStates)
  | .symbols => pure (.labels A.symbols.toList)
  | .transitionsFrom ref => do
    let sources ← ref.resolve registers
    pure (.transitions (A.transitionsFrom sources))
  | .transitionsTo ref => do
    let targets ← ref.resolve registers
    pure (.transitions (A.transitionsTo targets))
  | .destinations ref label => do
    let sources ← ref.resolve registers
    pure (.states (A.destinations sources label))
  | .silentClosure ref => do
    let core ← ref.resolve registers
    pure (.states (A.silentClosure core))
  | .reverseClosure ref => do
    let core ← ref.resolve registers
    let result ← A.reverseClosureReported core
    pure (.states result)
  | .traverse =>
    let visit (visits : List Visit) (s : StateId) (A : Automaton L) : List Visit :=
      visits ++ [⟨s, (A.transitionsFrom (OrderedSet.ofList [s])).length, A.finals.contains s⟩]
    pure (.tour (A.traverse (fun n _ _ => n + 1) 0) (A.traverse visit []))
  | .isEmpty => pure (.truth A.isEmpty)
  | .isDeterministic => pure (.truth A.isDeterministic)
  | .text => pure (.text A.text)
  | .structureText => pure (.text A.structureText)
  | .graphviz title => pure (.text (A.graphviz title))

/-- What a step leaves in which register, and what it answers. -/
def Step.effect [Label L] (registers : Registers L) :
    Step L → SessionM (Option (String × Automaton L) × Answer L)
  | .build target expr => do
    let A ← expr.build (registers[·]?)
    pure (some (target, A), .automaton A)
  | .fuse register sources destinations => do
    let sources ← sources.resolve registers
    let targets ← destinations.resolve registers
    let A ← fetch registers register
    let A := A.fuse sources targets
    pure (some (register, A), .automaton A)
  | .reset register => do
    let A ← fetch registers register
    let A := A.reset
    pure (some (register, A), .states A.current)
  | .consume register symbol => do
    let A ← fetch registers register
    let A ← A.feedReported [symbol]
    pure (some (register, A), .states A.current)
  | .isAccepting register => do
    let A ← fetch registers register
    let A := A.started
    pure (some (register, A), .verdict (verdict A))
  | .accepts register word => do
    let A ← fetch registers register
    let A ← A.reset.feedReported word
    pure (some (register, A), .verdict (verdict A))
  | .read register word => do
    let A ← fetch registers register
    let (A, verdicts) ← readWord A word
    pure (some (register, A), .verdicts verdicts)
  | .survey register alphabet maxLength => do
    let A ← fetch registers register
    let (A, rows) ← surveyLengths alphabet A (List.range (maxLength + 1))
    pure (some (register, A), .survey rows)
  | .ask register query => do
    let A ← fetch registers register
    let answer ← query.answer registers A
    pure (none, answer)

/-- One step of a session: what it answers and reports, and the registers afterwards. -/
def next [Label L] (registers : Registers L) (step : Step L) :
    SessionM (Answer L) × Registers L :=
  let outcome := step.effect registers
  let registers :=
    match outcome.result with
    | .ok (some (register, A), _) => registers.insert register A
    | _ => registers
  (Prod.snd <$> outcome, registers)

end FiniteAutomata.Session
