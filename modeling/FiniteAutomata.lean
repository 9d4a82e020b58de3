import FiniteAutomata.Automaton.Action
import FiniteAutomata.Automaton.Built
import FiniteAutomata.Automaton.Isomorphism
import FiniteAutomata.Automaton.Path
import FiniteAutomata.Expr.Language
import FiniteAutomata.Expr.Proper
import FiniteAutomata.Proofs.Composition
import FiniteAutomata.Proofs.Expression
import FiniteAutomata.Proofs.Guarded
import FiniteAutomata.Proofs.History
import FiniteAutomata.Proofs.Invariance
import FiniteAutomata.Proofs.Joining
import FiniteAutomata.Proofs.Minimization
import FiniteAutomata.Proofs.Numbering
import FiniteAutomata.Proofs.Repetition
import FiniteAutomata.Proofs.SubsetStates
import FiniteAutomata.Search.Lemmas
import FiniteAutomata.Session.Run
import FiniteAutomata.Expr.Admissible
import FiniteAutomata.Proofs.Containment
import FiniteAutomata.Proofs.Union
import FiniteAutomata.Proofs.Layers
import FiniteAutomata.Proofs.SubsetCount
import FiniteAutomata.Proofs.Emptiness
import FiniteAutomata.Proofs.Redeterminization
import FiniteAutomata.Proofs.Traversal
import FiniteAutomata.Proofs.Copies
import FiniteAutomata.Proofs.Fusion
import FiniteAutomata.Proofs.RepetitionTwice
import FiniteAutomata.Proofs.ReverseClosure
import FiniteAutomata.Proofs.Determinism
import FiniteAutomata.Proofs.Drawing
import FiniteAutomata.Proofs.Escapes
import FiniteAutomata.Proofs.SilentClosure
import FiniteAutomata.Proofs.Allocation
