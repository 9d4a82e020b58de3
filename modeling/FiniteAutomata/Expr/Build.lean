import FiniteAutomata.Expr.Basic
import FiniteAutomata.Report.Operations

/-!
# Building what an expression says

Operands are built from left to right before the operation is applied, and the first failure is the
failure of the whole. An expression fails where it names an automaton that is not there, or where it
concatenates nothing.
-/

namespace FiniteAutomata

/-- Why there is no automaton for an expression. -/
inductive Fault (V : Type) where
  | unbound (name : V)
  /-- An operation refused its operands. -/
  | refused (error : Error)
deriving DecidableEq, Repr

namespace Expr

variable {V L : Type} [BEq L]

mutual

/-- Builds the automaton of an expression, where `given` looks up the named ones. -/
def build (given : V → Option (Automaton L)) : Expr V L → Reported (Fault V) (Automaton L)
  | var name =>
    match given name with
    | some A => pure A
    | .none => .fail (.unbound name)
  | .none => pure ∅
  | epsilon => pure .epsilon
  | atom label => pure (.atom label)
  | union operands => do
    let automata ← buildAll given operands
    pure (.union automata)
  | concat operands => do
    let automata ← buildAll given operands
    match Automaton.concat automata with
    | .ok A => pure A
    | .error e => .fail (.refused e)
  | seq first second => do
    let A ← build given first
    let B ← build given second
    pure (A.seq B)
  | alt first second => do
    let A ← build given first
    let B ← build given second
    pure (A.alt B)
  | star operand => do
    let A ← build given operand
    pure A.star
  | reverse operand => do
    let A ← build given operand
    pure A.reverse
  | copy operand => do
    let A ← build given operand
    pure A.copy
  | determinize operand => do
    let A ← build given operand
    A.determinizeReported
  | minimize operand => do
    let A ← build given operand
    A.minimizeReported

/-- Builds the automata of a list of expressions, left to right. -/
def buildAll (given : V → Option (Automaton L)) :
    List (Expr V L) → Reported (Fault V) (List (Automaton L))
  | [] => pure []
  | operand :: operands => do
    let A ← build given operand
    let automata ← buildAll given operands
    pure (A :: automata)

end

/-! ### Results -/

variable {given : V → Option (Automaton L)} {e first second : Expr V L}
  {operands : List (Expr V L)} {A B C : Automaton L} {automata : List (Automaton L)}

theorem result_buildAll_cons (hA : (e.build given).result = .ok A)
    (hall : (buildAll given operands).result = .ok automata) :
    (buildAll given (e :: operands)).result = .ok (A :: automata) := by
  rw [buildAll, Reported.result_bind_of_ok hA, Reported.result_bind_of_ok hall]
  rfl

theorem result_build_union (hall : (buildAll given operands).result = .ok automata) :
    ((union operands).build given).result = .ok (.union automata) :=
  Reported.result_bind_of_ok hall _

theorem result_build_concat (hall : (buildAll given operands).result = .ok automata)
    (hC : Automaton.concat automata = .ok C) :
    ((concat operands).build given).result = .ok C := by
  rw [build, Reported.result_bind_of_ok hall, hC]
  rfl

theorem result_build_seq (hA : (first.build given).result = .ok A)
    (hB : (second.build given).result = .ok B) :
    ((seq first second).build given).result = .ok (A.seq B) :=
  (Reported.result_bind_of_ok hA _).trans (Reported.result_bind_of_ok hB _)

theorem result_build_alt (hA : (first.build given).result = .ok A)
    (hB : (second.build given).result = .ok B) :
    ((alt first second).build given).result = .ok (A.alt B) :=
  (Reported.result_bind_of_ok hA _).trans (Reported.result_bind_of_ok hB _)

section Operand

variable (hA : (e.build given).result = .ok A)

include hA

theorem result_build_star : ((star e).build given).result = .ok A.star :=
  Reported.result_bind_of_ok hA _

theorem result_build_reverse : ((reverse e).build given).result = .ok A.reverse :=
  Reported.result_bind_of_ok hA _

theorem result_build_copy : ((copy e).build given).result = .ok A.copy :=
  Reported.result_bind_of_ok hA _

theorem result_build_determinize : ((determinize e).build given).result = .ok A.determinize :=
  (Reported.result_bind_of_ok hA _).trans A.result_determinizeReported

theorem result_build_minimize : ((minimize e).build given).result = .ok A.minimize :=
  (Reported.result_bind_of_ok hA _).trans A.result_minimizeReported

end Operand

end Expr

end FiniteAutomata
