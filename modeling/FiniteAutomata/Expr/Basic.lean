import FiniteAutomata.Automaton.Basic

/-!
# Automaton expressions

A tree says how an automaton is to be built: from given automata, from the smallest ones, and by the
regular operations, reversal, copying, determinization and minimization. Two-place concatenation and
union stand beside those of a list.
-/

namespace FiniteAutomata

universe u v

/-- How to build an automaton over labels of type `L` from automata named by `V`. -/
inductive Expr (V : Type v) (L : Type u) where
  /-- The automaton of that name, as it is. -/
  | var (name : V)
  | none
  | epsilon
  | atom (label : L)
  | union (operands : List (Expr V L))
  /-- The concatenation of the operands, of which there must be one. -/
  | concat (operands : List (Expr V L))
  | seq (first second : Expr V L)
  | alt (first second : Expr V L)
  | star (operand : Expr V L)
  | reverse (operand : Expr V L)
  /-- The operand with its states renumbered. -/
  | copy (operand : Expr V L)
  | determinize (operand : Expr V L)
  | minimize (operand : Expr V L)

end FiniteAutomata
