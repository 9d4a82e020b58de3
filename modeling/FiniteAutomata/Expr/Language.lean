import FiniteAutomata.Expr.Basic
import FiniteAutomata.Language

/-!
# The language of an expression

What an expression stands for, said by recursion on the tree and without any automaton. Copying,
determinization and minimization do not change a language. Repetition stands for the Kleene star,
although the automaton built for it may accept more.
-/

namespace FiniteAutomata.Expr

universe u v

variable {V : Type v} {L : Type u} [BEq L]

mutual

/-- The words of an expression, where `given` has those of the named automata. -/
def language (given : V → Language L) : Expr V L → Language L
  | var name => given name
  | none => fun _ => False
  | epsilon => fun w => w = []
  | atom label => fun w => ∃ symbol, w = [symbol] ∧ (label == symbol) = true
  | union operands => anyLanguage given operands
  | concat operands => allLanguage given operands
  | seq first second => (language given first).product (language given second)
  | alt first second => (language given first).union (language given second)
  | star operand => (language given operand).star
  | reverse operand => (language given operand).reverse
  | copy operand => language given operand
  | determinize operand => language given operand
  | minimize operand => language given operand

/-- The words of some expression of a list. -/
def anyLanguage (given : V → Language L) : List (Expr V L) → Language L
  | [] => fun _ => False
  | operand :: operands => (language given operand).union (anyLanguage given operands)

/-- A word of each expression of a list, one after the other. -/
def allLanguage (given : V → Language L) : List (Expr V L) → Language L
  | [] => fun w => w = []
  | operand :: operands => (language given operand).product (allLanguage given operands)

end

end FiniteAutomata.Expr
