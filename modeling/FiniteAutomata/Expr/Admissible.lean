import FiniteAutomata.Expr.Basic

/-!
# Admissible expressions

The expressions whose automaton accepts at least what they stand for. They name no automaton,
concatenate at least one operand, and may nest repetitions to any depth. What they repeat is
productive: nothing in it stands for no word, for there is always an operand to choose.
-/

namespace FiniteAutomata.Expr

universe u v

variable {V : Type v} {L : Type u}

/-- Made of labels and empty words by all operations, where no union is empty. -/
inductive Productive : Expr V L → Prop where
  | epsilon : Productive epsilon
  | atom (label : L) : Productive (atom label)
  | union {operands : List (Expr V L)} (hne : operands ≠ []) (hall : ∀ e ∈ operands, Productive e) :
      Productive (union operands)
  | concat {operands : List (Expr V L)} (hall : ∀ e ∈ operands, Productive e) :
      Productive (concat operands)
  | seq {first second : Expr V L} (hfirst : Productive first) (hsecond : Productive second) :
      Productive (seq first second)
  | alt {first second : Expr V L} (hfirst : Productive first) (hsecond : Productive second) :
      Productive (alt first second)
  | star {operand : Expr V L} (h : Productive operand) : Productive (star operand)
  | reverse {operand : Expr V L} (h : Productive operand) : Productive (reverse operand)
  | copy {operand : Expr V L} (h : Productive operand) : Productive (copy operand)
  | determinize {operand : Expr V L} (h : Productive operand) : Productive (determinize operand)
  | minimize {operand : Expr V L} (h : Productive operand) : Productive (minimize operand)

/-- Made by all operations, where only productive expressions are repeated and no concatenation is
empty. -/
inductive Admissible : Expr V L → Prop where
  | none : Admissible none
  | epsilon : Admissible epsilon
  | atom (label : L) : Admissible (atom label)
  | union {operands : List (Expr V L)} (hall : ∀ e ∈ operands, Admissible e) :
      Admissible (union operands)
  | concat {operands : List (Expr V L)} (hne : operands ≠ []) (hall : ∀ e ∈ operands, Admissible e) :
      Admissible (concat operands)
  | seq {first second : Expr V L} (hfirst : Admissible first) (hsecond : Admissible second) :
      Admissible (seq first second)
  | alt {first second : Expr V L} (hfirst : Admissible first) (hsecond : Admissible second) :
      Admissible (alt first second)
  | star {operand : Expr V L} (h : Admissible operand) (hproductive : Productive operand) :
      Admissible (star operand)
  | reverse {operand : Expr V L} (h : Admissible operand) : Admissible (reverse operand)
  | copy {operand : Expr V L} (h : Admissible operand) : Admissible (copy operand)
  | determinize {operand : Expr V L} (h : Admissible operand) : Admissible (determinize operand)
  | minimize {operand : Expr V L} (h : Admissible operand) : Admissible (minimize operand)

end FiniteAutomata.Expr
