import FiniteAutomata.Expr.Basic

/-!
# Proper expressions

The expressions whose automaton accepts what they stand for. They name no automaton and concatenate
at least one operand, and what they repeat is simple: nothing in it is a repetition itself, has lost
the shape in which it was built, or stands for no word for want of operands.
-/

namespace FiniteAutomata.Expr

universe u v

variable {V : Type v} {L : Type u}

/-- Made of labels and empty words by concatenation and union of at least one operand, reversal and
copying. -/
inductive Simple : Expr V L → Prop where
  | epsilon : Simple epsilon
  | atom (label : L) : Simple (atom label)
  | union {operands : List (Expr V L)} (hne : operands ≠ []) (hall : ∀ e ∈ operands, Simple e) :
      Simple (union operands)
  | concat {operands : List (Expr V L)} (hne : operands ≠ []) (hall : ∀ e ∈ operands, Simple e) :
      Simple (concat operands)
  | seq {first second : Expr V L} (hfirst : Simple first) (hsecond : Simple second) :
      Simple (seq first second)
  | alt {first second : Expr V L} (hfirst : Simple first) (hsecond : Simple second) :
      Simple (alt first second)
  | reverse {operand : Expr V L} (h : Simple operand) : Simple (reverse operand)
  | copy {operand : Expr V L} (h : Simple operand) : Simple (copy operand)

/-- Made by all operations, where only simple expressions are repeated and no concatenation is
empty. -/
inductive Proper : Expr V L → Prop where
  | none : Proper none
  | epsilon : Proper epsilon
  | atom (label : L) : Proper (atom label)
  | union {operands : List (Expr V L)} (hall : ∀ e ∈ operands, Proper e) : Proper (union operands)
  | concat {operands : List (Expr V L)} (hne : operands ≠ []) (hall : ∀ e ∈ operands, Proper e) :
      Proper (concat operands)
  | seq {first second : Expr V L} (hfirst : Proper first) (hsecond : Proper second) :
      Proper (seq first second)
  | alt {first second : Expr V L} (hfirst : Proper first) (hsecond : Proper second) :
      Proper (alt first second)
  | star {operand : Expr V L} (h : Simple operand) : Proper (star operand)
  | reverse {operand : Expr V L} (h : Proper operand) : Proper (reverse operand)
  | copy {operand : Expr V L} (h : Proper operand) : Proper (copy operand)
  | determinize {operand : Expr V L} (h : Proper operand) : Proper (determinize operand)
  | minimize {operand : Expr V L} (h : Proper operand) : Proper (minimize operand)

end FiniteAutomata.Expr
