/-!
# Errors

The library refuses an argument that no answer would fit, and gives the reason in words.
-/

namespace FiniteAutomata

/-- Why an operation has no result. -/
inductive Error where
  | invalidArgument (reason : String)
deriving DecidableEq, Repr

namespace Error

/-- A concatenation needs a first and a last operand. -/
def emptyConcatenation : Error :=
  invalidArgument "Cannot concatenate an empty list of automata"

/-- The error as a sentence. -/
def message : Error → String
  | invalidArgument reason => "Invalid argument: " ++ reason

end Error

end FiniteAutomata
