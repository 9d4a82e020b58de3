import FiniteAutomata.Proofs.Minimization

/-!
# Automata that accept nothing

The check for emptiness looks for a final state among the states that can be reached and pays no
attention to labels. Every step can be read on its own label, so the walk to such a state spells a word
that is accepted, and an accepted word leaves a walk behind. Minimization drops the states from which
no final state can be reached, which here are all of them.
-/

namespace FiniteAutomata.Automaton

universe u

variable {L : Type u} [BEq L] [EquivBEq L] {A : Automaton L}

theorem isEmpty_eq_false_iff : A.isEmpty = false ↔ ∃ w, A.Accepts w := by
  rw [isEmpty, Bool.not_eq_false', OrderedSet.meets_iff]
  simp only [mem_reachable_iff, reachable_iff_exists_leadsTo, accepts_iff_exists_leadsTo]
  constructor
  · rintro ⟨t, ⟨w, hleads⟩, hfinal⟩
    exact ⟨w, t, hfinal, hleads⟩
  · rintro ⟨w, t, hfinal, hleads⟩
    exact ⟨t, ⟨w, hleads⟩, hfinal⟩

theorem isEmpty_iff : A.isEmpty = true ↔ ∀ w, ¬ A.Accepts w := by
  rw [← Bool.not_eq_false, isEmpty_eq_false_iff, not_exists]

theorem numStates_minimize_eq_zero_iff : A.minimize.numStates = 0 ↔ ∀ w, ¬ A.Accepts w := by
  simp only [reduced_minimize.numStates_eq_zero_iff, accepts_minimize_iff]

/-- The check succeeds exactly if no word is accepted, and exactly if minimization leaves no state. -/
theorem isEmpty_exact (A : Automaton L) :
    (A.isEmpty = true ↔ ∀ w, A.accepts w = false) ∧ (A.isEmpty = true ↔ A.minimize.numStates = 0) := by
  constructor
  · rw [isEmpty_iff]
    refine forall_congr' fun w => ?_
    rw [← accepts_iff, Bool.not_eq_true]
  · rw [isEmpty_iff, numStates_minimize_eq_zero_iff]

/-- A silent circle that cannot be left, and a final state from which it can be entered. -/
def closedCircle : Automaton Char where
  initials := OrderedSet.ofList [0]
  transitions := OrderedSet.ofList [⟨0, none, 1⟩, ⟨1, none, 0⟩, ⟨1, some 'a', 1⟩, ⟨2, some 'a', 0⟩]
  finals := OrderedSet.ofList [2]
  frontier := none
  nextId := 3

/-- Turned around, the circle is on a way to the final state, but no match begins there. -/
theorem isEmpty_exact_closedCircle :
    (∀ w, closedCircle.accepts w = false) ∧ closedCircle.minimize.numStates = 0 ∧
      ∃ w, { closedCircle with finals := OrderedSet.ofList [1] }.accepts w = true := by
  have hempty : closedCircle.isEmpty = true := by decide +kernel
  obtain ⟨hwords, hstates⟩ := isEmpty_exact closedCircle
  refine ⟨hwords.1 hempty, hstates.1 hempty, ?_⟩
  by_contra hnone
  have hsame := (isEmpty_exact { closedCircle with finals := OrderedSet.ofList [1] }).1.2 fun w =>
    Bool.eq_false_iff.2 fun h => hnone ⟨w, h⟩
  exact absurd hsame (by decide +kernel)

end FiniteAutomata.Automaton
