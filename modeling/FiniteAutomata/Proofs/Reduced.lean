import FiniteAutomata.Proofs.Covering

/-!
# Reduced automata

A deterministic automaton is reduced when every state lies on a path from an initial to a final state
and no two states accept the same words. Then its states are the non-empty sets of words that can
complete some word, one state for each. A reduced automaton is therefore covered by every
deterministic automaton that accepts the same words: none of these is smaller, and those that are
reduced as well are isomorphic to it.
-/

namespace FiniteAutomata.Automaton

universe u

variable {L : Type u} [BEq L] {M N D : Automaton L}

/-- Deterministic, with no state to spare. -/
structure Reduced (M : Automaton L) : Prop where
  isDeterministic : M.isDeterministic = true
  accessible : M.Accessible
  coaccessible : M.Coaccessible
  /-- States that accept the same words are one state. -/
  separated : ∀ s ∈ M.states, ∀ t ∈ M.states,
    (∀ w, M.AcceptsFrom s w ↔ M.AcceptsFrom t w) → s = t

theorem Reduced.exists_word_of_ne {p q : StateId} (h : M.Reduced) (hp : p ∈ M.states)
    (hq : q ∈ M.states) (hne : p ≠ q) :
    ∃ w, M.AcceptsFrom p w ∧ ¬ M.AcceptsFrom q w ∨ M.AcceptsFrom q w ∧ ¬ M.AcceptsFrom p w := by
  by_contra hnone
  refine hne (h.separated p hp q hq fun w => ?_)
  have hw := not_exists.1 hnone w
  tauto

variable [EquivBEq L]

theorem Reduced.covers (hM : M.Reduced) (hD : D.isDeterministic = true)
    (hwords : ∀ w, M.Accepts w ↔ D.Accepts w) : D.Covers M where
  live w := by
    intro h
    obtain ⟨s, hs⟩ := h
    obtain ⟨v, hv⟩ := hM.coaccessible s hs.mem_states
    have haccepts : D.Accepts (w ++ v) :=
      (hwords _).1 (accepts_append_iff.2 ⟨s, hs, hv⟩)
    exact haccepts.live.of_append
  meet v w := by
    intro h h' hmeet
    obtain ⟨s, hs⟩ := h
    obtain ⟨t, ht⟩ := h'
    obtain ⟨q, hv, hw⟩ := hmeet
    have hsame : s = t := by
      refine hM.separated s hs.mem_states t ht.mem_states fun x => ?_
      rw [hs.acceptsFrom_iff hM.isDeterministic, ht.acceptsFrom_iff hM.isDeterministic, hwords,
        hwords, ← hv.acceptsFrom_iff hD, ← hw.acceptsFrom_iff hD]
    exact ⟨s, hs, hsame ▸ ht⟩

theorem Reduced.numStates_le (hM : M.Reduced) (hD : D.isDeterministic = true)
    (hwords : ∀ w, M.Accepts w ↔ D.Accepts w) : M.numStates ≤ D.numStates :=
  (hM.covers hD hwords).numStates_le hM.isDeterministic hM.accessible

theorem Reduced.size_transitions_le (hM : M.Reduced) (hD : D.isDeterministic = true)
    (hwords : ∀ w, M.Accepts w ↔ D.Accepts w) : M.transitions.size ≤ D.transitions.size :=
  (hM.covers hD hwords).size_transitions_le hM.isDeterministic hD hM.accessible

omit [EquivBEq L] in
/-- Without words there are no states, for every state lies on the path of a word. -/
theorem Reduced.numStates_eq_zero_iff (hM : M.Reduced) :
    M.numStates = 0 ↔ ∀ w, ¬ M.Accepts w := by
  rw [Automaton.numStates_eq_zero_iff]
  refine ⟨fun h w hw => ?_, fun h s hs => ?_⟩
  · obtain ⟨i, hi, -⟩ := hw
    exact h i (mem_states_of_mem_initials hi)
  · obtain ⟨v, hv⟩ := hM.accessible s hs
    obtain ⟨w, hw⟩ := hM.coaccessible s hs
    exact h (v ++ w) (accepts_append_iff.2 ⟨s, hv, hw⟩)

theorem Reduced.isomorphic (hM : M.Reduced) (hN : N.Reduced)
    (hwords : ∀ w, M.Accepts w ↔ N.Accepts w) : Isomorphic M N :=
  isomorphic_of_covers hM.isDeterministic hN.isDeterministic hM.accessible hN.accessible
    (hM.covers hN.isDeterministic hwords)
    (hN.covers hM.isDeterministic fun w => (hwords w).symm) hwords

end FiniteAutomata.Automaton
