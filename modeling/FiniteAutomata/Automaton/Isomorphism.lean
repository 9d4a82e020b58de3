import FiniteAutomata.Automaton.Basic
import Mathlib.Data.List.Forall2

/-!
# Isomorphism

Two automata are the same up to the names of their states when a renaming, one to one on the states,
carries the initial states, the transitions and the final states of the one onto those of the other.
The order of the sets and the match in progress do not count, and labels need only be equal.

A respelled automaton is the same throughout, in names, order and match, but for labels that are
equal and look different.
-/

namespace FiniteAutomata.Automaton

universe u

variable {L : Type u} [BEq L]

/-- The renaming `f` carries `A` onto `B`. -/
structure Renaming (A B : Automaton L) (f : StateId → StateId) : Prop where
  /-- Different states keep different names. -/
  injective : ∀ s ∈ A.states, ∀ t ∈ A.states, f s = f t → s = t
  initials : ∀ t, t ∈ B.initials ↔ ∃ s ∈ A.initials, f s = t
  finals : ∀ t, t ∈ B.finals ↔ ∃ s ∈ A.finals, f s = t
  transition_of_mem : ∀ t ∈ A.transitions, B.transitions.contains (t.mapStates f) = true
  exists_of_transition : ∀ u ∈ B.transitions, ∃ t ∈ A.transitions, (t.mapStates f == u) = true

/-- A renaming is known by what it does to the states and transitions there are. -/
theorem renaming_iff_forall_mem {A B : Automaton L} {f : StateId → StateId} :
    Renaming A B f ↔
      (∀ s ∈ A.states.toList, ∀ t ∈ A.states.toList, f s = f t → s = t) ∧
      ((∀ t ∈ B.initials.toList, ∃ s ∈ A.initials.toList, f s = t) ∧
        ∀ s ∈ A.initials.toList, f s ∈ B.initials) ∧
      ((∀ t ∈ B.finals.toList, ∃ s ∈ A.finals.toList, f s = t) ∧
        ∀ s ∈ A.finals.toList, f s ∈ B.finals) ∧
      (∀ t ∈ A.transitions.toList, B.transitions.contains (t.mapStates f) = true) ∧
      ∀ u ∈ B.transitions.toList, ∃ t ∈ A.transitions.toList, (t.mapStates f == u) = true := by
  have himage : ∀ S T : StateSet, (∀ t, t ∈ T ↔ ∃ s ∈ S, f s = t) ↔
      (∀ t ∈ T.toList, ∃ s ∈ S.toList, f s = t) ∧ ∀ s ∈ S.toList, f s ∈ T := by
    refine fun S T => ⟨fun h => ⟨fun t => (h t).1, fun s hs => (h _).2 ⟨s, hs, rfl⟩⟩, fun h t => ?_⟩
    exact ⟨h.1 t, fun ⟨s, hs, hst⟩ => hst ▸ h.2 s hs⟩
  rw [← himage, ← himage]
  refine ⟨fun h => ?_, fun h => ?_⟩
  · exact ⟨h.injective, h.initials, h.finals, h.transition_of_mem, h.exists_of_transition⟩
  · obtain ⟨hinj, hinitials, hfinals, hmem, hexists⟩ := h
    exact ⟨hinj, hinitials, hfinals, hmem, hexists⟩

instance (A B : Automaton L) (f : StateId → StateId) : Decidable (Renaming A B f) :=
  decidable_of_iff _ renaming_iff_forall_mem.symm

/-- The automata differ at most in the names of their states. -/
def Isomorphic (A B : Automaton L) : Prop := ∃ f, Renaming A B f

/-- The automata differ at most in the spelling of equal labels. -/
structure Respelled (A B : Automaton L) : Prop where
  initials : A.initials = B.initials
  /-- The same transitions, in the same order. -/
  transitions : List.Forall₂ (· == ·) A.transitions.toList B.transitions.toList
  finals : A.finals = B.finals
  frontier : A.frontier = B.frontier
  nextId : A.nextId = B.nextId

end FiniteAutomata.Automaton
